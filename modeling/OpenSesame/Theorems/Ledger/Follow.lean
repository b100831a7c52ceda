import OpenSesame.Theorems.Ledger.Block

/-! # Checking and following nodes

A node that checks a block enforces the limits of `InternalCheckTime`; a node that follows does not,
and leaves out the transactions that are recorded as expired. -/

namespace OpenSesame
open Protocol StateOption TransactionFrm LedgerFrm LedgerContext Function

/-! ### A run without limits beside one with limits -/

def LedgerContext.shadow (tr : Trace) (s : LedgerContext) : LedgerContext :=
  { s with txs := fun i => (s.txs i).unchecked, trace := tr }

def Shadows (n : ℕ) (s s' : LedgerContext) : Prop :=
  n ≤ s.trace.tripped ∧ ∃ tr, s' = s.shadow tr

theorem respects_shadows {α : Type} {n : ℕ} {f : LedgerContext → Option α} {g : LedgerContext → LedgerContext}
    (htr : ∀ s, (g s).trace.tripped = s.trace.tripped)
    (h : ∀ s tr, f (s.shadow tr) = f s ∧ ∃ tr', g (s.shadow tr) = (g s).shadow tr') :
    Respects (Shadows n) (fun s => s.trace.tripped ≤ n) anyState fun s => (f s).map fun a => (a, g s) := by
  refine .of_option (fun s _ hok => (htr s).symm.trans_le hok) ?_
  rintro s _ - ⟨hn, tr, rfl⟩ -
  obtain ⟨hf, hg⟩ := h s tr
  exact ⟨hf, hn.trans_eq (htr s).symm, hg⟩

theorem respects_shadows_of_total {α : Type} {n : ℕ} {f : LedgerContext → α} {g : LedgerContext → LedgerContext}
    (htr : ∀ s, (g s).trace.tripped = s.trace.tripped)
    (h : ∀ s tr, f (s.shadow tr) = f s ∧ ∃ tr', g (s.shadow tr) = (g s).shadow tr') :
    Respects (Shadows n) (fun s => s.trace.tripped ≤ n) anyState fun s => some (f s, g s) :=
  respects_shadows (f := fun s => some (f s)) htr fun s tr => ⟨congrArg some (h s tr).1, (h s tr).2⟩

theorem shadow_update {i : ℕ} {f : TransactionFrm → TransactionFrm} (h : ∀ t, f t.unchecked = (f t).unchecked)
    (txs : ℕ → TransactionFrm) :
    update (fun j => (txs j).unchecked) i (f (txs i).unchecked) = fun j => (update txs i (f (txs i)) j).unchecked := by
  funext j
  by_cases hj : j = i
  · subst hj
    simp [h]
  · simp [hj]

theorem trip_respects (n i : ℕ) (late : Bool) :
    Respects (Shadows n) (fun s => s.trace.tripped ≤ n) anyState (trip i late) := by
  refine .of_total (fun s _ hok => Nat.le_trans (Nat.le_add_right _ _) hok) ?_
  rintro s _ - ⟨hn, tr, rfl⟩ hok
  -- the limit was not hit, so that the run without limits goes the same way
  have hnone : (s.txs i).overLimit late = none := by
    rcases ho : (s.txs i).overLimit late with - | info
    · rfl
    · simp only [ho, Option.isSome_some, Bool.toNat_true] at hok
      omega
  have hshadow : ((s.shadow tr).txs i).overLimit late = none := rfl
  simp only [hnone, markExpired_of_overLimit hnone, hshadow, markExpired_of_overLimit hshadow, update_eq_self]
  exact ⟨trivial, hn, tr, rfl⟩

theorem popTx_shadows (n : ℕ) : Respects (Shadows n) (fun s => s.trace.tripped ≤ n) anyState popTx :=
  popTx_eq ▸ respects_shadows (fun _ => rfl) fun _ _ => ⟨rfl, _, rfl⟩

def followDiscipline (w : World) (n : ℕ) : ScriptDiscipline w where
  rel := Shadows n
  ok s := s.trace.tripped ≤ n
  getEntry _ _ := respects_shadows_of_total (fun _ => rfl) fun _ _ => ⟨rfl, _, rfl⟩
  deref _ _ := respects_shadows (fun _ => rfl) fun _ _ => ⟨rfl, _, rfl⟩
  alterEntry _ _ _ _ _ := respects_shadows_of_total (fun _ => rfl) fun _ _ => ⟨rfl, _, rfl⟩
  addEntry _ _ _ _ _ := Respects.of_any (respects_shadows_of_total (fun _ => rfl) fun _ _ => ⟨rfl, _, rfl⟩)
  nonceIncrease _ _ := respects_shadows_of_total (fun _ => rfl) fun _ _ => ⟨rfl, _, rfl⟩
  commit _ := respects_shadows_of_total (fun _ => rfl) fun _ _ => ⟨rfl, _, rfl⟩
  newStackFrameEnv _ := respects_shadows_of_total (fun _ => rfl) fun _ _ => ⟨rfl, _, rfl⟩
  getValidators _ := respects_shadows_of_total (fun _ => rfl) fun _ _ => ⟨rfl, _, rfl⟩
  updateFeeConfig _ _ := respects_shadows_of_total (fun _ => rfl) fun _ _ => ⟨rfl, _, rfl⟩
  updateNewValidators _ _ := respects_shadows_of_total (fun _ => rfl) fun _ _ => ⟨rfl, _, rfl⟩
  askLedger := respects_shadows_of_total (fun _ => rfl) fun _ _ => ⟨rfl, _, rfl⟩
  askTx _ _ h := respects_shadows_of_total (fun _ => rfl) fun _ _ => ⟨h _, _, rfl⟩
  alterTx _ _ h := respects_shadows_of_total (fun _ => rfl) fun s tr =>
    ⟨rfl, tr, by simp [shadow, shadow_update h]⟩
  pushTx env := respects_shadows_of_total (fun _ => rfl) fun s tr =>
    ⟨rfl, tr, by simp [shadow, shadow_update (f := fun _ => { transactionEnv := env }) fun _ => rfl]⟩
  pushAgain _ := respects_shadows_of_total (fun _ => rfl) fun _ _ => ⟨rfl, _, rfl⟩
  popTx := popTx_shadows n
  stackSize := respects_shadows_of_total (fun _ => rfl) fun _ _ => ⟨rfl, _, rfl⟩
  getBottomTx := respects_shadows (fun _ => rfl) fun _ _ => ⟨rfl, _, rfl⟩
  getTopTx := respects_shadows (fun _ => rfl) fun _ _ => ⟨rfl, _, rfl⟩
  trip := trip_respects n
  noteResult _ := respects_shadows_of_total (fun _ => rfl) fun _ _ => ⟨rfl, _, rfl⟩

section Frame
variable (w : World) (n : ℕ)

theorem commit_shadows (d : ℕ) : Respects (Shadows n) (fun s => s.trace.tripped ≤ n) anyState (commit d) :=
  respects_shadows_of_total (fun _ => rfl) fun _ _ => ⟨rfl, _, rfl⟩

theorem enter_shadows (env : TransactionEnv) :
    Respects (Shadows n) (fun s => s.trace.tripped ≤ n) anyState (enter w env {}) :=
  .bind ((followDiscipline w n).pushTx env) fun i => .bind ((followDiscipline w n).txNonceIncrease i 0) fun _ =>
    .bind (commit_shadows n 0) fun _ => .pure i

theorem settleTop_shadows (i : ℕ) (totalFee : Int64) :
    Respects (Shadows n) (fun s => s.trace.tripped ≤ n) anyState (settleTop w i totalFee) :=
  .bind ((followDiscipline w n).returnFee i totalFee) fun _ => .bind ((followDiscipline w n).environmentOf i) fun d =>
    .bind (commit_shadows n d) fun _ => .pure _

theorem releaseTxs_shadows : Respects (Shadows n) (fun s => s.trace.tripped ≤ n) anyState releaseTxs := by
  refine respects_shadows_of_total (fun s => ?_) fun s tr => ⟨rfl, tr, ?_⟩
  · split <;> rfl
  · by_cases hs : s.transactionStack = []
    · simp only [shadow, hs, if_true]
      rfl
    · simp only [shadow, hs, if_false]

theorem leave_shadows : Respects (Shadows n) (fun s => s.trace.tripped ≤ n) anyState leave :=
  .bind (respects_shadows_of_total (fun _ => rfl) fun _ _ => ⟨rfl, _, rfl⟩) fun _ =>
    .bind (popTx_shadows n) fun _ => releaseTxs_shadows n

end Frame

/-! ### One transaction in both runs -/

variable {env : TransactionEnv}

section Transaction
variable {w : World} {fuel i n : ℕ} {late : Bool} {totalFee totalFee' : Int64} {v : Verdict} {s s' t u : LedgerContext}

theorem shadows_enable (h : Shadows n s s') : Shadows n
      { s with txs := update s.txs i { s.txs i with enableCheck := true } } s' := by
  obtain ⟨hn, tr, rfl⟩ := h
  refine ⟨hn, tr, ?_⟩
  simp only [shadow]
  congr 1
  funext j
  by_cases hj : j = i
  · subst hj
    simp [unchecked]
  · simp [hj]

/-- A transaction that does not expire, and in which no limit was hit, goes the same way without limits. -/
theorem followed_of_enforced (hrel : Shadows n s s')
    (h : enforced w fuel late i totalFee s = some ((v, totalFee'), t)) (hv : v ≠ .expired)
    (hok : t.trace.tripped ≤ n) :
    ∃ t', followed w fuel false i totalFee s' = some ((v, totalFee'), t') ∧ Shadows n t t' := by
  have hgood := (followDiscipline w n).applyTop fuel i
  obtain ⟨ret, x, expired, y, happly, -, hend⟩ := enforced_eq_some h
  rcases hend with ⟨-, rfl, -, -⟩ | ⟨-, rfl, rfl, rfl, rfl⟩ | ⟨-, rfl, rfl, hsettle⟩
  · exact absurd rfl hv
  · obtain ⟨t', happly', hrel'⟩ := hgood.step trivial (shadows_enable hrel) happly hok
    exact ⟨t', bind_run happly' rfl, hrel'⟩
  · have hsettles := settleTop_shadows w n i totalFee
    obtain ⟨u', happly', hrel'⟩ := hgood.step trivial (shadows_enable hrel) happly (hsettles.guard trivial hsettle hok)
    obtain ⟨t', hsettle', hrel''⟩ := hsettles.step trivial hrel' hsettle hok
    exact ⟨t', bind_run happly' (bind_run hsettle' rfl), hrel''⟩

theorem enforced_expired (h : enforced w fuel late i totalFee s = some ((.expired, totalFee'), t)) :
    SameBase s t ∧ totalFee' = totalFee := by
  obtain ⟨ret, x, expired, y, happly, hexpire, hend⟩ := enforced_eq_some h
  cases hexpire
  have hbase : SameBase s x := SameBase.trans (s := { s with
    txs := update s.txs i { s.txs i with enableCheck := true } }) ⟨rfl, rfl, rfl, rfl, rfl⟩
    (applyTop_base happly)
  rcases hend with ⟨-, -, rfl, rfl⟩ | ⟨-, -, hv, -⟩ | ⟨-, -, hv, -⟩
  · exact ⟨hbase.trans ⟨rfl, rfl, rfl, rfl, rfl⟩, rfl⟩
  · exact absurd hv nofun
  · exact absurd hv nofun

def Twin (s s' : LedgerContext) : Prop := ∃ tr, s' = s.shadow tr

theorem twin_afterLeave (h : SameBase s s') (hs : s.transactionStack.tail = [])
    (hs' : s'.transactionStack.tail = []) : Twin (afterLeave s) (afterLeave s') := by
  refine ⟨s'.trace, ?_⟩
  simp only [afterLeave, hs, hs', if_true, shadow, h.ledgerSeq, h.closeTime, h.isTestMode,
    between_congr h.accounts h.settings]
  rfl

theorem transaction_follow {tx : AppliedTx} (htwin : Twin s s') (hidle : s.transactionStack = [])
    (h : transaction w env {} (fun i => enforced w fuel late i totalFee) s = some ((tx, totalFee'), t))
    (hleft : tx.stackLeft = 0) (htrip : tx.verdict ≠ .expired → tx.tripped = 0) :
    ∃ tx' t', transaction w env {} (fun i => followed w fuel (decide (tx.verdict = .expired)) i totalFee) s' =
          some ((tx', totalFee'), t') ∧
      tx'.verdict = tx.verdict ∧ (tx'.frm.result.code = .mathOverflow → Block.Alike tx' tx) ∧ Twin t t' ∧
      t.transactionStack = [] := by
  obtain ⟨i, u, v, x, henter, hbody, hleave, rfl⟩ := transaction_eq_some.mp h
  obtain ⟨tr, rfl⟩ := htwin
  have hempty : t.transactionStack = [] := List.length_eq_zero_iff.mp hleft
  obtain ⟨hstack, htripped⟩ := enter_quiet henter
  obtain ⟨u', henter', hrel⟩ := (enter_shadows w s.trace.tripped env).step trivial
    ⟨Nat.le_refl _, tr, rfl⟩ henter htripped.le
  by_cases hv : v = .expired
  · -- the following run does nothing, and what the checking run did is thrown away
    subst hv
    obtain ⟨hbase, rfl⟩ := enforced_expired hbody
    obtain ⟨-, rfl⟩ := leave_eq_some.mp hleave
    obtain ⟨-, tr', rfl⟩ := hrel
    let x' := { u.shadow tr' with
      txs := update (u.shadow tr').txs i { (u.shadow tr').txs i with
          result := { ((u.shadow tr').txs i).result with code := .contractExecuteExpired } } }
    have hstack' : x'.transactionStack = [i] := by rw [← hidle]; exact hstack
    have hbase' : SameBase x x' := hbase.symm.trans ⟨rfl, rfl, rfl, rfl, rfl⟩
    refine ⟨_, afterLeave x', transaction_eq_some.mpr ⟨i, _, .expired, x', henter', rfl, ?_, rfl⟩, rfl, ?_, ?_, hempty⟩
    · exact leave_eq_some.mpr ⟨by rw [hstack']; exact nofun, rfl⟩
    · intro hcode
      simp [x'] at hcode
    · exact twin_afterLeave hbase' (afterLeave_stack x ▸ hempty) (by rw [hstack']; rfl)
  · have hn : t.trace.tripped ≤ s.trace.tripped := Nat.sub_eq_zero_iff_le.mp (htrip hv)
    have hleaves := leave_shadows s.trace.tripped
    obtain ⟨x', hbody', hrel'⟩ := followed_of_enforced hrel hbody hv (hleaves.guard trivial hleave hn)
    obtain ⟨t', hleave', -, htwin⟩ := hleaves.step trivial hrel' hleave hn
    refine ⟨_, t', transaction_eq_some.mpr ⟨i, u', v, x', henter', ?_, hleave', rfl⟩, rfl, fun _ => ?_, htwin, hempty⟩
    · simpa only [hv, decide_false] using hbody'
    · obtain ⟨-, tr', rfl⟩ := hrel'
      exact ⟨rfl, rfl, rfl, rfl⟩

end Transaction

/-! ### Whole blocks -/

def twinAccess (w : World) : Access w where
  rel := Twin
  ok _ := True
  getEntry _ _ := .of_total (fun _ _ h => h) <| by rintro s _ - ⟨tr, rfl⟩ -; exact ⟨rfl, _, rfl⟩
  deref _ _ := .of_option (fun _ _ h => h) <| by rintro s _ - ⟨tr, rfl⟩ -; exact ⟨rfl, _, rfl⟩
  alterEntry _ _ _ _ _ := .of_total (fun _ _ h => h) <| by rintro s _ - ⟨tr, rfl⟩ -; exact ⟨rfl, _, rfl⟩
  addEntry _ _ _ _ _ := .of_total (fun _ _ h => h) <| by rintro s _ - ⟨tr, rfl⟩ -; exact ⟨rfl, _, rfl⟩

theorem allocateReward_twin (w : World) (totalFee : Int64) : (twinAccess w).Good (allocateReward w totalFee) := by
  refine .bind (.of_total (fun _ _ h => h) ?_) fun r =>
    .ite (fun _ => .pure _) fun _ => .bind ((twinAccess w).payReward ..) fun paid =>
      .ite (fun _ => .bind (.of_total (fun _ _ h => h) ?_) fun _ => .pure _) fun _ => .pure _
  · rintro s _ - ⟨tr, rfl⟩ -
    exact ⟨rfl, _, rfl⟩
  · rintro s _ - ⟨tr, rfl⟩ -
    exact ⟨rfl, _, rfl⟩

/-- A limit is hit in no transaction that does not expire, and nothing is left on the stack. -/
structure AppliedTx.Plain (tx : AppliedTx) : Prop where
  tripped : tx.verdict ≠ .expired → tx.tripped = 0
  stackLeft : tx.stackLeft = 0

section Blocks
variable {w : World} {fuel : ℕ} {clock : Clock}

theorem payFee_follow {checkPriv : Bool} {r : Result} {totalFee fee : Int64}
    {s s' s₁ s₂ : LedgerContext} (htwin : Twin s s')
    (hvalid : validForApply w env checkPriv s = some ((true, r), s₁))
    (hpay : payFee w env totalFee s₁ = some ((none, fee), s₂)) :
    ∃ s₂', payFee w env totalFee s' = some ((none, fee), s₂') ∧ Twin s₂ s₂' := by
  obtain ⟨-, -, source, hfound, -⟩ := validForApply_ok hvalid
  rw [payFee_of_found hfound] at hpay
  exact ((twinAccess w).payFee env totalFee).step trivial htwin hpay trivial

theorem idle_of_payFee {checkPriv : Bool} {r : Result} {totalFee fee : Int64}
    {s s₁ s₂ : LedgerContext} (hvalid : validForApply w env checkPriv s = some ((true, r), s₁))
    (hpay : payFee w env totalFee s₁ = some ((none, fee), s₂)) :
    s₂.transactionStack = s.transactionStack := by
  obtain ⟨-, -, source, hfound, -⟩ := validForApply_ok hvalid
  rw [payFee_of_found hfound] at hpay
  obtain ⟨source', u, newBalance, hentry, -, -, halter⟩ := payFee_ok hpay
  obtain ⟨-, rfl⟩ := Prod.mk.inj (Option.some.inj hentry)
  obtain ⟨-, rfl⟩ := Prod.mk.inj (Option.some.inj halter)
  rfl

theorem followLoop_of_checkLoop {l : List TransactionEnv} {b' : Block} {t : LedgerContext}
    (hplain : ∀ tx ∈ b'.applyTxFrms, tx.Plain) :
    ∀ {position : ℕ} {b c : Block} {s s' : LedgerContext}, checkLoop w fuel clock position l b s = some (some b', t) →
      Twin s s' → s.transactionStack = [] → (∀ q ∈ b.expireTxs, q < position) →
      c.Agree b →
      ∃ c' t', followLoop w fuel b'.expireTxs position l c s' = some (c', t') ∧ Twin t t' ∧
        c'.Agree b' := by
  induction l with
  | nil =>
    intro position b c s s' h htwin _ _ hagree
    obtain ⟨heq, rfl⟩ := of_pure h
    cases heq
    exact ⟨c, s', rfl, htwin, hagree⟩
  | cons env l ih =>
    intro position b c s s' h htwin hidle hbelow hagree
    obtain ⟨r, s₁, fee, s₂, tx, fee', s₃, hvalid, hpay, htx, -, hrest⟩ := checkLoop_cons.mp h
    obtain rfl := (validForApply_ok hvalid).1
    obtain ⟨happlied, hexpired⟩ := checkLoop_grows hrest
    have hmem : tx ∈ b'.applyTxFrms := happlied.subset (by simp [Block.note])
    obtain ⟨s₂', hpay', htwin₂⟩ := payFee_follow htwin hvalid hpay
    obtain ⟨tx', s₃', htx', hverdict, halike, htwin₃, hidle₃⟩ :=
      transaction_follow htwin₂ ((idle_of_payFee hvalid hpay).trans hidle) htx (hplain tx hmem).stackLeft
        (hplain tx hmem).tripped
    -- the position is in the set of the whole check exactly if this transaction expired
    have hcontains : b'.expireTxs.contains position = decide (tx.verdict = .expired) := by
      have hnew : position ∉ b.expireTxs := fun hp => (hbelow _ hp).ne rfl
      rw [List.contains_eq_mem, decide_eq_decide, hexpired _ (Nat.lt_succ_self _), Block.mem_expireTxs_note]
      simp [hnew]
    have hbelow₃ : ∀ q ∈ ({ b with totalFee := fee' }.note position tx).expireTxs, q < position + 1 := by
      intro q hq
      rcases Block.mem_expireTxs_note.mp hq with ⟨rfl, -⟩ | hq
      · exact Nat.lt_succ_self _
      · exact Nat.lt_succ_of_lt (hbelow q hq)
    obtain ⟨c', t', hrest', hend⟩ := ih hrest htwin₃ hidle₃ hbelow₃ (hagree.note hverdict halike position fee')
    refine ⟨c', t', bind_run (hagree.totalFee ▸ hpay') ?_, hend⟩
    exact bind_run (hcontains ▸ htx') hrest'

theorem applyFollow_of_applyCheck {request : ConsensusValue} {b : Block} {s : LedgerContext}
    (h : applyCheck w fuel clock request (.start request) = some (some b, s))
    (hplain : ∀ tx ∈ b.applyTxFrms, tx.Plain) :
    ∃ c s', applyFollow w fuel request (.start request) = some (some c, s') ∧ s'.envs = s.envs ∧
      c.Agree b := by
  obtain ⟨paid, u, hids, hloop, hreward⟩ := applyCheck_eq_some h
  have hstart : Twin (.start request) (.start request) := ⟨{}, rfl⟩
  obtain ⟨c, u', hloop', htwin, hagree⟩ := followLoop_of_checkLoop hplain hloop hstart rfl (by simp) (.refl {})
  obtain ⟨v', hreward', tr, rfl⟩ := (allocateReward_twin w b.totalFee).step trivial htwin hreward trivial
  refine ⟨c, s.shadow tr, ?_, rfl, hagree⟩
  unfold applyFollow
  simp only [hids]
  exact bind_run hloop' (bind_run (hagree.totalFee ▸ hreward') rfl)

/-- A checking node and a following node agree on a block that was accepted, if no transaction of it hits a limit
without expiring and none leaves transactions on the stack. -/
theorem applyFollow_agrees {request : ConsensusValue} {b : Block} {s : LedgerContext}
    (h : applyCheck w fuel clock request (.start request) = some (some b, s))
    (hplain : ∀ tx ∈ b.applyTxFrms, tx.Plain) :
    ∃ c s', applyFollow w fuel request (.start request) = some (some c, s') ∧
      (∀ a, s'.envs.accounts 0 a = s.envs.accounts 0 a) ∧ w.db.commit s'.envs = w.db.commit s.envs ∧
      c.verdicts = b.verdicts ∧ c.expireTxs = b.expireTxs ∧ c.errorTxs = b.errorTxs ∧
      c.totalFee = b.totalFee := by
  obtain ⟨c, s', hfollow, henvs, hagree⟩ := applyFollow_of_applyCheck h hplain
  exact ⟨c, s', hfollow, fun _ => by rw [henvs], by rw [henvs], hagree.verdicts, hagree.expireTxs,
    hagree.errorTxs, hagree.totalFee⟩

end Blocks

/-! ### A limit that is hit and not recorded -/

/-- A script that takes `memory` bytes, catches what `InternalCheckTime` throws, and gives them back. -/
def spikeEngine (memory : Int64) : Engine where
  State := ℕ
  boot _ _ := 0
  next
    | 0 => .checkTime memory 0 false fun _ => 1
    | 1 => .checkTime 0 0 false fun _ => 2
    | _ => .finish (.returned (.bool true))

def spikeWorld (memory : Int64) : World :=
  smallWorld (smallDb [{ address := "a", balance := 1000, priv := some ownPriv },
      { address := "k", contract := some { payload := "x" } }])
    (spikeEngine memory)

/-- A block with a payment to the account of the script. -/
def spikeValue : ConsensusValue where
  txset :=
    [{ transaction :=
        { sourceAddress := "a", nonce := 1, feeLimit := 100, gasPrice := 1
          operations := [{ type := .payCoin, payCoin := { destAddress := "k", amount := 5 } }] } }]
  closeTime := 0
  ledgerSeq := 2

/-- The checking node keeps the whole fee limit, since the limit on memory was hit once; the following node gives
back what was not used. -/
theorem applyFollow_spike :
    feeAndBalance "a" (applyCheck (spikeWorld 40000000) 10 earlyClock spikeValue (.start spikeValue)) =
        some (100, some 895) ∧
      feeAndBalance "a" (applyFollow (spikeWorld 40000000) 10 spikeValue (.start spikeValue)) =
        some (10, some 985) := by
  decide +kernel

theorem applyFollow_agrees_calm :
    ∃ b s, applyCheck (spikeWorld 0) 10 earlyClock spikeValue (.start spikeValue) = some (some b, s) ∧
      ∃ c s', applyFollow (spikeWorld 0) 10 spikeValue (.start spikeValue) = some (some c, s') ∧
        (∀ a, s'.envs.accounts 0 a = s.envs.accounts 0 a) ∧
        (spikeWorld 0).db.commit s'.envs = (spikeWorld 0).db.commit s.envs ∧
        c.verdicts = b.verdicts ∧ c.expireTxs = b.expireTxs ∧ c.errorTxs = b.errorTxs ∧
        c.totalFee = b.totalFee := by
  have hrun : (applyCheck (spikeWorld 0) 10 earlyClock spikeValue (.start spikeValue)).any (fun r =>
      r.1.any fun b => b.applyTxFrms.all fun tx => tx.tripped == 0 && tx.stackLeft == 0) = true := by
    decide +kernel
  obtain ⟨⟨found, s⟩, h, hfound⟩ := (Option.any_eq_true _ _).mp hrun
  obtain ⟨b, rfl, hall⟩ := (Option.any_eq_true _ _).mp hfound
  refine ⟨b, s, h, applyFollow_agrees h fun tx htx => ?_⟩
  have hplain := List.all_eq_true.mp hall tx htx
  simp only [Bool.and_eq_true, beq_iff_eq] at hplain
  exact ⟨fun _ => hplain.1, hplain.2⟩

end OpenSesame
