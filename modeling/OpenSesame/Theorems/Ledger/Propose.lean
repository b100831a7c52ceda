import OpenSesame.Glue.GlueManager
import OpenSesame.Theorems.Ledger.Block

/-! # Leader and validators

The leader drops transactions that are not valid or cannot pay; a validator gets the other ones
only. -/

namespace OpenSesame
open Protocol StateOption TransactionFrm LedgerFrm Environments Overlay GlueManager LedgerContext List Option

def LedgerContext.relayer (L : ℕ → Overlay Address AccountFrm) (tr : Trace) (s : LedgerContext) : LedgerContext :=
  { s with envs := { s.envs with accounts := L }, trace := tr }

@[simp] theorem LedgerContext.relayer_accounts (L : ℕ → Overlay Address AccountFrm) (tr : Trace)
    (s : LedgerContext) : (s.relayer L tr).envs.accounts = L := rfl

def Layered (C : (ℕ → Overlay Address AccountFrm) → (ℕ → Overlay Address AccountFrm) → Prop)
    (s s' : LedgerContext) : Prop :=
  ∃ L tr, s' = s.relayer L tr ∧ C s.envs.accounts L ∧ tr.tripped = s.trace.tripped

theorem Layered.intro {C : (ℕ → Overlay Address AccountFrm) → (ℕ → Overlay Address AccountFrm) → Prop}
    {s s' : LedgerContext} (hs : s' = s.relayer s'.envs.accounts s'.trace)
    (hC : C s.envs.accounts s'.envs.accounts) (htr : s'.trace.tripped = s.trace.tripped) : Layered C s s' :=
  ⟨_, _, hs, hC, htr⟩

section Layered
variable {C : (ℕ → Overlay Address AccountFrm) → (ℕ → Overlay Address AccountFrm) → Prop} {α : Type}
  {P : LedgerContext → Prop} {m : LedgerM α} {g : LedgerContext → LedgerContext}

theorem respects_layered {f : LedgerContext → Option α}
    (h : ∀ s L tr, C s.envs.accounts L → tr.tripped = s.trace.tripped →
      f (s.relayer L tr) = f s ∧ Layered C (g s) (g (s.relayer L tr))) :
    Respects (Layered C) (fun _ => True) P fun s => (f s).map fun a => (a, g s) := by
  refine .of_option (fun _ _ h => h) ?_
  rintro s _ - ⟨L, tr, rfl, hC, htr⟩ -
  exact h s L tr hC htr

theorem respects_layered_of_total {f : LedgerContext → α}
    (h : ∀ s L tr, C s.envs.accounts L → tr.tripped = s.trace.tripped →
      f (s.relayer L tr) = f s ∧ Layered C (g s) (g (s.relayer L tr))) :
    Respects (Layered C) (fun _ => True) P fun s => some (f s, g s) :=
  respects_layered (f := fun s => some (f s)) fun s L tr hC htr =>
    ⟨congrArg some (h s L tr hC htr).1, (h s L tr hC htr).2⟩

theorem layered_of_settings {f : Environments → Environments} (ha : ∀ e, (f e).accounts = e.accounts)
    (hs : ∀ e e', e'.settings = e.settings → (f e').settings = (f e).settings) {s : LedgerContext}
    {L : ℕ → Overlay Address AccountFrm} {tr : Trace} (hC : C s.envs.accounts L)
    (htr : tr.tripped = s.trace.tripped) :
    Layered C { s with envs := f s.envs } { s.relayer L tr with envs := f (s.relayer L tr).envs } := by
  have henv : f (s.relayer L tr).envs = { f s.envs with accounts := L } :=
    calc f (s.relayer L tr).envs
      _ = ⟨(f (s.relayer L tr).envs).accounts, (f (s.relayer L tr).envs).settings⟩ := rfl
      _ = ⟨L, (f s.envs).settings⟩ := by rw [ha, hs s.envs (s.relayer L tr).envs rfl]; rfl
  refine ⟨L, tr, by rw [henv]; rfl, ?_, htr⟩
  rw [ha]
  exact hC

end Layered

/-! ### Inside a transaction -/

abbrev Alike (w : World) : LedgerContext → LedgerContext → Prop := Layered (Overlay.Alike w.db.accountFromDB)

section Primitives
variable (w : World) (d : ℕ) (a : Address) {P : LedgerContext → Prop}

theorem getEntry_alike : Respects (Alike w) (fun _ => True) P (getEntry w d a) := by
  refine respects_layered_of_total fun s L tr hC htr => ⟨?_, .intro rfl ?_ htr⟩
  · rw [getEntry_fst, getEntry_fst]
    exact AtomMap.near_of_alike hC d a
  · dsimp only
    rw [getEntry_accounts, getEntry_accounts]
    exact AtomMap.near_of_alike hC d a ▸ hC.hold d a _

theorem alterEntry_alike (f : AccountFrm → AccountFrm) : Respects (Alike w) (fun _ => True) P (alterEntry d a f) := by
  refine respects_layered_of_total fun s L tr hC htr => ⟨rfl, .intro rfl ?_ htr⟩
  rw [alterEntry_accounts, alterEntry_accounts]
  change Overlay.Alike _ _ (hold L (d + 1) a ((L (d + 1) a).join.map f))
  rw [hC.above]
  exact hC.hold d a _

theorem nonceIncrease_alike : Respects (Alike w) (fun _ => True) P (nonceIncrease d a) := by
  refine respects_layered_of_total fun s L tr hC htr => ⟨rfl, .intro rfl ?_ htr⟩
  rw [alterEntry_accounts, alterEntry_accounts]
  change Overlay.Alike _ _ (hold L (d + 1) a ((L (d + 1) a).join.map AccountFrm.nonceIncrease))
  rw [hC.above]
  exact hC.hold d a _

theorem addEntry_alike (frm : AccountFrm) : Respects (Alike w) (fun _ => True) P (addEntry d a frm) := by
  refine respects_layered_of_total fun s L tr hC htr => ⟨rfl, .intro rfl ?_ htr⟩
  rw [addEntry_accounts, addEntry_accounts]
  exact hC.record d a _

theorem deref_alike : Respects (Alike w) (fun _ => True) P (deref d a) := by
  refine respects_layered fun s L tr hC htr => ⟨?_, _, _, rfl, hC, htr⟩
  dsimp only [relayer]
  rw [hC.above]

theorem commit_alike : Respects (Alike w) (fun _ => True) P (commit d) :=
  respects_layered_of_total fun _ _ _ hC htr => ⟨rfl, _, _, rfl, hC.fold d, htr⟩

theorem newStackFrameEnv_alike : Respects (Alike w) (fun _ => True) P (newStackFrameEnv d) := by
  refine respects_layered_of_total fun s L tr hC htr => ⟨rfl, .intro rfl ?_ htr⟩
  dsimp only [Environments.newStackFrameEnv]
  rw [Environments.clearChangeBuf_accounts, Environments.clearChangeBuf_accounts]
  exact hC.wipe _

theorem trip_alike (i : ℕ) (late : Bool) : Respects (Alike w) (fun _ => True) P (trip i late) :=
  respects_layered_of_total fun _ _ _ hC htr => ⟨rfl, _, _, rfl, hC, congrArg (· + _) htr⟩

end Primitives

def alikeDiscipline (w : World) : ScriptDiscipline w where
  rel := Alike w
  ok _ := True
  getEntry d a := getEntry_alike w d a
  deref d a := deref_alike w d a
  alterEntry d a f _ _ := alterEntry_alike w d a f
  addEntry d a frm _ _ := addEntry_alike w d a frm
  nonceIncrease d a := nonceIncrease_alike w d a
  commit d := commit_alike w (d + 1)
  newStackFrameEnv d := newStackFrameEnv_alike w d
  getValidators d := respects_layered_of_total fun s L tr hC htr =>
    ⟨by rw [getValidators_fst, getValidators_fst]; rfl, layered_of_settings (fun e => e.getValidators_accounts _)
        (fun e e' h => by rw [getValidators_settings, getValidators_settings, h]) hC htr⟩
  updateFeeConfig d j := respects_layered_of_total fun s L tr hC htr =>
    ⟨rfl, layered_of_settings (fun e => e.updateFeeConfig_accounts j)
      (fun e e' h => by rw [updateFeeConfig_settings, updateFeeConfig_settings, h]) hC htr⟩
  updateNewValidators _ _ := respects_layered_of_total fun _ _ _ hC htr => ⟨rfl, _, _, rfl, hC, htr⟩
  askLedger := respects_layered_of_total fun _ _ _ hC htr => ⟨rfl, _, _, rfl, hC, htr⟩
  askTx _ _ _ := respects_layered_of_total fun _ _ _ hC htr => ⟨rfl, _, _, rfl, hC, htr⟩
  alterTx _ _ _ := respects_layered_of_total fun _ _ _ hC htr => ⟨rfl, _, _, rfl, hC, htr⟩
  pushTx _ := respects_layered_of_total fun _ _ _ hC htr => ⟨rfl, _, _, rfl, hC, htr⟩
  pushAgain _ := respects_layered_of_total fun _ _ _ hC htr => ⟨rfl, _, _, rfl, hC, htr⟩
  popTx := popTx_eq ▸ respects_layered fun _ _ _ hC htr => ⟨rfl, _, _, rfl, hC, htr⟩
  stackSize := respects_layered_of_total fun _ _ _ hC htr => ⟨rfl, _, _, rfl, hC, htr⟩
  getBottomTx := respects_layered fun _ _ _ hC htr => ⟨rfl, _, _, rfl, hC, htr⟩
  getTopTx := respects_layered fun _ _ _ hC htr => ⟨rfl, _, _, rfl, hC, htr⟩
  trip := trip_alike w
  noteResult _ := respects_layered_of_total fun _ _ _ hC htr => ⟨rfl, _, _, rfl, hC, htr⟩

section Transaction
variable {w : World} (fuel i : ℕ) (late : Bool) (totalFee : Int64)

theorem settleTop_alike : (alikeDiscipline w).Good (settleTop w i totalFee) :=
  .bind ((alikeDiscipline w).returnFee i totalFee) fun _ => .bind ((alikeDiscipline w).environmentOf i) fun d =>
    .bind (commit_alike w d) fun _ => .pure _

theorem enforced_alike : (alikeDiscipline w).Good (enforced w fuel late i totalFee) :=
  .bind (respects_layered_of_total fun _ _ _ hC htr => ⟨rfl, _, _, rfl, hC, htr⟩) fun _ =>
    .bind ((alikeDiscipline w).applyTop fuel i) fun _ =>
    .bind (respects_layered_of_total fun _ _ _ hC htr => ⟨rfl, _, _, rfl, hC, htr⟩) fun _ =>
    .ite (fun _ => .pure _) fun _ => .ite (fun _ => .pure _) fun _ => .bind (settleTop_alike i totalFee) fun _ => .pure _

theorem releaseTxs_alike : Respects (Alike w) (fun _ => True) anyState releaseTxs := by
  refine respects_layered_of_total fun s L tr hC htr => ⟨rfl, L, tr, ?_, ?_, ?_⟩
  · by_cases hs : s.transactionStack = [] <;> simp only [relayer, hs, if_true, if_false]
  · split <;> exact hC
  · split <;> exact htr

theorem clearBlock_alike : Respects (Alike w) (fun _ => True) anyState clearBlock := by
  refine respects_layered_of_total fun s L tr hC htr => ⟨rfl, .intro rfl ?_ htr⟩
  constructor
  · rintro (- | j)
    · simp [clearChangeBuf_accounts, wipe_self]
    · simp
  · intro k
    simpa [view, clearChangeBuf_accounts, wipe_of_ne] using hC.seen k

theorem leave_alike : (alikeDiscipline w).Good leave :=
  .bind clearBlock_alike fun _ => .bind (alikeDiscipline w).popTx fun _ => releaseTxs_alike

end Transaction

/-! ### Between transactions -/

/-- Between transactions: what is seen in the environment of the block is the same, and its change buffers agree on
the accounts of `H`. -/
abbrev Level (w : World) (H : Set Address) : LedgerContext → LedgerContext → Prop :=
  Layered (Overlay.Level w.db.accountFromDB H)

variable {env : TransactionEnv} {frm : AccountFrm}

section Level
variable {w : World} {H : Set Address} {a : Address} {P : LedgerContext → Prop} {s s' t : LedgerContext}

theorem Alike.level (h : Alike w s s') (H : Set Address) : Level w H s s' := by
  obtain ⟨L, tr, rfl, hC, htr⟩ := h
  exact ⟨L, tr, rfl, hC.level H, htr⟩

theorem Level.mono {H' : Set Address} (h : Level w H s s') (hH : H' ⊆ H) : Level w H' s s' := by
  obtain ⟨L, tr, rfl, hC, htr⟩ := h
  exact ⟨L, tr, rfl, hC.mono hH, htr⟩

theorem getEntry_level_found (h : Level w H s s') (hs : getEntry w 0 a s = some (some frm, t)) :
    ∃ t', getEntry w 0 a s' = some (some frm, t') ∧ Level w (insert a H) t t' := by
  obtain ⟨L, tr, rfl, hC, htr⟩ := h
  obtain ⟨hr, rfl⟩ := Prod.mk.inj (some.inj hs)
  rw [getEntry_fst] at hr
  refine ⟨_, Prod.ext_iff.mpr ⟨?_, rfl⟩ |> congrArg some, .intro rfl ?_ htr⟩
  · rw [getEntry_fst]
    exact (hC.seen a).trans hr
  · dsimp only
    rw [getEntry_accounts, getEntry_accounts]
    exact hC.hold a (by rw [show view _ _ 1 a = some frm from hr]; exact nofun)

theorem getEntry_level_none (h : Level w H s s') (hs : getEntry w 0 a s = some (none, t)) :
    ∃ t', getEntry w 0 a s' = some (none, t') ∧ Level w H t t' := by
  obtain ⟨L, tr, rfl, hC, htr⟩ := h
  obtain ⟨hr, rfl⟩ := Prod.mk.inj (some.inj hs)
  rw [getEntry_fst] at hr
  have hr' : AtomMap.near w.db.accountFromDB L 0 a = none := (hC.seen a).trans hr
  refine ⟨_, Prod.ext_iff.mpr ⟨?_, rfl⟩ |> congrArg some, .intro rfl ?_ htr⟩
  · rw [getEntry_fst]
    exact hr'
  · dsimp only
    rw [getEntry_accounts, getEntry_accounts, hr, relayer_accounts, hr']
    exact hC

theorem getEntry_level : Respects (Level w H) (fun _ => True) P (getEntry w 0 a) where
  guard _ _ h := h
  step := by
    intro s s' r t _ h hs _
    cases r with
    | none => exact getEntry_level_none h hs
    | some frm =>
      obtain ⟨t', hs', hlevel⟩ := getEntry_level_found h hs
      exact ⟨t', hs', hlevel.mono (Set.subset_insert a H)⟩

theorem alter_level {L L' : ℕ → Overlay Address AccountFrm} (ha : a ∈ H)
    (hC : Overlay.Level w.db.accountFromDB H L L') (f : AccountFrm → AccountFrm) :
    Overlay.Level w.db.accountFromDB H (hold L 1 a ((L 1 a).join.map f)) (hold L' 1 a ((L' 1 a).join.map f)) := by
  rw [hC.held a ha]
  cases (L 1 a).join.map f with
  | none => exact hC
  | some frm => exact (hC.record a _).mono (Set.subset_insert a H)

theorem alterEntry_level (ha : a ∈ H) (f : AccountFrm → AccountFrm) :
    Respects (Level w H) (fun _ => True) P (alterEntry 0 a f) := by
  refine respects_layered_of_total fun s L tr hC htr => ⟨rfl, .intro rfl ?_ htr⟩
  rw [alterEntry_accounts, alterEntry_accounts]
  exact alter_level ha hC f

theorem nonceIncrease_level (ha : a ∈ H) : Respects (Level w H) (fun _ => True) P (nonceIncrease 0 a) := by
  refine respects_layered_of_total fun s L tr hC htr => ⟨rfl, .intro rfl ?_ htr⟩
  rw [alterEntry_accounts, alterEntry_accounts]
  exact alter_level ha hC _

theorem deref_level (ha : a ∈ H) : Respects (Level w H) (fun _ => True) P (deref 0 a) := by
  refine respects_layered fun s L tr hC htr => ⟨?_, _, _, rfl, hC, htr⟩
  dsimp only [relayer]
  rw [hC.held a ha]

theorem addEntry_level (h : Level w H s s') (hs : addEntry 0 a frm s = some ((), t)) :
    ∃ t', addEntry 0 a frm s' = some ((), t') ∧ Level w (insert a H) t t' := by
  obtain ⟨L, tr, rfl, hC, htr⟩ := h
  cases hs
  refine ⟨_, rfl, .intro rfl ?_ htr⟩
  rw [addEntry_accounts, addEntry_accounts]
  exact hC.record a _

theorem validForApply_level (env : TransactionEnv) (checkPriv : Bool) :
    Respects (Level w H) (fun _ => True) P (validForApply w env checkPriv) := by
  refine .ite (fun _ => .pure _) fun _ => .bind getEntry_level fun r => ?_
  cases r with
  | none => exact .pure _
  | some source => exact .ite (fun _ => .pure _) fun _ => .ite (fun _ => .pure _) fun _ => .pure _

variable {r : Result}

theorem validForApply_level_found {checkPriv : Bool} (h : Level w H s s')
    (hs : validForApply w env checkPriv s = some ((true, r), t)) :
    ∃ t', validForApply w env checkPriv s' = some ((true, r), t') ∧
      Level w (insert env.transaction.sourceAddress H) t t' := by
  obtain ⟨t', hs', -⟩ := (validForApply_level (P := anyState) env checkPriv).step trivial h hs trivial
  obtain ⟨-, -, source, hfound, -⟩ := validForApply_ok hs
  obtain ⟨-, -, source', hfound', -⟩ := validForApply_ok hs'
  obtain ⟨u', hu', hlevel⟩ := getEntry_level_found h hfound
  rw [hfound'] at hu'
  cases hu'
  exact ⟨t', hs', hlevel⟩

theorem payFee_level (ha : env.transaction.sourceAddress ∈ H) (totalFee : Int64) :
    Respects (Level w H) (fun _ => True) P (payFee w env totalFee) := by
  refine .bind getEntry_level fun r => ?_
  cases r with
  | none => exact .pure _
  | some source =>
    dsimp only
    split
    · exact .pure _
    · split
      · exact .pure _
      · exact .bind (alterEntry_level ha _) fun _ => .pure _

theorem txNonceIncrease_level (ha : a ∈ H) (i : ℕ) :
    Respects (Level w H) (fun _ => True) (fun s => (s.txs i).transactionEnv.transaction.sourceAddress = a)
      (TransactionFrm.nonceIncrease w i 0) := by
  refine .bind_after
    (respects_layered_of_total fun _ _ _ hC htr => ⟨rfl, _, _, rfl, hC, htr⟩) fun b => ?_
  by_cases hb : b = a
  · subst hb
    refine .bind getEntry_level fun r => ?_
    cases r with
    | none => exact respects_layered_of_total fun _ _ _ hC htr => ⟨rfl, _, _, rfl, hC, htr⟩
    | some _ => exact nonceIncrease_level ha
  · -- the address that is asked for is that of the source
    have hnot : ∀ t, ¬After (fun s => (s.txs i).transactionEnv.transaction.sourceAddress = a)
        (askTx i fun t => t.transactionEnv.transaction.sourceAddress) b t := by
      rintro t ⟨s, hs, h⟩
      cases h
      exact hb hs
    exact ⟨fun h => absurd h (hnot _), fun h => absurd h (hnot _)⟩

theorem enter_level {i : ℕ} (ha : env.transaction.sourceAddress ∈ H)
    (h : Level w H s s') (hs : LedgerFrm.enter w env r s = some (i, t)) :
    ∃ t', LedgerFrm.enter w env r s' = some (i, t') ∧ Alike w t t' := by
  obtain ⟨j, u, hpush, hs₁⟩ := of_bind hs
  obtain ⟨_, v, hnonce, hs₂⟩ := of_bind hs₁
  obtain ⟨_, x, hcommit, hs₃⟩ := of_bind hs₂
  cases hs₃
  have hpushes : Respects (Level w H) (fun _ => True) anyState (pushTx { transactionEnv := env, result := r }) :=
    respects_layered_of_total fun _ _ _ hC htr => ⟨rfl, _, _, rfl, hC, htr⟩
  obtain ⟨u', hpush', hu⟩ := hpushes.step trivial h hpush trivial
  cases hpush
  obtain ⟨v', hnonce', L, tr, rfl, hC, htr⟩ := (txNonceIncrease_level ha s.next).step (by simp) hu hnonce trivial
  cases hcommit
  exact ⟨_, bind_run hpush' (bind_run hnonce' rfl), .intro rfl hC.fold_zero htr⟩

theorem transaction_level {fuel : ℕ} {late : Bool} {totalFee totalFee' : Int64}
    {tx : AppliedTx} (ha : env.transaction.sourceAddress ∈ H) (h : Level w H s s')
    (hs : transaction w env r (fun i => enforced w fuel late i totalFee) s = some ((tx, totalFee'), t)) :
    ∃ t', transaction w env r (fun i => enforced w fuel late i totalFee) s' =
      some ((tx, totalFee'), t') ∧ Alike w t t' := by
  obtain ⟨i, u, v, x, henter, hbody, hleave, rfl⟩ := transaction_eq_some.mp hs
  obtain ⟨u', henter', hu⟩ := enter_level ha h henter
  obtain ⟨x', hbody', hx⟩ := (enforced_alike fuel i late totalFee).step trivial hu hbody trivial
  obtain ⟨t', hleave', ht⟩ := leave_alike.step trivial hx hleave trivial
  refine ⟨t', transaction_eq_some.mpr ⟨i, u', v, x', henter', hbody', hleave', ?_⟩, ht⟩
  obtain ⟨_, _, rfl, -, htr⟩ := h
  obtain ⟨_, _, rfl, -, -⟩ := hx
  obtain ⟨_, _, rfl, -, htr'⟩ := ht
  simp only [relayer, htr, htr']

end Level

/-! ### The reward -/

section Reward
variable {w : World} {H : Set Address} {s s' t : LedgerContext}

theorem allocateAverage_level {average : Int64} {l : List Validator} :
    ∀ {left : Int64} {H : Set Address} {r : Option Int64} {s s' t : LedgerContext}, Level w H s s' →
      allocateAverage w average l left s = some (r, t) →
      ∃ H' t', allocateAverage w average l left s' = some (r, t') ∧ Level w H' t t' ∧ H ⊆ H' ∧
        (r ≠ none → ∀ v ∈ l, v.address ∈ H') := by
  induction l with
  | nil =>
    intro left H r s s' t h hs
    cases hs
    exact ⟨H, s', rfl, h, subset_rfl, fun _ _ => by rintro ⟨⟩⟩
  | cons v l ih =>
    intro left H r s s' t h hs
    obtain ⟨found, u, hfound, hs₁⟩ := of_bind hs
    obtain ⟨_, x, hadd, hs₂⟩ := of_bind hs₁
    obtain ⟨frm, y, hderef, hs₃⟩ := of_bind hs₂
    -- the account is found, or it is made
    obtain ⟨u', x', hfound', hadd', hx⟩ : ∃ u' x', getEntry w 0 v.address s' = some (found, u') ∧
        onlyIf found.isNone (addEntry 0 v.address (AccountFrm.creatAccountFrm v.address 0)) u' = some ((), x') ∧
        Level w (insert v.address H) x x' := by
      cases found with
      | none =>
        obtain ⟨u', hu', hlevel⟩ := getEntry_level_none h hfound
        obtain ⟨x', hx', hlevel'⟩ := addEntry_level hlevel hadd
        exact ⟨u', x', hu', hx', hlevel'⟩
      | some frm =>
        obtain ⟨u', hu', hlevel⟩ := getEntry_level_found h hfound
        cases hadd
        exact ⟨u', u', hu', rfl, hlevel⟩
    have hmem : v.address ∈ insert v.address H := Set.mem_insert _ _
    obtain ⟨y', hderef', hy⟩ := (deref_level (P := anyState) hmem).step trivial hx hderef trivial
    cases hsum : SafeInt.safeIntAdd frm.balance average with
    | none =>
      rw [hsum] at hs₃
      cases hs₃
      refine ⟨_, y', ?_, hy, Set.subset_insert _ _, fun h => absurd rfl h⟩
      refine bind_run hfound' (bind_run hadd' (bind_run hderef' ?_))
      rw [hsum]
      rfl
    | some newBalance =>
      rw [hsum] at hs₃
      obtain ⟨_, z, halter, hs₄⟩ := of_bind hs₃
      obtain ⟨z', halter', hz⟩ := (alterEntry_level (P := anyState) hmem _).step trivial hy halter trivial
      obtain ⟨H', t', hrest, ht, hsub, hall⟩ := ih hz hs₄
      refine ⟨H', t', ?_, ht, (Set.subset_insert _ _).trans hsub, fun hr => ?_⟩
      · refine bind_run hfound' (bind_run hadd' (bind_run hderef' ?_))
        rw [hsum]
        exact bind_run halter' hrest
      · exact forall_mem_cons.mpr ⟨hsub hmem, hall hr⟩

theorem allocateLeft_level {l : List Validator} (hl : ∀ v ∈ l, v.address ∈ H) (seq left : Int64) :
    Respects (Level w H) (fun _ => True) anyState (allocateLeft l seq left) := by
  refine .ite (fun _ => .pure _) fun _ => .ite (fun _ => .of_none fun _ => rfl) fun _ => ?_
  split
  · exact .of_none fun _ => rfl
  · rename_i v hv
    have hmem := hl v (mem_of_getElem? hv)
    refine .bind (deref_level hmem) fun frm => ?_
    split
    · exact .pure _
    · exact .bind (alterEntry_level hmem _) fun _ => .pure _

theorem allocateRewardDirectly_level {seq reward : Int64} {r : Bool} (h : Level w H s s')
    (hs : allocateRewardDirectly w seq reward s = some (r, t)) :
    ∃ t', allocateRewardDirectly w seq reward s' = some (r, t') ∧ Level w H t t' := by
  unfold allocateRewardDirectly at hs ⊢
  rcases hv : w.previousValidators with - | - | ⟨v, l⟩ <;> simp only [hv] at hs ⊢
  · cases hs
    exact ⟨s', rfl, h⟩
  · cases hs
    exact ⟨s', rfl, h⟩
  · obtain ⟨left, u, haverage, hs₁⟩ := of_bind hs
    obtain ⟨H', u', haverage', hu, hsub, hall⟩ := allocateAverage_level h haverage
    cases left with
    | none =>
      cases hs₁
      exact ⟨u', bind_run haverage' rfl, hu.mono hsub⟩
    | some left =>
      obtain ⟨t', hleft', ht⟩ := (allocateLeft_level (hall nofun) seq left).step trivial hu hs₁ trivial
      exact ⟨t', bind_run haverage' hleft', ht.mono hsub⟩

theorem raiseBalance_level {a : Address} {reward : Int64} : Respects (Level w (insert a H)) (fun _ => True) anyState
      (match SafeInt.safeIntAdd frm.balance reward with
      | none => pure false
      | some newBalance => do
        alterEntry 0 a (AccountFrm.setBalance newBalance)
        return true) := by
  split
  · exact .pure _
  · exact .bind (alterEntry_level (Set.mem_insert _ _) _) fun _ => .pure _

theorem payReward_level {seq reward : Int64} {r : Bool} (h : Level w H s s')
    (hs : payReward w seq reward s = some (r, t)) :
    ∃ t', payReward w seq reward s' = some (r, t') ∧ Level w H t t' := by
  unfold payReward at hs ⊢
  split at hs
  · rename_i hversion
    rw [if_pos hversion]
    obtain ⟨found, u, hfound, hs₁⟩ := of_bind hs
    cases found with
    | none =>
      obtain ⟨u', hfound', hu⟩ := getEntry_level_none h hfound
      obtain ⟨t', hrest, ht⟩ := allocateRewardDirectly_level hu hs₁
      exact ⟨t', bind_run hfound' hrest, ht⟩
    | some frm =>
      obtain ⟨u', hfound', hu⟩ := getEntry_level_found h hfound
      obtain ⟨t', hs₁', ht⟩ := raiseBalance_level.step trivial hu hs₁ trivial
      exact ⟨t', bind_run hfound' hs₁', ht.mono (Set.subset_insert _ _)⟩
  · rename_i hversion
    rw [if_neg hversion]
    exact allocateRewardDirectly_level h hs

theorem allocateReward_level {totalFee : Int64} {r : Bool} (h : Level w H s s')
    (hs : allocateReward w totalFee s = some (r, t)) :
    ∃ t', allocateReward w totalFee s' = some (r, t') ∧ Level w H t t' := by
  obtain ⟨ledger, u, hask, hs₁⟩ := of_bind hs
  cases hask
  obtain ⟨L, tr, rfl, -, -⟩ := id h
  have hask' : askLedger (s.relayer L tr) = some ((s.ledgerSeq, s.closeTime, s.isTestMode), s.relayer L tr) := rfl
  dsimp only at hs₁
  split at hs₁
  · rename_i hnone
    cases hs₁
    exact ⟨_, bind_run hask' (by dsimp only; rw [if_pos hnone]; rfl), h⟩
  · rename_i hsome
    obtain ⟨paid, v, hpaid, hs₂⟩ := of_bind hs₁
    obtain ⟨v', hpaid', hv⟩ := payReward_level h hpaid
    cases paid with
    | false =>
      cases hs₂
      exact ⟨v', bind_run hask' (by
        dsimp only; rw [if_neg hsome]; exact bind_run hpaid' rfl), hv⟩
    | true =>
      obtain ⟨_, x, hcommit, hs₃⟩ := of_bind hs₂
      cases hs₃
      cases hcommit
      obtain ⟨L', tr', rfl, hC', htr'⟩ := hv
      have halike : Alike w { v with envs := v.envs.commit 0 }
          { v.relayer L' tr' with envs := (v.relayer L' tr').envs.commit 0 } := .intro rfl hC'.fold_zero htr'
      exact ⟨_, bind_run hask' (by
        dsimp only; rw [if_neg hsome]; exact bind_run hpaid' rfl), halike.level H⟩

end Reward

section Dropped
variable {w : World} {s s' t : LedgerContext}

theorem getEntry_level_left {a : Address} {r : Option AccountFrm} (h : Level w ∅ s s')
    (hs : getEntry w 0 a s = some (r, t)) : Level w ∅ t s' := by
  obtain ⟨L, tr, rfl, hC, htr⟩ := h
  cases hs
  refine .intro rfl ?_ htr
  rw [getEntry_accounts]
  exact hC.hold_left a

theorem validForApply_level_left {checkPriv : Bool} {x : Bool × Result} (h : Level w ∅ s s')
    (hs : validForApply w env checkPriv s = some (x, t)) : Level w ∅ t s' := by
  rcases validForApply_cases hs with rfl | ⟨r, hr⟩
  · exact h
  · exact getEntry_level_left h hr

end Dropped

/-! ### Positions -/

/-- The ids of transactions that expired or failed are increasing, below `n`, and no id is of both kinds. -/
structure Block.Numbered (n : ℕ) (b : Block) : Prop where
  expire : b.expireTxs.Pairwise (· < ·)
  error : b.errorTxs.Pairwise (· < ·)
  expire_lt : ∀ q ∈ b.expireTxs, q < n
  error_lt : ∀ q ∈ b.errorTxs, q < n
  disjoint : ∀ q ∈ b.errorTxs, q ∉ b.expireTxs

theorem pairwise_insertId {n : ℕ} {l : List ℕ} (h : l.Pairwise (· < ·)) (hlt : ∀ q ∈ l, q < n) :
    (insertId n l).Pairwise (· < ·) := by
  rw [insertId_of_lt hlt, pairwise_append]
  exact ⟨h, pairwise_singleton _ _, fun q hq => by simpa using hlt q hq⟩

theorem Block.Numbered.note {n : ℕ} {b : Block} (h : b.Numbered n) (tx : AppliedTx) (fee : Int64) :
    ({ b with totalFee := fee }.note n tx).Numbered (n + 1) := by
  have hexpire : ∀ q ∈ b.expireTxs, q < n + 1 := fun q hq => Nat.lt_succ_of_lt (h.expire_lt q hq)
  have herror : ∀ q ∈ b.errorTxs, q < n + 1 := fun q hq => Nat.lt_succ_of_lt (h.error_lt q hq)
  have hinsert {l : List ℕ} (hl : ∀ q ∈ l, q < n + 1) : ∀ q ∈ insertId n l, q < n + 1 := by
    intro q hq
    rcases mem_insertId.mp hq with rfl | hq
    · exact Nat.lt_succ_self _
    · exact hl q hq
  rcases hv : tx.verdict with - | - | -
  · exact ⟨by simpa [Block.note, hv] using h.expire, by simpa [Block.note, hv] using h.error,
      by simpa [Block.note, hv] using hexpire, by simpa [Block.note, hv] using herror,
      by simpa [Block.note, hv] using h.disjoint⟩
  · refine ⟨by simpa [Block.note, hv] using pairwise_insertId h.expire h.expire_lt,
      by simpa [Block.note, hv] using h.error, by simpa [Block.note, hv] using hinsert hexpire,
      by simpa [Block.note, hv] using herror, fun q hq hq' => ?_⟩
    simp only [Block.note, hv, if_true] at hq hq'
    rcases mem_insertId.mp hq' with rfl | hq'
    · exact (h.error_lt q (by simpa using hq)).ne rfl
    · exact h.disjoint q (by simpa using hq) hq'
  · refine ⟨by simpa [Block.note, hv] using h.expire,
      by simpa [Block.note, hv] using pairwise_insertId h.error h.error_lt, by simpa [Block.note, hv] using hexpire,
      by simpa [Block.note, hv] using hinsert herror, fun q hq hq' => ?_⟩
    simp only [Block.note, hv, if_true] at hq hq'
    rcases mem_insertId.mp hq with rfl | hq
    · exact (h.expire_lt q (by simpa using hq')).ne rfl
    · exact h.disjoint q hq (by simpa using hq')

theorem collectIds_of_increasing {n : ℕ} {l : List ℕ} :
    ∀ ids total : List ℕ, l.Pairwise (· < ·) → (∀ q ∈ l, q < n) → (∀ q ∈ l, q ∉ total) → (∀ p ∈ ids, ∀ q ∈ l, p < q) →
      ∃ total', collectIds n (l.map Int.ofNat) ids total = some (ids ++ l, total') ∧
        ∀ q, q ∈ total' ↔ q ∈ l ∨ q ∈ total := by
  induction l with
  | nil => exact fun ids total _ _ _ _ => ⟨total, by simp [collectIds], by simp⟩
  | cons x l ih =>
    intro ids total hpair hlt hnew hids
    obtain ⟨hx, hpair⟩ := pairwise_cons.mp hpair
    obtain ⟨hxn, hlt⟩ := forall_mem_cons.mp hlt
    obtain ⟨hxnew, hnew⟩ := forall_mem_cons.mp hnew
    obtain ⟨total', hrun, htotal⟩ := ih (insertId x ids) (insertId x total) hpair hlt (fun q hq hq' => by
        rcases mem_insertId.mp hq' with rfl | hq'
        · exact (hx q hq).ne rfl
        · exact hnew q hq hq')
      (fun p hp q hq => by
        rcases mem_insertId.mp hp with rfl | hp
        · exact hx q hq
        · exact hids p hp q (mem_cons_of_mem _ hq))
    refine ⟨total', ?_, fun q => ?_⟩
    · have hrange : ¬((Int.ofNat x : Int) ≥ n ∨ (Int.ofNat x : Int) < 0) := by simp; omega
      rw [map_cons, collectIds, if_neg hrange, if_neg (by simpa using hxnew)]
      have hlast : insertId x ids = ids ++ [x] := insertId_of_lt fun p hp => hids p hp x mem_cons_self
      simpa [hlast] using hrun
    · rw [htotal, mem_insertId, mem_cons]
      tauto

theorem checkConsValueValidation_proposed {request : ConsensusValue} {b : Block} (hnone : request.validation = none)
    (h : b.Numbered (proposedValue request b).txset.length) :
    checkConsValueValidation (proposedValue request b) = some (b.expireTxs, b.errorTxs) := by
  unfold checkConsValueValidation
  by_cases hids : b.errorTxs.length > 0 ∨ b.expireTxs.length > 0
  · have hvalidation : (proposedValue request b).validation =
        some (setValidationToProto b.expireTxs b.errorTxs) := if_pos hids
    obtain ⟨total, hexpire, htotal⟩ := collectIds_of_increasing [] [] h.expire h.expire_lt (by simp) (by simp)
    obtain ⟨_, herror, -⟩ := collectIds_of_increasing [] total h.error h.error_lt
      (fun q hq hq' => h.disjoint q hq (by simpa using (htotal q).mp hq')) (by simp)
    simp only [hvalidation, setValidationToProto]
    rw [nil_append] at hexpire herror
    simp [hexpire, herror]
  · have hvalidation : (proposedValue request b).validation = none := (if_neg hids).trans hnone
    have hempty : b.errorTxs = [] ∧ b.expireTxs = [] := by
      simpa [length_pos_iff] using hids
    simp only [hvalidation, hempty]

/-! ### Whole blocks -/

section Blocks
variable {w : World} {fuel : ℕ} {clock : Clock}

variable {l : List TransactionEnv}

theorem proposeLoop_grows : ∀ {position : ℕ} {b b' : Block} {s t : LedgerContext},
      proposeLoop w fuel clock position l b s = some (some b', t) →
        ∀ q < position, q ∈ b'.needDroppedTx ↔ q ∈ b.needDroppedTx := by
  induction l with
  | nil =>
    intro position b b' s t h q _
    obtain ⟨heq, -⟩ := of_pure h
    cases heq
    exact Iff.rfl
  | cons env l ih =>
    intro position b b' s t h q hq
    have hdrop (c : Block) : q ∈ (c.drop position).needDroppedTx ↔ q ∈ c.needDroppedTx := by
      rw [Block.drop, mem_insertId]
      exact or_iff_right hq.ne
    obtain ⟨_, _, _, -, ⟨-, hrest⟩ | ⟨-, _, _, _, -, ⟨-, hrest⟩ | ⟨-, _, _, _, -, hrest⟩⟩⟩ := proposeLoop_cons h
    · exact (ih hrest q (by omega)).trans (hdrop b)
    · exact (ih hrest q (by omega)).trans (hdrop _)
    · exact ih hrest q (by omega)

variable {position : ℕ}

theorem keptTxs_of_mem {dropped : List ℕ} (h : position ∈ dropped) :
    keptTxs dropped position (env :: l) = keptTxs dropped (position + 1) l :=
  if_pos (by simpa using h)

theorem keptTxs_of_not_mem {dropped : List ℕ} (h : position ∉ dropped) :
    keptTxs dropped position (env :: l) = env :: keptTxs dropped (position + 1) l :=
  if_neg (by simpa using h)

theorem keptTxs_nil (position : ℕ) (l : List TransactionEnv) : keptTxs [] position l = l := by
  induction l generalizing position with
  | nil => rfl
  | cons env l ih => rw [keptTxs_of_not_mem (by simp), ih]

theorem mem_of_proposeLoop_drop {b b' : Block} {s t : LedgerContext}
    (h : proposeLoop w fuel clock (position + 1) l (b.drop position) s = some (some b', t)) :
    position ∈ b'.needDroppedTx :=
  (proposeLoop_grows h position (Nat.lt_succ_self _)).mpr (mem_insertId.mpr (.inl rfl))

/-- The clock of a node whose time for a block is never up. -/
def Clock.patient (clock : Clock) : Clock := { clock with blockLate := fun _ => false }

/-- The block without the positions that were dropped. -/
def Block.kept (b : Block) : Block := { b with needDroppedTx := [] }

theorem checkLoop_of_proposeLoop {b' : Block} {t : LedgerContext} : ∀ {position : ℕ} {b : Block} {s s' : LedgerContext},
      proposeLoop w fuel clock position l b s = some (some b', t) → Level w ∅ s s' →
      position = b.needDroppedTx.length + b.applyTxFrms.length → (∀ q ∈ b.needDroppedTx, q < position) →
      b.Numbered b.applyTxFrms.length →
      ∃ t', checkLoop w fuel clock.patient b.applyTxFrms.length
          (keptTxs b'.needDroppedTx position l) b.kept s' = some (some b'.kept, t') ∧ Level w ∅ t t' ∧
        b'.Numbered b'.applyTxFrms.length ∧
        b.applyTxFrms.length + (keptTxs b'.needDroppedTx position l).length = b'.applyTxFrms.length := by
  induction l with
  | nil =>
    intro position b s s' h hlevel _ _ hnumbered
    obtain ⟨heq, rfl⟩ := of_pure h
    cases heq
    exact ⟨s', rfl, hlevel, hnumbered, rfl⟩
  | cons env l ih =>
    intro position b s s' h hlevel hcount hbelow hnumbered
    have dropped {u : LedgerContext}
        (hrest : proposeLoop w fuel clock (position + 1) l (b.drop position) u = some (some b', t))
        (hu : Level w ∅ u s') :
        ∃ t', checkLoop w fuel clock.patient b.applyTxFrms.length
            (keptTxs b'.needDroppedTx (position + 1) l) b.kept s' = some (some b'.kept, t') ∧
          Level w ∅ t t' ∧ b'.Numbered b'.applyTxFrms.length ∧
          b.applyTxFrms.length + (keptTxs b'.needDroppedTx (position + 1) l).length =
            b'.applyTxFrms.length := by
      have hlast : (b.drop position).needDroppedTx = b.needDroppedTx ++ [position] := insertId_of_lt hbelow
      refine ih (b := b.drop position) hrest hu ?_ ?_ ⟨hnumbered.expire, hnumbered.error, hnumbered.expire_lt, hnumbered.error_lt,
        hnumbered.disjoint⟩
      · rw [hlast, length_append, length_singleton, hcount]
        exact Nat.add_right_comm ..
      · rw [hlast]
        intro q hq
        rcases mem_append.mp hq with hq | hq
        · exact Nat.lt_succ_of_lt (hbelow q hq)
        · exact (mem_singleton.mp hq) ▸ Nat.lt_succ_self _
    obtain ⟨valid, r, s₁, hvalid, ⟨rfl, hrest⟩ | ⟨rfl, error, fee, s₂, hpay, hcase⟩⟩ := proposeLoop_cons h
    · -- the transaction is not valid
      rw [keptTxs_of_mem (mem_of_proposeLoop_drop hrest)]
      exact dropped hrest (validForApply_level_left hlevel hvalid)
    · obtain ⟨herror, hrest⟩ | ⟨rfl, tx, fee', s₃, htx, hrest⟩ := hcase
      · -- it cannot pay
        obtain ⟨e, rfl⟩ := ne_none_iff_exists'.mp herror
        obtain ⟨rfl, rfl⟩ := payFee_error hvalid hpay
        rw [keptTxs_of_mem (mem_of_proposeLoop_drop hrest)]
        exact dropped hrest (validForApply_level_left hlevel hvalid)
      · -- it is applied, in both runs
        have hnot : position ∉ b'.needDroppedTx := fun hp =>
          absurd rfl (hbelow position ((proposeLoop_grows hrest position (Nat.lt_succ_self _)).mp hp)).ne
        have hposition : position - b.needDroppedTx.length = b.applyTxFrms.length := by omega
        rw [hposition] at hrest
        have hmode : s'.isTestMode = s.isTestMode := by
          obtain ⟨_, _, rfl, -⟩ := hlevel
          rfl
        obtain ⟨s₁', hvalid', hlevel₁⟩ := validForApply_level_found hlevel hvalid
        have hsource : env.transaction.sourceAddress ∈ insert env.transaction.sourceAddress (∅ : Set Address) :=
          Set.mem_insert _ _
        obtain ⟨s₂', hpay', hlevel₂⟩ :=
          (payFee_level (P := anyState) hsource b.totalFee).step trivial hlevel₁ hpay trivial
        obtain ⟨s₃', htx', halike⟩ := transaction_level hsource hlevel₂ htx
        have hlength : ({ b with totalFee := fee' }.note b.applyTxFrms.length tx).applyTxFrms.length =
            b.applyTxFrms.length + 1 := by simp [Block.note]
        obtain ⟨t', hrest', ht, hnumbered', hcount'⟩ := ih hrest (halike.level ∅)
          (by rw [hlength, hcount]; exact Nat.add_assoc ..)
          (fun q hq => Nat.lt_succ_of_lt (hbelow q hq)) (hlength ▸ hnumbered.note tx fee')
        rw [hlength] at hrest' hcount'
        rw [keptTxs_of_not_mem hnot]
        refine ⟨t', checkLoop_cons.mpr ⟨r, s₁', fee, s₂', tx, fee', s₃', hmode ▸ hvalid', hpay', htx', rfl,
          hrest'⟩, ht, hnumbered', ?_⟩
        rw [length_cons, ← hcount']
        omega

/-- What a leader proposes is accepted by a validator, with the same transactions applied to the same effect. -/
theorem applyCheck_of_applyPropose {request : ConsensusValue} {isTestMode : Bool} {b : Block} {s : LedgerContext}
    (h : applyPropose w fuel clock request (.start request isTestMode) = some (some b, s)) :
    ∃ c s', applyCheck w fuel clock.patient (proposedValue request b)
          (.start (proposedValue request b) isTestMode) = some (some c, s') ∧
      c.applyTxFrms = b.applyTxFrms ∧ c.expireTxs = b.expireTxs ∧ c.errorTxs = b.errorTxs ∧
      c.totalFee = b.totalFee ∧
      ∀ a, view w.db.accountFromDB s'.envs.accounts 0 a = view w.db.accountFromDB s.envs.accounts 0 a := by
  unfold applyPropose at h
  split at h
  · exact absurd (of_pure h).1 nofun
  · rename_i hvalidation
    obtain ⟨found, u, hloop, h₁⟩ := of_bind h
    cases found with
    | none => exact absurd (of_pure h₁).1 nofun
    | some b₁ =>
      obtain ⟨paid, v, hreward, h₂⟩ := of_bind h₁
      obtain ⟨heq, rfl⟩ := of_pure h₂
      obtain rfl := some.inj heq
      have hstart : Level w ∅ (.start request isTestMode) (.start (proposedValue request b₁) isTestMode) :=
        ⟨_, {}, rfl, ⟨fun _ => rfl, fun _ => rfl, fun _ => rfl, fun _ _ => rfl⟩, rfl⟩
      obtain ⟨u', hloop', hu, hnumbered, hlength⟩ :=
        checkLoop_of_proposeLoop hloop hstart rfl (by simp) ⟨by simp, by simp, by simp, by simp, by simp⟩
      obtain ⟨v', hreward', hv⟩ := allocateReward_level hu hreward
      have htxset : (proposedValue request b₁).txset = keptTxs b₁.needDroppedTx 0 request.txset := by
        unfold proposedValue
        dsimp only
        split
        · rfl
        · rename_i hnone
          rw [length_eq_zero_iff.mp (not_not.mp hnone), keptTxs_nil]
      have hcount : (keptTxs b₁.needDroppedTx 0 request.txset).length = b₁.applyTxFrms.length := by
        simpa using hlength
      have hids := checkConsValueValidation_proposed (b := b₁) (by simpa using hvalidation)
        (by rw [htxset, hcount]; exact hnumbered)
      refine ⟨b₁.kept, v', ?_, rfl, rfl, rfl, rfl, ?_⟩
      · unfold applyCheck
        simp only [hids, htxset]
        refine bind_run hloop' (bind_run hreward' ?_)
        rw [if_pos ⟨rfl, rfl⟩]
        rfl
      · obtain ⟨L, tr, rfl, hC, -⟩ := hv
        exact hC.low

end Blocks

/-- A ledger with one account that has coins. -/
def mixedWorld : World :=
  smallWorld (smallDb [{ address := "a", balance := 1000, priv := some ownPriv }, { address := "k" }]) idleEngine

/-- A payment that is good, one with a bad nonce, and one of more than there is. -/
def mixedValue : ConsensusValue where
  txset := [payment 1 5, payment 7 5, payment 2 5000]
  closeTime := 0
  ledgerSeq := 2
where
  payment (nonce amount : Int64) : TransactionEnv :=
    { transaction :=
        { sourceAddress := "a", nonce := nonce, feeLimit := 100, gasPrice := 1
          operations := [{ type := .payCoin, payCoin := { destAddress := "k", amount := amount } }] } }

theorem applyCheck_of_applyPropose_mixed :
    ∃ b s, applyPropose mixedWorld 10 earlyClock mixedValue (.start mixedValue) = some (some b, s) ∧
      b.needDroppedTx = [1] ∧ b.errorTxs = [1] ∧
      ∃ c s', applyCheck mixedWorld 10 earlyClock.patient (proposedValue mixedValue b)
            (.start (proposedValue mixedValue b)) = some (some c, s') ∧
        c.applyTxFrms = b.applyTxFrms ∧ c.expireTxs = b.expireTxs ∧ c.errorTxs = b.errorTxs ∧
        c.totalFee = b.totalFee ∧
        ∀ a, view mixedWorld.db.accountFromDB s'.envs.accounts 0 a =
          view mixedWorld.db.accountFromDB s.envs.accounts 0 a := by
  have hrun : (applyPropose mixedWorld 10 earlyClock mixedValue (.start mixedValue)).any (fun r =>
      r.1.any fun b => b.needDroppedTx == [1] && b.errorTxs == [1]) = true := by
    decide +kernel
  obtain ⟨⟨found, s⟩, h, hfound⟩ := (any_eq_true _ _).mp hrun
  obtain ⟨b, rfl, hids⟩ := (any_eq_true _ _).mp hfound
  simp only [Bool.and_eq_true, beq_iff_eq] at hids
  exact ⟨b, s, h, hids.1, hids.2, applyCheck_of_applyPropose h⟩

end OpenSesame
