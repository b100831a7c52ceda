import OpenSesame.Theorems.Ledger.BlockCourse

/-! # The reward, and whole blocks

The reward is paid to the contract of the validators or to the validators themselves, in equal parts
and what is left. -/

namespace OpenSesame
open Protocol StateOption OperationFrm SafeInt AccountFrm Store List
open Int64 (ofNat)

def AccountDb.store (db : AccountDb) : Store := fun a => (db.accountFromDB a).map (holding db)

namespace LedgerFrm
variable {w : World} {fuel : ℕ} {s t u : LedgerContext}

def rewards (credits : List (Address × Int64)) : List Cause := credits.map fun c => .reward c.1 c.2

def Paid (w : World) (test : Bool) (credits : List (Address × Int64)) (V V' : Store) : Prop :=
  ∀ fee, Path (Step w test) (rewards credits) ⟨V, fee⟩ ⟨V', fee⟩

def Overflows (w : World) (V : Store) (a : Address) (amount : Int64) : Prop :=
  ∃ h, Receiver w V a h ∧ safeIntAdd h.balance amount = none

section Reward
variable {test : Bool} {V V' V'' : Store} {a : Address} {amount : Int64}

theorem Paid.refl : Paid w test [] V V := fun _ => .nil _

theorem Paid.trans {c c' : List (Address × Int64)} (h : Paid w test c V V') (h' : Paid w test c' V' V'') :
    Paid w test (c ++ c') V V'' := by
  intro fee
  rw [rewards, map_append]
  exact (h fee).append (h' fee)

theorem Paid.single {h : Holding} {balance : Int64} (hthere : Receiver w V a h)
    (hbalance : safeIntAdd h.balance amount = some balance) :
    Paid w test [(a, amount)] V (V.put a (h.setBalance balance)) :=
  fun _ => .single (.reward hthere hbalance)

theorem allocateAverage_one {frm : AccountFrm} {s₁ : LedgerContext} {found : Option AccountFrm}
    (hfound : getEntry w 0 a s = some (found, s₁))
    (hopen : onlyIf found.isNone (addEntry 0 a (creatAccountFrm a 0)) s₁ = some ((), u))
    (hderef : deref 0 a u = some (frm, t)) :
    t = u ∧ Held u a ∧ seen w u a = some (frm.holding w.db) ∧ Receiver w (seen w s) a (frm.holding w.db) ∧
      ∀ h, (seen w u).put a h = (seen w s).put a h := by
  obtain ⟨rfl, hheld, hseen⟩ := deref_seen (w := w) hderef
  obtain ⟨hw, hr, -⟩ := getEntry_writes hfound
  refine ⟨rfl, hheld, hseen, ?_⟩
  cases found with
  | some x =>
    cases hopen
    rw [hw.seen] at hseen ⊢
    exact ⟨.inl hseen, fun _ => rfl⟩
  | none =>
    obtain ⟨hw', -⟩ := addEntry_writes (w := w) hopen
    rw [hw'.seen, put_self] at hseen
    refine ⟨.inr ⟨hr.symm, (Option.some.inj hseen).symm⟩, fun h => ?_⟩
    rw [hw'.seen, hw.seen, put, put, put, Function.update_idem]

theorem allocateAverage_pays (test : Bool) {average : Int64} {l : List Validator} :
    ∀ {left : Int64} {r : Option Int64} {s t : LedgerContext}, allocateAverage w average l left s = some (r, t) →
      r = some (l.foldl (fun x _ => x - average) left) ∧
          Paid w test (l.map fun v => (v.address, average)) (seen w s) (seen w t) ∨
        r = none ∧ ∃ paid v V, (paid ++ [v]) <+: l ∧
          Paid w test (paid.map fun v => (v.address, average)) (seen w s) V ∧ Overflows w V v.address average := by
  induction l with
  | nil =>
    intro left r s t h
    cases h
    exact .inl ⟨rfl, .refl⟩
  | cons v l ih =>
    intro left r s t h
    obtain ⟨found, s₁, hfound, h⟩ := of_bind h
    obtain ⟨_, s₂, hopen, h⟩ := of_bind h
    obtain ⟨frm, s₃, hderef, hpay⟩ := of_bind h
    obtain ⟨rfl, hheld, hseen, hthere, hput⟩ := allocateAverage_one hfound hopen hderef
    rcases hbalance : safeIntAdd frm.balance average with - | balance
    · simp only [hbalance] at hpay
      cases hpay
      exact .inr ⟨rfl, [], v, _, by simp, .refl, _, hthere, hbalance⟩
    · simp only [hbalance] at hpay
      obtain ⟨_, s₄, halter, hpay⟩ := of_bind hpay
      obtain ⟨hw, -⟩ := alterEntry_writes (fun _ => holding_setBalance balance) hheld hseen halter
      rw [hput] at hw
      have hpaid : Paid w test [(v.address, average)] (seen w s) (seen w s₄) := by
        rw [hw.seen]
        exact .single hthere hbalance
      obtain ⟨rfl, hrest⟩ | ⟨rfl, paid, v', V, hprefix, hrest, hover⟩ := ih hpay
      · exact .inl ⟨rfl, hpaid.trans hrest⟩
      · exact .inr ⟨rfl, v :: paid, v', V, by simpa using hprefix, hpaid.trans hrest, hover⟩

theorem allocateLeft_pays (test : Bool) {validators : List Validator} {seq left : Int64} {ok : Bool}
    (h : allocateLeft validators seq left s = some (ok, t)) :
    ok = true ∧ left ≤ 0 ∧ t = s ∨ ¬left ≤ 0 ∧ ∃ v ∈ validators,
        ok = true ∧ Paid w test [(v.address, left)] (seen w s) (seen w t) ∨
          ok = false ∧ Overflows w (seen w s) v.address left := by
  unfold allocateLeft at h
  split at h
  · rename_i hleft
    cases h
    exact .inl ⟨rfl, hleft, rfl⟩
  rename_i hleft
  dsimp only at h
  split at h
  · cases h
  rcases hv : validators[(seq % ofNat validators.length).toInt.toNat]? with - | v
  · simp only [hv] at h
    cases h
  simp only [hv] at h
  refine .inr ⟨hleft, v, mem_of_getElem? hv, ?_⟩
  obtain ⟨frm, u, hderef, hpay⟩ := of_bind h
  obtain ⟨rfl, hheld, hseen⟩ := deref_seen (w := w) hderef
  rcases hbalance : safeIntAdd frm.balance left with - | balance
  · simp only [hbalance] at hpay
    cases hpay
    exact .inr ⟨rfl, _, .inl hseen, hbalance⟩
  · simp only [hbalance] at hpay
    obtain ⟨_, s₁, halter, hpay⟩ := of_bind hpay
    cases hpay
    obtain ⟨hw, -⟩ := alterEntry_writes (fun _ => holding_setBalance balance) hheld hseen halter
    refine .inl ⟨rfl, ?_⟩
    rw [hw.seen]
    exact .single (.inl hseen) hbalance

/-- The amounts are not negative, and come to no more than the reward. -/
structure Within (total : Int64) (credits : List (Address × Int64)) : Prop where
  nonneg : ∀ c ∈ credits, 0 ≤ c.2.toInt
  sum_le : (credits.map fun c => c.2.toInt).sum ≤ total.toInt

structure Splits (w : World) (total : Int64) : Prop where
  nonneg : 0 ≤ total.toInt
  validators : ∀ l, w.previousValidators = some l → l.length < 2 ^ 31

inductive Pays (w : World) (test : Bool) (total : Int64) (V : Store) (V' : Store) : Bool → Prop
  | done {credits : List (Address × Int64)} (paid : Paid w test credits V V')
      (shares : Splits w total → Within total credits ∧ (credits.map fun c => c.2.toInt).sum = total.toInt) :
      Pays w test total V V' true
  | stuck {credits : List (Address × Int64)} {a : Address} {amount : Int64} {V₁ : Store}
      (paid : Paid w test credits V V₁) (overflows : Overflows w V₁ a amount)
      (shares : Splits w total → Within total (credits ++ [(a, amount)])) : Pays w test total V V' false
  | nobody (none : w.previousValidators = none ∨ w.previousValidators = some []) : Pays w test total V V' false

theorem within_average {total : Int64} {l k : List Validator} (hsplit : 0 ≤ total.toInt) (hn : l.length < 2 ^ 63)
    (hl : l ≠ []) (hk : k.length ≤ l.length) :
    Within total (k.map fun v => (v.address, total / ofNat l.length)) ∧
      ((k.map fun v => (v.address, total / ofNat l.length)).map fun c => c.2.toInt).sum =
        k.length * (total / ofNat l.length).toInt := by
  have haverage := toInt_div_ofNat hsplit hn
  have hnonneg : 0 ≤ (total / ofNat l.length).toInt := haverage ▸ Int.ediv_nonneg hsplit (Int.natCast_nonneg _)
  have hsum : ((k.map fun v => (v.address, total / ofNat l.length)).map fun c => c.2.toInt).sum =
      k.length * (total / ofNat l.length).toInt := by
    simp only [map_map, Function.comp_def, map_const', sum_replicate, nsmul_eq_mul]
  refine ⟨⟨by simpa using fun _ _ => hnonneg, ?_⟩, hsum⟩
  rw [hsum]
  calc (k.length : ℤ) * (total / ofNat l.length).toInt ≤ l.length * (total / ofNat l.length).toInt :=
        Int.mul_le_mul_of_nonneg_right (by exact_mod_cast hk) hnonneg
    _ ≤ total.toInt := by
        rw [haverage]
        exact Int.mul_ediv_self_le (by simpa using hl)

theorem allocateRewardDirectly_pays (test : Bool) {seq total : Int64} {ok : Bool}
    (h : allocateRewardDirectly w seq total s = some (ok, t)) : Pays w test total (seen w s) (seen w t) ok := by
  unfold allocateRewardDirectly at h
  rcases hvalidators : w.previousValidators with - | l
  · simp only [hvalidators] at h
    cases h
    exact .nobody (.inl hvalidators)
  rcases l with - | ⟨v₀, l₀⟩
  · simp only [hvalidators] at h
    cases h
    exact .nobody (.inr hvalidators)
  simp only [hvalidators] at h
  generalize hl : v₀ :: l₀ = l at h hvalidators
  have hne : l ≠ [] := by simp [← hl]
  obtain ⟨r, s₁, haverage, h⟩ := of_bind h
  have hwithin {k : List Validator} (hk : k.length ≤ l.length) (hsplit : Splits w total) :=
    within_average hsplit.nonneg (Nat.lt_trans (hsplit.validators l hvalidators) (by decide)) hne hk
  obtain ⟨rfl, hpaid⟩ | ⟨rfl, paid, v, V, hpre, hpaid, hover⟩ := allocateAverage_pays test haverage
  · have hleft (hsplit : Splits w total) : (l.foldl (fun x _ => x - total / ofNat l.length) total).toInt =
          total.toInt - l.length * (total / ofNat l.length).toInt := by
      obtain ⟨hin, hsum⟩ := hwithin (le_refl l.length) hsplit
      have hle := hsum ▸ hin.sum_le
      have hnonneg : 0 ≤ (total / ofNat l.length).toInt := by
        simpa using hin.nonneg (v₀.address, total / ofNat l.length) (mem_map.mpr ⟨v₀, by simp [← hl], rfl⟩)
      exact toInt_foldl_sub hnonneg l hle
    generalize l.foldl (fun x _ => x - total / ofNat l.length) total = left at h hleft
    -- with what is left the parts come to the whole
    have hall {v : Validator} (hmore : ¬left ≤ 0) (hsplit : Splits w total) :
        Within total (l.map (fun v => (v.address, total / ofNat l.length)) ++ [(v.address, left)]) ∧
          ((l.map (fun v => (v.address, total / ofNat l.length)) ++ [(v.address, left)]).map
            fun c => c.2.toInt).sum = total.toInt := by
      obtain ⟨hin, hsum⟩ := hwithin (le_refl l.length) hsplit
      have hpos : 0 < left.toInt := by simpa [Int64.le_iff_toInt_le] using hmore
      have hwhole : ((l.map (fun v => (v.address, total / ofNat l.length)) ++ [(v.address, left)]).map
          fun c => c.2.toInt).sum = total.toInt := by
        rw [map_append, sum_append, hsum, map_singleton, List.sum_singleton, hleft hsplit]
        ring
      refine ⟨⟨?_, hwhole.le⟩, hwhole⟩
      intro c hc
      rcases mem_append.mp hc with hc | hc
      · exact hin.nonneg c hc
      · rw [mem_singleton.mp hc]
        exact hpos.le
    obtain ⟨rfl, hnone, rfl⟩ | ⟨hmore, v, -, ⟨rfl, hpaid'⟩ | ⟨rfl, hover⟩⟩ := allocateLeft_pays test h
    · refine .done hpaid fun hsplit => ?_
      obtain ⟨hin, hsum⟩ := hwithin (le_refl l.length) hsplit
      have hle : left.toInt ≤ 0 := by simpa [Int64.le_iff_toInt_le] using hnone
      have hsum_le := hsum ▸ hin.sum_le
      rw [hleft hsplit] at hle
      exact ⟨hin, by omega⟩
    · exact .done (hpaid.trans hpaid') (hall hmore)
    · exact .stuck hpaid hover fun hsplit => (hall hmore hsplit).1
  · cases h
    refine .stuck hpaid hover fun hsplit => ?_
    have hshares := (hwithin hpre.length_le hsplit).1
    rwa [map_append] at hshares

theorem payReward_pays (test : Bool) {seq total : Int64} {ok : Bool} (h : payReward w seq total s = some (ok, t)) :
    Pays w test total (seen w s) (seen w t) ok := by
  unfold payReward at h
  split at h
  · obtain ⟨found, s₁, hfound, h⟩ := of_bind h
    obtain ⟨hw, hthere, hheld⟩ := getEntry_writes hfound
    cases found with
    | none =>
      have hpays := allocateRewardDirectly_pays test h
      rwa [hw.seen] at hpays
    | some frm =>
      have hone : Splits w total → Within total [(w.getContractValidatorAddress, total)] := by
        intro hsplit
        exact ⟨by simpa using hsplit.nonneg, by simp⟩
      rcases hbalance : safeIntAdd frm.balance total with - | balance
      · simp only [hbalance] at h
        cases h
        exact .stuck .refl ⟨_, .inl hthere.symm, hbalance⟩ hone
      · simp only [hbalance] at h
        obtain ⟨_, s₂, halter, h⟩ := of_bind h
        cases h
        obtain ⟨hw', -⟩ := alterEntry_writes (fun _ => holding_setBalance balance) (hheld rfl)
          (by rw [hw.seen, ← hthere]; rfl) halter
        rw [hw'.seen, hw.seen]
        exact .done (.single (.inl hthere.symm) hbalance) fun hsplit => ⟨hone hsplit, by simp⟩
  · exact allocateRewardDirectly_pays test h

theorem allocateReward_pays {totalFee : Int64} {ok : Bool} (hs : Resting w s)
    (h : allocateReward w totalFee s = some (ok, t)) :
    (totalFee + General.getBlockReward s.ledgerSeq == 0 || s.isTestMode) = true ∧ stored w t = stored w s ∨
      ∃ paid V, Pays w s.isTestMode (totalFee + General.getBlockReward s.ledgerSeq) (stored w s) V paid ∧
        stored w t = if paid then V else stored w s := by
  obtain ⟨hnone, rfl⟩ | ⟨-, paid, v, hpaid, hend⟩ := allocateReward_eq_some h
  · exact .inl ⟨hnone, rfl⟩
  · have hpays := payReward_pays s.isTestMode hpaid
    rw [hs.settled] at hpays
    refine .inr ⟨paid, _, hpays, ?_⟩
    obtain ⟨rfl, rfl⟩ | ⟨rfl, rfl⟩ := hend
    · exact stored_congr (((baseDiscipline w s).payReward ..).invariant trivial (.refl s) hpaid trivial).accounts
    · exact stored_commit w v

end Reward

/-! ### Whole blocks -/

theorem resting_start (w : World) (request : ConsensusValue) (test : Bool) : Resting w (.start request test) where
  stack := rfl
  settled := rfl
  bare := by
    intro a h ha hcode
    obtain ⟨frm, hfrm, rfl⟩ := Option.map_eq_some_iff.mp ha
    obtain ⟨acc, hacc, rfl⟩ := Option.map_eq_some_iff.mp hfrm
    exact hcode acc hacc

/-- What a block without scripts does to the accounts: its transactions are carried out one after the other, and the
reward is paid if there is one and it can be paid. -/
structure Course (w : World) (seq : Int64) (b : Block) (V V' : Store) : Prop where
  course : Path (TxCourse w false) b.applyTxFrms ⟨w.db.store, 0⟩ ⟨V, b.totalFee⟩
  reward : b.totalFee + General.getBlockReward seq = 0 ∧ V' = V ∨
    ∃ paid V₁, Pays w false (b.totalFee + General.getBlockReward seq) V V₁ paid ∧ V' = if paid then V₁ else V

theorem Course.path {seq : Int64} {b : Block} {V V' : Store} (h : Course w seq b V V') :
    TxPath w false b.applyTxFrms ⟨w.db.store, 0⟩ ⟨V, b.totalFee⟩ :=
  h.course.mono (I := fun _ => True) (fun _ _ _ _ hstep => ⟨trivial, hstep.1⟩) trivial

theorem Runs.toCourse {txs : List AppliedTx} {b : Block} {request : ConsensusValue} {paid : Bool}
    (hruns : Runs w txs {} b (.start request) u) (hreward : allocateReward w b.totalFee u = some (paid, t)) :
    ∃ V, Course w request.ledgerSeq b V (stored w t) := by
  have hseq : u.ledgerSeq = request.ledgerSeq := hruns.ledgerSeq
  have htest : u.isTestMode = false := hruns.isTestMode
  have hpays := allocateReward_pays hruns.resting hreward
  rw [hseq, htest, Bool.or_false, beq_iff_eq] at hpays
  refine ⟨stored w u, ?_, hpays⟩
  have htxs : b.applyTxFrms = txs := hruns.noted
  rw [htxs]
  exact hruns.course

variable {clock : Clock} {request : ConsensusValue} {b : Block}

theorem applyCheck_course (hfree : ∀ env ∈ request.txset, env.CodeFree w)
    (h : applyCheck w fuel clock request (.start request) = some (some b, t)) :
    (∃ V, Course w request.ledgerSeq b V (stored w t)) ∧
      b.applyTxFrms.map (fun tx => tx.frm.transactionEnv) = request.txset ∧ ∀ tx ∈ b.applyTxFrms, tx.Plain := by
  obtain ⟨paid, u, -, hloop, hreward⟩ := applyCheck_eq_some h
  obtain ⟨txs, henvs, hruns⟩ := checkLoop_runs hfree (resting_start w request false) hloop
  obtain rfl : b.applyTxFrms = txs := hruns.noted
  exact ⟨hruns.toCourse hreward, henvs, hruns.plain⟩

theorem applyPropose_course (hfree : ∀ env ∈ request.txset, env.CodeFree w)
    (h : applyPropose w fuel clock request (.start request) = some (some b, t)) :
    (∃ V, Course w request.ledgerSeq b V (stored w t)) ∧
      (b.applyTxFrms.map fun tx => tx.frm.transactionEnv).Sublist request.txset := by
  unfold applyPropose at h
  split at h
  · cases (of_pure h).1
  obtain ⟨proposed, u, hloop, h⟩ := of_bind h
  cases proposed with
  | none => cases (of_pure h).1
  | some b' =>
    obtain ⟨paid, v, hreward, h⟩ := of_bind h
    obtain ⟨heq, rfl⟩ := of_pure h
    obtain rfl := Option.some.inj heq
    obtain ⟨txs, henvs, hruns⟩ := proposeLoop_runs hfree (resting_start w request false) hloop
    obtain rfl : b'.applyTxFrms = txs := hruns.noted
    exact ⟨hruns.toCourse hreward, henvs⟩

end LedgerFrm

/-! ### Reading the accounts back -/

section Kept
variable {w : World} {test : Bool} {a : Address}

theorem Store.put_ne_none {V : Store} {b : Address} {h : Holding} (ha : V a ≠ none) : V.put b h a ≠ none := by
  by_cases hab : a = b
  · subst hab
    simp
  · rwa [put_of_ne _ hab]

theorem Effect.keeps {tran : Transaction} {index : ℕ} {op : Operation} {V V' : Store}
    (heffect : Effect w tran index op V V') (ha : V a ≠ none) : V' a ≠ none := by
  cases heffect with
  | idle => exact ha
  | create => exact put_ne_none (put_ne_none ha)
  | payCoin _ _ _ _ dest =>
    obtain ⟨-, rfl⟩ | ⟨-, -, rfl⟩ := dest
    · exact put_ne_none (put_ne_none ha)
    · exact put_ne_none (put_ne_none (put_ne_none ha))
  | payNothing => exact ha
  | payAsset => exact put_ne_none (put_ne_none ha)
  | issue => exact put_ne_none ha
  | metadata => exact put_ne_none ha
  | privilege => exact put_ne_none ha

theorem Step.keeps {cause : Cause} {B B' : Books} (hstep : Step w test cause B B') (ha : B.store a ≠ none) :
    B'.store a ≠ none := by
  cases hstep with
  | charge => exact put_ne_none ha
  | operation _ _ effect => exact effect.keeps ha
  | kept => exact ha
  | refund => exact put_ne_none ha
  | lost => exact ha
  | reward => exact put_ne_none ha

theorem path_keeps {causes : List Cause} {B B' : Books} (h : Path (Step w test) causes B B')
    (ha : B.store a ≠ none) : B'.store a ≠ none :=
  h.invariant (I := fun B => B.store a ≠ none) (fun _ _ _ hB hstep => hstep.keeps hB) ha

theorem LedgerFrm.Course.keeps {seq : Int64} {b : Block} {V V' : Store} (h : LedgerFrm.Course w seq b V V')
    (ha : w.db.account a ≠ none) : V' a ≠ none := by
  have hstart : w.db.store a ≠ none := by simpa [AccountDb.store, AccountDb.accountFromDB] using ha
  have hV : V a ≠ none := path_keeps h.path.flatten hstart
  obtain ⟨-, rfl⟩ | ⟨paid, V₁, hpays, rfl⟩ := h.reward
  · exact hV
  · cases hpays with
    | done hpaid => exact path_keeps (hpaid 0) hV
    | stuck => exact hV
    | nobody => exact hV

inductive Committed (w : World) (t : LedgerContext) (a : Address) : Prop
  | absent (stored : stored w t a = none) (account : (w.db.commit t.envs).account a = none)
      (before : w.db.account a = none)
      (asset : ∀ key, (w.db.commit t.envs).asset a key = w.db.asset a key)
  | written (frm : AccountFrm) (stored : stored w t a = some (frm.holding w.db))
      (account : (w.db.commit t.envs).account a = some frm.info)
      (asset : ∀ key, (w.db.commit t.envs).asset a key = frm.assetsAfter w.db key)
  | same (acc : Account) (stored : stored w t a = some ((ofAccount acc).holding w.db))
      (account : (w.db.commit t.envs).account a = some acc) (before : w.db.account a = some acc)
      (asset : ∀ key, (w.db.commit t.envs).asset a key = w.db.asset a key)

theorem committed {t : LedgerContext} (hkept : w.db.account a ≠ none → stored w t a ≠ none) : Committed w t a := by
  rcases hlayer : t.envs.accounts 0 a with - | - | frm
  · have hstored : stored w t a = w.db.store a := by simp [stored, Overlay.view, hlayer, AccountDb.store]
    rcases hdb : w.db.account a with - | acc
    · exact .absent (by simp [hstored, AccountDb.store, AccountDb.accountFromDB, hdb])
        (by simp [AccountDb.commit, hlayer, hdb]) hdb (by simp [AccountDb.commit, hlayer])
    · exact .same acc (by simp [hstored, AccountDb.store, AccountDb.accountFromDB, hdb])
        (by simp [AccountDb.commit, hlayer, hdb]) hdb (by simp [AccountDb.commit, hlayer])
  · have hstored : stored w t a = none := by simp [stored, Overlay.view, hlayer]
    have hdb : w.db.account a = none := by
      by_contra hsome
      exact hkept hsome hstored
    exact .absent hstored (by simp [AccountDb.commit, hlayer, hdb]) hdb (by simp [AccountDb.commit, hlayer])
  · exact .written frm (by simp [stored, Overlay.view, hlayer]) (by simp [AccountDb.commit, hlayer])
      (by simp [AccountDb.commit, hlayer])

end Kept

end OpenSesame
