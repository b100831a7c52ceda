import OpenSesame.Theorems.Ledger.Assets
import OpenSesame.Theorems.Ledger.Privileges

/-! # Who may change an account

Every step of a block that takes something from an account, or changes its nonce, its metadata or its privileges, is
made by a transaction or an operation of that account, and the signatures of the transaction were enough for it. -/

namespace OpenSesame
open Protocol OperationFrm LedgerFrm SafeInt Store List Option Int64

/-- The weight of the signatures of a transaction for an account: the master weight if the account itself has signed,
and the weight of every listed signer that has. -/
def signedWeight (w : World) (env : TransactionEnv) (h : Holding) : ℤ :=
  (if w.validSignature env h.address then h.privilege.masterWeight.toInt else 0) +
    ((h.privilege.signers.filter fun s => w.validSignature env s.address).map fun s => s.weight.toInt).sum

/-- The threshold of an account for a type of operations: its own one if it is positive. -/
def typeThreshold (h : Holding) (type : OperationType) : ℤ :=
  if 0 < (h.signer.getTypeThreshold type).toInt then (h.signer.getTypeThreshold type).toInt
  else h.privilege.threshold.txThreshold.toInt

/-! ### `SignerHashPriv` -/

section Signers
variable {valid : Address → Bool}

theorem sum_signed_nonneg (valid : Address → Bool) {l : List Signer} (hl : ∀ s ∈ l, 0 ≤ s.weight.toInt) :
    0 ≤ ((l.filter fun s => valid s.address).map fun s => s.weight.toInt).sum := by
  refine List.sum_nonneg fun x hx => ?_
  obtain ⟨y, hy, rfl⟩ := mem_map.mp hx
  exact hl y (mem_filter.mp hy).1

theorem signersReach_le {l : List Signer} (hl : ∀ s ∈ l, 0 ≤ s.weight.toInt) :
    ∀ {threshold : Int64}, TransactionFrm.signersReach valid threshold l = true →
      threshold.toInt ≤ ((l.filter fun s => valid s.address).map fun s => s.weight.toInt).sum := by
  induction l with
  | nil => exact nofun
  | cons s l ih =>
    intro threshold h
    obtain ⟨hs, hl⟩ := forall_mem_cons.mp hl
    have hrest := sum_signed_nonneg valid hl
    unfold TransactionFrm.signersReach at h
    dsimp only at h
    by_cases hvalid : valid s.address = true
    · rw [if_pos hvalid, Bool.or_eq_true, decide_eq_true_eq, le_iff_toInt_le] at h
      rw [filter_cons, if_pos hvalid, map_cons, sum_cons]
      by_cases hpositive : threshold.toInt ≤ 0
      · omega
      · -- a positive threshold is not lowered past the end of the type
        have hlt := threshold.toInt_lt
        have hweight := s.weight.toInt_lt
        have hsub : (threshold - s.weight).toInt = threshold.toInt - s.weight.toInt :=
          toInt_sub_of_range (by omega) (by omega)
        rcases h with h | h
        · rw [hsub, toInt_zero] at h
          omega
        · have hle := ih hl h
          omega
    · rw [if_neg hvalid, Bool.or_eq_true, decide_eq_true_eq, le_iff_toInt_le] at h
      rw [filter_cons, if_neg hvalid]
      rcases h with h | h
      · exact h.trans hrest
      · exact ih hl h

variable {w : World} {env : TransactionEnv} {h : Holding} {type : OperationType}

theorem typeThreshold_le (hsane : Sane h.privilege) (hsigned : Signed w env type h) :
    typeThreshold h type ≤ signedWeight w env h := by
  have hsum := sum_signed_nonneg (w.validSignature env) hsane.weights
  have hmaster := hsane.master
  have hthreshold : (if h.signer.getTypeThreshold type > 0 then h.signer.getTypeThreshold type
      else h.privilege.threshold.txThreshold).toInt = typeThreshold h type := by
    unfold typeThreshold
    by_cases hpositive : h.signer.getTypeThreshold type > 0
    · rw [if_pos hpositive, if_pos (by simpa [lt_iff_toInt_lt] using hpositive)]
    · rw [if_neg hpositive, if_neg (by simpa [lt_iff_toInt_lt] using hpositive)]
  have hreach : (let threshold := if h.signer.getTypeThreshold type > 0 then h.signer.getTypeThreshold type
        else h.privilege.threshold.txThreshold
      let threshold := if w.validSignature env h.address then threshold - h.privilege.masterWeight else threshold
      threshold ≤ 0 || TransactionFrm.signersReach (w.validSignature env) threshold h.privilege.signers) = true :=
    hsigned
  generalize (if h.signer.getTypeThreshold type > 0 then h.signer.getTypeThreshold type
    else h.privilege.threshold.txThreshold) = threshold at hreach hthreshold
  rw [← hthreshold, signedWeight]
  dsimp only at hreach
  simp only [Bool.or_eq_true, decide_eq_true_eq, le_iff_toInt_le] at hreach
  by_cases hpositive : threshold.toInt ≤ 0
  · split <;> omega
  have hlt := threshold.toInt_lt
  have hweight := h.privilege.masterWeight.toInt_lt
  have hsub : (threshold - h.privilege.masterWeight).toInt = threshold.toInt - h.privilege.masterWeight.toInt :=
    toInt_sub_of_range (by omega) (by omega)
  by_cases hself : w.validSignature env h.address = true
  · rw [if_pos hself] at hreach ⊢
    rcases hreach with hreach | hreach
    · rw [hsub, toInt_zero] at hreach
      omega
    · have hle := signersReach_le hsane.weights hreach
      omega
  · rw [if_neg hself] at hreach ⊢
    rcases hreach with hreach | hreach
    · exact absurd hreach hpositive
    · have hle := signersReach_le hsane.weights hreach
      omega

theorem typeThreshold_transaction (hsane : Sane h.privilege) :
    typeThreshold h (.other (-1)) = h.privilege.threshold.txThreshold.toInt := by
  have hnone : h.signer.getTypeThreshold (.other (-1)) = 0 := by
    unfold AccountFrm.getTypeThreshold
    split
    · rename_i x hx
      have htype : x.type = .other (-1) := by simpa using List.find?_some hx
      have hpositive := hsane.supported x (mem_of_find?_eq_some hx)
      rw [htype] at hpositive
      exact absurd hpositive (by decide)
    · rfl
  rw [typeThreshold, hnone]
  exact if_neg (by decide)

end Signers

/-! ### Steps -/

/-- Something is taken from an account, or what only its owner may change is changed. -/
def Harmed (h h' : Holding) : Prop :=
  h'.balance.toInt < h.balance.toInt ∨ (∃ key, h'.units key < h.units key) ∨ h'.nonce ≠ h.nonce ∨
    h'.metadata ≠ h.metadata ∨ h'.privilege ≠ h.privilege

/-- The step is made by a transaction of the account whose signatures reach the threshold for transactions, or by an
operation of the account whose signatures reach the threshold for its type. -/
inductive Authorized (w : World) (a : Address) (h : Holding) : Cause → Prop
  | transaction {env : TransactionEnv} (source : env.transaction.sourceAddress = a)
      (weight : h.privilege.threshold.txThreshold.toInt ≤ signedWeight w env h) : Authorized w a h (.charge env)
  | operation {env : TransactionEnv} {index : ℕ} {op : Operation} (source : sourceAddress env.transaction op = a)
      (weight : typeThreshold h op.type ≤ signedWeight w env h) : Authorized w a h (.operation env index op)

/-- Whoever is harmed by the step has authorized it. -/
def Guarded (w : World) (cause : Cause) (V V' : Store) : Prop :=
  ∀ a h h', V a = some h → V' a = some h' → Harmed h h' → Authorized w a h cause

section Guard
variable {w : World} {V V' : Store} {a b : Address} {h h' x y : Holding}

theorem not_harmed (hbalance : h.balance.toInt ≤ h'.balance.toInt) (hunits : ∀ key, h.units key ≤ h'.units key)
    (hnonce : h'.nonce = h.nonce) (hmetadata : h'.metadata = h.metadata) (hprivilege : h'.privilege = h.privilege) :
    ¬Harmed h h' := by
  rintro (hlt | ⟨key, hlt⟩ | hne | hne | hne)
  · omega
  · exact absurd (hunits key) (not_le.mpr hlt)
  · exact hne hnonce
  · exact hne hmetadata
  · exact hne hprivilege

theorem not_harmed_setBalance {balance : Int64} (hle : h.balance.toInt ≤ balance.toInt) :
    ¬Harmed h (h.setBalance balance) :=
  not_harmed hle (fun _ => le_refl _) rfl rfl rfl

theorem not_harmed_refl : ¬Harmed h h := not_harmed (le_refl _) (fun _ => le_refl _) rfl rfl rfl

theorem eq_of_put (hb : b ≠ a) (hV : V b = some x) (hput : V.put a y b = some h') : h' = x := by
  rw [put_of_ne _ hb, hV] at hput
  exact (some.inj hput).symm

theorem Effect.harms_source {tran : Transaction} {index n : ℕ} {op : Operation} (heffect : Effect w tran index op V V')
    (hvalid : (checkValid w op (sourceAddress tran op) n).code = .success) (ha : a ≠ sourceAddress tran op)
    (hh : V a = some h) (hh' : V' a = some h') : ¬Harmed h h' := by
  have hsame {x : Holding} (hput : V.put (sourceAddress tran op) x a = some h') : ¬Harmed h h' := by
    obtain rfl := eq_of_put ha hh hput
    exact not_harmed_refl
  cases heffect with
  | idle =>
    obtain rfl := some.inj (hh.symm.trans hh')
    exact not_harmed_refl
  | create _ _ fresh =>
    have hne : a ≠ newAddress w tran index op.createAccount := by
      rintro rfl
      rw [fresh] at hh
      cases hh
    rw [put_of_ne _ hne] at hh'
    exact hsame hh'
  | @payCoin src dst V₁ least paid received type source lowest enough dest pays there receives =>
    obtain ⟨hamount, -⟩ := checkValid_payCoin hvalid type
    rw [safeIntAdd_eq_some] at receives
    have hV₁ : V₁ a = some h := by
      obtain ⟨-, rfl⟩ | ⟨hnone, -, rfl⟩ := dest
      · exact hh
      · rwa [put_of_ne]
        rintro rfl
        rw [hnone] at hh
        cases hh
    have hfirst : V₁.put (sourceAddress tran op) (src.setBalance paid) a = some h := by rwa [put_of_ne _ ha]
    by_cases hdest : a = op.payCoin.destAddress
    · subst hdest
      obtain rfl := some.inj (hfirst.symm.trans there)
      rw [put_self] at hh'
      cases hh'
      exact not_harmed_setBalance (by omega)
    · obtain rfl := eq_of_put hdest hfirst hh'
      exact not_harmed_refl
  | payNothing =>
    obtain rfl := some.inj (hh.symm.trans hh')
    exact not_harmed_refl
  | @payAsset src dst asset held paid received type source dest asset_eq holds pays enough there receives =>
    obtain ⟨hamount, -⟩ := checkValid_payAsset hvalid type asset_eq
    have hfirst : V.put (sourceAddress tran op) (src.setAsset asset.assetKey (some paid)) a = some h := by
      rwa [put_of_ne _ ha]
    by_cases hdest : a = op.payAsset.destAddress
    · subst hdest
      obtain rfl := some.inj (hfirst.symm.trans there)
      rw [put_self] at hh'
      cases hh'
      refine not_harmed (le_refl _) (fun key => ?_) rfl rfl rfl
      by_cases hkey : key = asset.assetKey
      · subst hkey
        rw [Holding.units_setAsset, toInt_received receives]
        exact le_add_of_nonneg_right hamount.le
      · rw [Holding.units_setAsset_of_ne hkey]
    · obtain rfl := eq_of_put hdest hfirst hh'
      exact not_harmed_refl
  | issue => exact hsame hh'
  | metadata => exact hsame hh'
  | privilege => exact hsame hh'

theorem Step.guarded {cause : Cause} {B B' : Books} (hstep : Step w false cause B B')
    (hsane : Each (fun _ h => Sane h.privilege) B.store)
    (hreward : ∀ a amount, cause = .reward a amount → 0 ≤ amount.toInt) : Guarded w cause B.store B'.store := by
  intro a h h' hh hh' hharmed
  cases hstep with
  | @charge env _ x _ _ _ _ source _ signed =>
    by_cases ha : a = env.transaction.sourceAddress
    · subst ha
      obtain rfl := some.inj (hh.symm.trans source)
      have hweight := typeThreshold_le (hsane _ _ hh) (signed rfl)
      rw [typeThreshold_transaction (hsane _ _ hh)] at hweight
      exact .transaction rfl hweight
    · obtain rfl := eq_of_put ha hh hh'
      exact absurd hharmed not_harmed_refl
  | @operation env _ op _ _ valid signed effect =>
    by_cases ha : a = sourceAddress env.transaction op
    · subst ha
      obtain ⟨x, source, hsigned⟩ := signed rfl
      obtain rfl := some.inj (hh.symm.trans source)
      exact .operation rfl (typeThreshold_le (hsane _ _ hh) hsigned)
    · exact absurd hharmed (effect.harms_source valid ha hh hh')
  | kept =>
    obtain rfl := some.inj (hh.symm.trans hh')
    exact absurd hharmed not_harmed_refl
  | @refund env _ x _ extra _ balance _ _ some_left source _ receives =>
    by_cases ha : a = env.transaction.sourceAddress
    · subst ha
      obtain rfl := some.inj (hh.symm.trans source)
      obtain rfl := some.inj ((put_self ..).symm.trans hh')
      rw [safeIntAdd_eq_some] at receives
      rw [le_iff_toInt_le, toInt_zero] at some_left
      exact absurd hharmed (not_harmed_setBalance (by omega))
    · obtain rfl := eq_of_put ha hh hh'
      exact absurd hharmed not_harmed_refl
  | lost =>
    obtain rfl := some.inj (hh.symm.trans hh')
    exact absurd hharmed not_harmed_refl
  | @reward b amount balance _ x there receives =>
    by_cases ha : a = b
    · subst ha
      obtain hthere | ⟨hnone, -⟩ := there
      · obtain rfl := some.inj (hh.symm.trans hthere)
        obtain rfl := some.inj ((put_self ..).symm.trans hh')
        rw [safeIntAdd_eq_some] at receives
        have hamount := hreward a amount rfl
        exact absurd hharmed (not_harmed_setBalance (by omega))
      · rw [hnone] at hh
        cases hh
    · obtain rfl := eq_of_put ha hh hh'
      exact absurd hharmed not_harmed_refl

theorem Step.sane {test : Bool} {cause : Cause} {B B' : Books} (hstep : Step w test cause B B')
    (hB : Each (fun _ h => Sane h.privilege) B.store) : Each (fun _ h => Sane h.privilege) B'.store := by
  refine hstep.each ⟨fun _ h => h, fun h => h, fun _ _ h => h, fun _ _ h => h⟩ hB ?_ ?_ ?_
  · intro a
    change Sane { masterWeight := 1, thresholds := some { txThreshold := 1 } }
    exact ⟨by decide, by simp, by simp [AccountPrivilege.threshold]⟩
  · intro tran index op type valid _
    rw [newAccount_privilege]
    exact sane_new valid type
  · intro tran op a h frm change valid hchange hsame hsane
    exact (Sane.updates (sourceAddress tran op)).change valid hchange (hsame ▸ hsane)

end Guard

/-! ### Blocks -/

def GuardedStep (w : World) (cause : Cause) (B B' : Books) : Prop :=
  Step w false cause B B' ∧ Guarded w cause B.store B'.store

section Blocks
variable {w : World} {B B' : Books}

theorem path_guarded {causes : List Cause} (hcauses : ∀ a amount, .reward a amount ∈ causes → 0 ≤ amount.toInt)
    (hB : Each (fun _ h => Sane h.privilege) B.store) (h : Path (Step w false) causes B B') :
    Path (GuardedStep w) causes B B' ∧ Each (fun _ h => Sane h.privilege) B'.store := by
  refine ⟨?_, h.invariant (I := fun B => Each (fun _ h => Sane h.privilege) B.store)
    (fun _ _ _ hB hstep => hstep.sane hB) hB⟩
  refine h.labelled.mono (I := fun B => Each (fun _ h => Sane h.privilege) B.store) ?_ hB
  rintro cause B B' hB ⟨hcause, hstep⟩
  exact ⟨hstep.sane hB, hstep, hstep.guarded hB fun a amount heq => hcauses a amount (heq ▸ hcause)⟩

theorem reward_notMem_causes {txs : List AppliedTx} {a : Address} {amount : Int64} :
    .reward a amount ∉ txs.flatMap AppliedTx.causes := by
  have hoperations (env : TransactionEnv) (l : List Operation) : ∀ index,
      Cause.reward a amount ∉ operationCauses env index l := by
    induction l with
    | nil => simp [operationCauses]
    | cons op l ih => simp [operationCauses, ih]
  intro hmem
  obtain ⟨tx, -, hmem⟩ := mem_flatMap.mp hmem
  unfold AppliedTx.causes causesOf at hmem
  split at hmem <;> simp [hoperations] at hmem

/-- Every step of a block that was accepted carries its authority: the transactions with their operations, one after
the other, and the credits at the end. -/
theorem changes_authorized (fuel : ℕ) (clock : Clock) (request : ConsensusValue) {b : Block} {t : LedgerContext}
    (hreserve : 0 ≤ w.fees.baseReserve.toInt) (hfinite : FiniteMap w.db.account) (hcredit : w.db.InCredit)
    (hroom : w.db.coins + (General.getBlockReward request.ledgerSeq).toInt < 2 ^ 63)
    (hlength : ∀ l, w.previousValidators = some l → l.length < 2 ^ 31)
    (hsane : ∀ a acc, w.db.account a = some acc → Sane acc.privilege)
    (hfree : ∀ env ∈ request.txset, env.CodeFree w)
    (h : applyCheck w fuel clock request (.start request) = some (some b, t)) :
    b.applyTxFrms.map (fun tx => tx.frm.transactionEnv) = request.txset ∧
      ∃ credits, Path (GuardedStep w) (b.applyTxFrms.flatMap AppliedTx.causes ++ rewards credits)
        ⟨w.db.store, 0⟩ ⟨stored w t, b.totalFee⟩ := by
  obtain ⟨⟨V, hcourse⟩, henvs, -⟩ := applyCheck_course hfree h
  refine ⟨henvs, ?_⟩
  have hstart : Each (fun _ h => Sane h.privilege) w.db.store := by
    intro a x hx
    obtain ⟨acc, hacc, rfl⟩ := store_eq_some hx
    exact hsane a acc hacc
  obtain ⟨hpath, hV⟩ := path_guarded (fun _ _ hmem => absurd hmem reward_notMem_causes) hstart hcourse.path.flatten
  obtain ⟨-, heq⟩ | ⟨paid, V₁, hpays, heq⟩ := hcourse.reward
  · exact ⟨[], by simpa [rewards, heq] using hpath⟩
  · cases hpays with
    | @done credits hpaid hshares =>
      have hreward := General.getBlockReward_nonneg request.ledgerSeq
      rw [← coins_store] at hroom
      have hbooks : Solvent (coins w.db.store) ⟨V, b.totalFee⟩ :=
        (txCourse_solvent hreserve (by omega) ⟨funded_store hfinite hcredit, le_refl 0, by simp⟩ hcourse.course).1
      have hfee : 0 ≤ b.totalFee.toInt := hbooks.fee
      have hsum : coins V + b.totalFee.toInt = coins w.db.store := hbooks.sum
      have hcoins : 0 ≤ coins V := total_nonneg fun k v hk => hbooks.funded.nonneg k v hk
      have htotal : 0 ≤ (b.totalFee + General.getBlockReward request.ledgerSeq).toInt := by
        rw [toInt_add_of_range (by omega) (by omega)]
        omega
      obtain ⟨hwithin, -⟩ := hshares ⟨htotal, hlength⟩
      have hcredits (a : Address) (amount : Int64) (hmem : .reward a amount ∈ rewards credits) : 0 ≤ amount.toInt := by
        obtain ⟨c, hc, heq⟩ := mem_map.mp hmem
        obtain ⟨rfl, rfl⟩ := Cause.reward.inj heq
        exact hwithin.nonneg c hc
      have hrest := (path_guarded hcredits hV (hpaid b.totalFee)).1
      exact ⟨credits, by rw [heq]; exact hpath.append hrest⟩
    | stuck => exact ⟨[], by simpa [rewards, heq] using hpath⟩
    | nobody => exact ⟨[], by simpa [rewards, heq] using hpath⟩

end Blocks

theorem changes_authorized_payment :
    ∃ b t credits, applyCheck (coinWorld 1000) 20 earlyClock (coinValue 100) (.start (coinValue 100)) =
        some (some b, t) ∧
      b.verdicts = [.applied] ∧
      Path (GuardedStep (coinWorld 1000)) (b.applyTxFrms.flatMap AppliedTx.causes ++ rewards credits)
        ⟨(coinWorld 1000).db.store, 0⟩ ⟨stored (coinWorld 1000) t, b.totalFee⟩ := by
  obtain ⟨b, t, h, hverdicts⟩ := coinWorld_applied
  have hlength (l : List Validator) (hl : (coinWorld 1000).previousValidators = some l) : l.length < 2 ^ 31 := by
    cases hl
    decide
  have hsane (a : Address) (acc : Account) (hacc : (coinWorld 1000).db.account a = some acc) : Sane acc.privilege := by
    obtain ⟨-, rfl⟩ := coinWorld_account hacc
    exact ⟨by decide, by simp [Account.privilege, ownPriv],
      by simp [Account.privilege, ownPriv, AccountPrivilege.threshold]⟩
  obtain ⟨-, credits, hpath⟩ := changes_authorized 20 earlyClock (coinValue 100) (by decide) (coinWorld_finite 1000)
    (coinWorld_inCredit (by decide)) (by rw [coinWorld_coins]; decide) hlength hsane (coinValue_free 100 _ rfl) h
  exact ⟨b, t, credits, h, hverdicts, hpath⟩

/-- The base reserve is as low as can be, and a validator has an account. -/
def debtWorld : World :=
  { smallWorld (smallDb [{ address := "g", priv := some ownPriv },
      { address := "v", balance := 5, priv := some ownPriv }]) idleEngine with
    fees := ⟨1, -9223372036854775807⟩ }

/-- A payment that fails, of a transaction that may cost all there can be. -/
def debtValue : ConsensusValue :=
  { coinValue 9223372036854775807 with validation := some { errorTxIds := [0] } }

/-- The sum of fee and block reward overflows, and the validator is made to pay: it has signed nothing. -/
theorem validator_robbed : (∀ env ∈ debtValue.txset, env.transaction.sourceAddress = "g" ∧
        ∀ op ∈ env.transaction.operations, op.sourceAddress = "") ∧
      (debtWorld.db.account "v").map (fun acc => acc.balance) = some 5 ∧
      ∃ b t acc, applyCheck debtWorld 20 earlyClock debtValue (.start debtValue) = some (some b, t) ∧
        (debtWorld.db.commit t.envs).account "v" = some acc ∧ acc.balance < 0 := by
  refine ⟨by simp [debtValue, coinValue], by decide, ?_⟩
  have hrun : (applyCheck debtWorld 20 earlyClock debtValue (.start debtValue)).any (fun r =>
      r.1.isSome && ((debtWorld.db.commit r.2.envs).account "v").any fun acc => acc.balance < 0) = true := by
    decide +kernel
  obtain ⟨⟨found, t⟩, h, hfound⟩ := (any_eq_true _ _).mp hrun
  obtain ⟨hsome, haccount⟩ := Bool.and_eq_true_iff.mp hfound
  obtain ⟨b, rfl⟩ := isSome_iff_exists.mp hsome
  obtain ⟨acc, hacc, hbalance⟩ := (any_eq_true _ _).mp haccount
  exact ⟨b, t, acc, h, hacc, by simpa using hbalance⟩

end OpenSesame
