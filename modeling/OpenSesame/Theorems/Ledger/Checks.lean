import OpenSesame.Ledger.OperationFrm

/-! # What `CheckValid` accepts

The amounts, weights and thresholds of an operation that passed the check. -/

namespace OpenSesame
open Protocol Result List Int64

theorem firstError_ok {checks : List (Bool × Result)} {rest : Result}
    (h : (firstError checks rest).code = .success) (hchecks : ∀ c ∈ checks, c.1 = true → c.2.code ≠ .success) :
    (∀ c ∈ checks, c.1 = false) ∧ rest.code = .success := by
  unfold firstError at h
  cases hfind : checks.find? (·.1) with
  | some c =>
    simp only [hfind] at h
    exact absurd h (hchecks c (mem_of_find?_eq_some hfind) (List.find?_some hfind))
  | none =>
    simp only [hfind] at h
    exact ⟨fun c hc => by simpa using List.find?_eq_none.mp hfind c hc, h⟩

def FitsWeight (weight : Int64) : Prop := 0 ≤ weight.toInt ∧ weight.toInt ≤ 2 ^ 32 - 1

namespace OperationFrm
variable {w : World} {op : Operation} {source : Address} {n : ℕ}

theorem fitsWeight_of_valid {weight : Int64} (h : weightInvalid weight = false) : FitsWeight weight := by
  simpa [weightInvalid, FitsWeight, General.uint32Max, lt_iff_toInt_lt] using h

theorem checkSigners_ok {c : SignerCheck} {self : Address} {l : List Signer} :
    ∀ {seen : List Address}, (checkSigners w c self seen l).code = .success →
      ∀ s ∈ l, s.address ≠ self ∧ FitsWeight s.weight := by
  induction l with
  | nil => simp
  | cons x l ih =>
    intro seen h
    obtain ⟨hchecks, hrest⟩ := firstError_ok h (by simp [error])
    simp only [forall_mem_cons] at hchecks ⊢
    exact ⟨⟨by simpa using hchecks.2.1, fitsWeight_of_valid hchecks.1⟩, ih hrest⟩

theorem checkTypeThresholds_ok {c : ThresholdCheck} (hc : c.unsupported ≠ .success) {l : List OperationTypeThreshold} :
    ∀ {seen : List OperationType}, (checkTypeThresholds c seen l).code = .success → ∀ t ∈ l, 0 < t.type.toInt := by
  induction l with
  | nil => simp
  | cons x l ih =>
    intro seen h
    obtain ⟨hchecks, hrest⟩ := firstError_ok h (by simp [error, hc])
    simp only [forall_mem_cons, Bool.or_eq_false_iff, decide_eq_false_iff_not, not_le] at hchecks ⊢
    exact ⟨hchecks.1.2, ih hrest⟩

theorem code_set (code : ErrorCode) (desc : String) (r : Result) : (r.set code desc).code = code := rfl

theorem checkMetadatas_ok {metadatas : List KeyPair} :
    ∀ {r : Result}, (checkMetadatas metadatas r).code = .success → r.code = .success := by
  induction metadatas with
  | nil => exact fun h => h
  | cons kp l ih =>
    intro r h
    have h := ih h
    dsimp only at h
    split at h
    · cases h
    · split at h
      · cases h
      · exact h

theorem checkContract_ok {o : OperationCreateAccount} {priv : AccountPrivilege} {desc : String} {r : Result}
    (h : (checkContract w o priv desc n r).code = .success) : privForm priv 0 = true := by
  unfold checkContract at h
  split at h
  · cases h
  · split at h
    · cases h
    · rename_i hform
      simpa using hform

theorem privForm_iff {priv : AccountPrivilege} {weight : Int64} :
    privForm priv weight = true ↔ priv.masterWeight = weight ∧ priv.signers = [] ∧ priv.threshold.txThreshold = 1 ∧
      priv.threshold.typeThresholds = [] := by
  simp [privForm, and_assoc]

/-! ### The checks of each type -/

section Types
variable (h : (checkValid w op source n).code = .success)
include h

theorem checkValid_createAccountGt1000 (htype : op.type = .createAccount) (hversion : w.checkVersionGt1000 = true) :
    ∃ weight : Int64, (weight = 0 ∨ weight = 1) ∧ privForm (op.createAccount.priv.getD {}) weight = true := by
  obtain ⟨-, h⟩ := firstError_ok h (by simp [error])
  simp only [htype, hversion, if_true] at h
  obtain ⟨-, h⟩ := firstError_ok h (by simp [error])
  obtain ⟨-, h⟩ := firstError_ok h (by simp [error])
  split at h
  · exact ⟨0, .inl rfl, checkContract_ok h⟩
  · split at h
    · cases h
    · rename_i hform
      exact ⟨1, .inr rfl, by simpa using hform⟩

theorem checkValid_createAccount (htype : op.type = .createAccount) :
    FitsWeight (op.createAccount.priv.getD {}).masterWeight ∧
      (∀ s ∈ (op.createAccount.priv.getD {}).signers, FitsWeight s.weight) ∧
      ∀ t ∈ (op.createAccount.priv.getD {}).threshold.typeThresholds, 0 < t.type.toInt := by
  by_cases hversion : w.checkVersionGt1000 = true
  · obtain ⟨weight, hweight, hform⟩ := checkValid_createAccountGt1000 h htype hversion
    obtain ⟨hmaster, hsigners, -, htypes⟩ := privForm_iff.mp hform
    rw [hmaster, hsigners, htypes]
    refine ⟨?_, by simp, by simp⟩
    rcases hweight with rfl | rfl <;> exact ⟨by decide, by decide⟩
  · obtain ⟨-, h⟩ := firstError_ok h (by simp [error])
    simp only [htype, hversion] at h
    obtain ⟨hchecks, h⟩ := firstError_ok h (by simp [error])
    simp only [forall_mem_cons, bne_eq_false_iff_eq] at hchecks
    obtain ⟨-, -, -, hmaster, hsigners, -⟩ := hchecks
    refine ⟨fitsWeight_of_valid hmaster, fun s hs => (checkSigners_ok hsigners s hs).2, ?_⟩
    split at h
    · rw [(privForm_iff.mp (checkContract_ok h)).2.2.2]
      simp
    · exact checkTypeThresholds_ok (by decide) (checkMetadatas_ok h)

theorem checkValid_payCoin (htype : op.type = .payCoin) :
    0 ≤ op.payCoin.amount.toInt ∧ source ≠ op.payCoin.destAddress := by
  obtain ⟨-, h⟩ := firstError_ok h (by simp [error])
  simp only [htype] at h
  obtain ⟨hchecks, -⟩ := firstError_ok h (by simp [error])
  simp only [forall_mem_cons, decide_eq_false_iff_not, beq_eq_false_iff_ne] at hchecks
  exact ⟨by simpa [lt_iff_toInt_lt] using hchecks.1, hchecks.2.1⟩

theorem checkValid_payAsset (htype : op.type = .payAsset) {asset : Asset} (hasset : op.payAsset.asset = some asset) :
    0 < asset.amount.toInt ∧ source ≠ op.payAsset.destAddress := by
  obtain ⟨-, h⟩ := firstError_ok h (by simp [error])
  simp only [htype] at h
  obtain ⟨hchecks, -⟩ := firstError_ok h (by simp [error])
  have hpaid : op.payAsset.paid = asset := by rw [OperationPayAsset.paid, hasset, Option.getD_some]
  simp only [forall_mem_cons, hpaid, hasset, Option.isSome_some, Bool.true_and, decide_eq_false_iff_not,
    beq_eq_false_iff_ne] at hchecks
  exact ⟨by simpa [le_iff_toInt_le] using hchecks.2.1, hchecks.2.2.2.2.1⟩

theorem checkValid_issueAsset (htype : op.type = .issueAsset) : 0 < op.issueAsset.amount.toInt := by
  obtain ⟨-, h⟩ := firstError_ok h (by simp [error])
  simp only [htype] at h
  obtain ⟨hchecks, -⟩ := firstError_ok h (by simp [error])
  simp only [forall_mem_cons, decide_eq_false_iff_not] at hchecks
  simpa [le_iff_toInt_le] using hchecks.1

theorem checkValid_setSignerWeight (htype : op.type = .setSignerWeight) :
    (0 ≤ op.setSignerWeight.masterWeight → FitsWeight op.setSignerWeight.masterWeight) ∧
      ∀ s ∈ op.setSignerWeight.signers, s.address ≠ source ∧ FitsWeight s.weight := by
  obtain ⟨-, h⟩ := firstError_ok h (by simp [error])
  simp only [htype] at h
  obtain ⟨hchecks, hsigners⟩ := firstError_ok h (by simp [error])
  refine ⟨fun hset => ?_, checkSigners_ok hsigners⟩
  have hmaster := (forall_mem_cons.mp hchecks).1
  simp only [Bool.or_eq_false_iff, decide_eq_false_iff_not] at hmaster
  exact ⟨by simpa [le_iff_toInt_le] using hset, by simpa [General.uint32Max, lt_iff_toInt_lt] using hmaster.2⟩

theorem checkValid_setThreshold (htype : op.type = .setThreshold) :
    ∀ t ∈ op.setThreshold.typeThresholds, 0 < t.type.toInt := by
  obtain ⟨-, h⟩ := firstError_ok h (by simp [error])
  simp only [htype] at h
  obtain ⟨-, h⟩ := firstError_ok h (by simp [error])
  exact checkTypeThresholds_ok (by decide) h

theorem checkValid_setPrivilege (htype : op.type = .setPrivilege) :
    (op.setPrivilege.masterWeight ≠ "" → FitsWeight (Strings.stoi64 op.setPrivilege.masterWeight)) ∧
      (∀ s ∈ op.setPrivilege.signers, s.address ≠ source ∧ FitsWeight s.weight) ∧
      ∀ t ∈ op.setPrivilege.typeThresholds, 0 < t.type.toInt := by
  obtain ⟨-, h⟩ := firstError_ok h (by simp [error])
  simp only [htype] at h
  obtain ⟨hchecks, hrest⟩ := firstError_ok h (by simp [error])
  simp only [forall_mem_cons, bne_eq_false_iff_eq] at hchecks
  refine ⟨fun hset => ?_, checkSigners_ok hchecks.2.1, checkTypeThresholds_ok (by decide) hrest⟩
  have hnumber : numberInvalid op.setPrivilege.masterWeight General.uint32Max = false := by
    simpa [hset] using hchecks.1
  unfold numberInvalid at hnumber
  split at hnumber
  · cases hnumber
  · rename_i k hk
    have hk : k = Strings.stoi64 op.setPrivilege.masterWeight := by
      unfold Strings.safeStoi64 at hk
      split at hk
      · cases hk
      · split at hk
        · exact (Option.some.inj hk).symm
        · cases hk
    subst hk
    simpa [FitsWeight, General.uint32Max, lt_iff_toInt_lt] using hnumber

end Types

end OperationFrm
end OpenSesame
