import Mathlib.Data.List.Nodup
import OpenSesame.Theorems.Ledger.Checks
import OpenSesame.Theorems.Ledger.Effect

/-! # Privileges

What `CheckValid` accepts of the operations that set privileges, and that an account whose privileges are well formed
keeps them so. -/

namespace OpenSesame
open Protocol List

/-- The weights are not negative, and the thresholds are for types of operations. -/
structure Sane (p : AccountPrivilege) : Prop where
  master : 0 ≤ p.masterWeight.toInt
  weights : ∀ s ∈ p.signers, 0 ≤ s.weight.toInt
  supported : ∀ t ∈ p.threshold.typeThresholds, 0 < t.type.toInt

/-- The privileges of the account at an address. -/
structure WellFormed (a : Address) (p : AccountPrivilege) : Prop where
  master : FitsWeight p.masterWeight
  length : p.signers.length ≤ 100
  signers : (p.signers.map Signer.address).Nodup
  others : ∀ s ∈ p.signers, s.address ≠ a
  weights : ∀ s ∈ p.signers, 1 ≤ s.weight.toInt ∧ s.weight.toInt ≤ 2 ^ 32 - 1
  threshold : 0 ≤ p.threshold.txThreshold.toInt
  types : (p.threshold.typeThresholds.map OperationTypeThreshold.type).Nodup
  thresholds : ∀ t ∈ p.threshold.typeThresholds, 0 < t.threshold.toInt

section Entries
variable {α κ : Type} [DecidableEq κ] {key : α → κ} {k : κ} {remove : Bool} {entry : α} {set : α → α} {l : List α}

open AccountFrm (updateEntries signerLimit)

theorem nodup_updateEntries (hentry : key entry = k) (hset : ∀ x, key (set x) = key x) (hl : (l.map key).Nodup) :
    ((updateEntries (fun x => key x == k) remove entry set l).map key).Nodup := by
  unfold updateEntries
  split
  · exact hl.sublist (filter_sublist.map key)
  · split
    · have hkeys : key ∘ (fun x => if key x == k then set x else x) = key := by
        funext x
        by_cases hx : key x = k <;> simp [hx, hset]
      rwa [map_map, hkeys]
    · split
      · exact hl
      · rename_i hany _
        rw [map_append, map_singleton, hentry]
        exact List.Nodup.append hl (nodup_singleton k) (by simpa using hany)

theorem mem_updateEntries {x : α} (h : x ∈ updateEntries (fun x => key x == k) remove entry set l) :
    x ∈ l ∨ remove = false ∧ (x = entry ∨ ∃ y ∈ l, key y = k ∧ x = set y) := by
  unfold updateEntries at h
  split at h
  · exact .inl (mem_filter.mp h).1
  · rename_i hremove
    have hremove : remove = false := by simpa using hremove
    split at h
    · obtain ⟨y, hy, rfl⟩ := mem_map.mp h
      by_cases hk : key y = k
      · exact .inr ⟨hremove, .inr ⟨y, hy, hk, by simp [hk]⟩⟩
      · exact .inl (by simpa [hk] using hy)
    · split at h
      · exact .inl h
      · rcases mem_append.mp h with h | h
        · exact .inl h
        · exact .inr ⟨hremove, .inl (mem_singleton.mp h)⟩

theorem length_updateEntries (hl : l.length ≤ signerLimit) :
    (updateEntries (fun x => key x == k) remove entry set l).length ≤ signerLimit := by
  unfold updateEntries
  split
  · exact (length_filter_le ..).trans hl
  · split
    · rwa [length_map]
    · split
      · exact hl
      · rw [length_append, length_singleton]
        omega

end Entries

/-! ### The updates -/

structure Updates (source : Address) (P : AccountPrivilege → Prop) : Prop where
  master : ∀ {frm : AccountFrm} {weight : Int64}, FitsWeight weight → P frm.info.privilege →
    P (frm.setProtoMasterWeight weight).info.privilege
  threshold : ∀ {frm : AccountFrm} {threshold : Int64}, 0 ≤ threshold.toInt → P frm.info.privilege →
    P (frm.setProtoTxThreshold threshold).info.privilege
  signer : ∀ {frm : AccountFrm} {signer : Address} {weight : Int64}, signer ≠ source → FitsWeight weight →
    P frm.info.privilege → P (frm.updateSigner signer weight).info.privilege
  type : ∀ {frm : AccountFrm} {type : OperationType} {threshold : Int64}, 0 < type.toInt →
    P frm.info.privilege → P (frm.updateTypeThreshold type threshold).info.privilege

namespace Updates
variable {source : Address} {P : AccountPrivilege → Prop}

theorem signers (hP : Updates source P) {l : List Signer} (hl : ∀ s ∈ l, s.address ≠ source ∧ FitsWeight s.weight) :
    ∀ {frm : AccountFrm}, P frm.info.privilege → P (OperationFrm.updateSigners l frm).info.privilege := by
  induction l with
  | nil => exact fun h => h
  | cons s l ih =>
    intro frm h
    obtain ⟨⟨hother, hweight⟩, hl⟩ := forall_mem_cons.mp hl
    exact ih hl (hP.signer hother hweight h)

theorem types (hP : Updates source P) {l : List OperationTypeThreshold} (hl : ∀ t ∈ l, 0 < t.type.toInt) :
    ∀ {frm : AccountFrm}, P frm.info.privilege → P (OperationFrm.updateTypeThresholds l frm).info.privilege := by
  induction l with
  | nil => exact fun h => h
  | cons t l ih =>
    intro frm h
    obtain ⟨ht, hl⟩ := forall_mem_cons.mp hl
    exact ih hl (hP.type ht h)

end Updates

theorem Sane.updates (source : Address) : Updates source Sane where
  master hweight h := { h with master := hweight.1 }
  threshold _ h := { h with }
  signer _ hweight h := { h with
    weights := by
      intro s hs
      rcases mem_updateEntries hs with hs | ⟨-, rfl | ⟨y, hy, -, rfl⟩⟩
      · exact h.weights s hs
      · exact hweight.1
      · exact hweight.1 }
  type htype h := { h with
    supported := by
      intro t ht
      rcases mem_updateEntries ht with ht | ⟨-, rfl | ⟨y, hy, -, rfl⟩⟩
      · exact h.supported t ht
      · exact htype
      · exact h.supported y hy }

theorem WellFormed.updates (source : Address) : Updates source (WellFormed source) where
  master hweight h := { h with master := hweight }
  threshold hthreshold h := { h with threshold := hthreshold }
  signer {_ _ weight} hother hweight h := by
    have hpositive (hkept : (!decide (weight > 0)) = false) : 1 ≤ weight.toInt ∧ weight.toInt ≤ 2 ^ 32 - 1 := by
      have hlt : 0 < weight.toInt := by simpa [Int64.lt_iff_toInt_lt] using hkept
      exact ⟨hlt, hweight.2⟩
    exact { h with
      length := length_updateEntries h.length
      signers := nodup_updateEntries rfl (fun _ => rfl) h.signers
      others := by
        intro s hs
        rcases mem_updateEntries hs with hs | ⟨-, rfl | ⟨y, hy, -, rfl⟩⟩
        · exact h.others s hs
        · exact hother
        · exact h.others y hy
      weights := by
        intro s hs
        rcases mem_updateEntries hs with hs | ⟨hkept, rfl | ⟨y, hy, -, rfl⟩⟩
        · exact h.weights s hs
        · exact hpositive hkept
        · exact hpositive hkept }
  type {_ _ threshold} _ h := by
    have hpositive (hkept : (!decide (threshold > 0)) = false) : 0 < threshold.toInt := by
      simpa [Int64.lt_iff_toInt_lt] using hkept
    exact { h with
      types := nodup_updateEntries rfl (fun _ => rfl) h.types
      thresholds := by
        intro t ht
        rcases mem_updateEntries ht with ht | ⟨hkept, rfl | ⟨y, hy, -, rfl⟩⟩
        · exact h.thresholds t ht
        · exact hpositive hkept
        · exact hpositive hkept }

/-! ### The operations -/

section Operations
variable {w : World} {op : Operation} {source : Address} {n : ℕ} {P : AccountPrivilege → Prop}

open OperationFrm

theorem Updates.change (hP : Updates source P) (h : (checkValid w op source n).code = .success)
    {change : AccountFrm → AccountFrm} (hchange : privilegeChange op = some change) {frm : AccountFrm}
    (hfrm : P frm.info.privilege) : P (change frm).info.privilege := by
  unfold privilegeChange at hchange
  split at hchange
  · rename_i htype
    cases hchange
    obtain ⟨hmaster, hsigners⟩ := checkValid_setSignerWeight h htype
    refine hP.signers hsigners ?_
    split
    · exact hP.master (hmaster ‹_›) hfrm
    · exact hfrm
  · rename_i htype
    cases hchange
    refine hP.types (checkValid_setThreshold h htype) ?_
    split
    · exact hP.threshold (by simpa [Int64.le_iff_toInt_le] using ‹op.setThreshold.txThreshold ≥ 0›) hfrm
    · exact hfrm
  · rename_i htype
    cases hchange
    obtain ⟨hmaster, hsigners, htypes⟩ := checkValid_setPrivilege h htype
    have hfirst : P (if op.setPrivilege.masterWeight != "" && Strings.stoi64 op.setPrivilege.masterWeight ≥ 0 then
        frm.setProtoMasterWeight (Strings.stoi64 op.setPrivilege.masterWeight) else frm).info.privilege := by
      split
      · rename_i hset
        exact hP.master (hmaster (by simpa using (Bool.and_eq_true_iff.mp hset).1)) hfrm
      · exact hfrm
    refine hP.types htypes ?_
    split
    · rename_i hset
      refine hP.threshold ?_ (hP.signers hsigners hfirst)
      simpa [Int64.le_iff_toInt_le] using (Bool.and_eq_true_iff.mp hset).2
    · exact hP.signers hsigners hfirst
  · cases hchange

theorem sane_new (h : (checkValid w op source n).code = .success) (htype : op.type = .createAccount) :
    Sane (op.createAccount.priv.getD {}) := by
  obtain ⟨hmaster, hsigners, htypes⟩ := checkValid_createAccount h htype
  exact ⟨hmaster.1, fun s hs => (hsigners s hs).1, htypes⟩

theorem wellFormed_of_privForm {p : AccountPrivilege} {weight : Int64} (hweight : weight = 0 ∨ weight = 1)
    (h : privForm p weight = true) (a : Address) : WellFormed a p := by
  obtain ⟨hmaster, hsigners, hthreshold, htypes⟩ := privForm_iff.mp h
  refine ⟨?_, ?_, ?_, ?_, ?_, ?_, ?_, ?_⟩
  · rw [hmaster]
    rcases hweight with rfl | rfl <;> exact ⟨by decide, by decide⟩
  · simp [hsigners]
  · simp [hsigners]
  · simp [hsigners]
  · simp [hsigners]
  · simp [hthreshold]
  · simp [htypes]
  · simp [htypes]

theorem wellFormed_new (h : (checkValid w op source n).code = .success) (htype : op.type = .createAccount)
    (hversion : w.checkVersionGt1000 = true) (a : Address) : WellFormed a (op.createAccount.priv.getD {}) := by
  obtain ⟨weight, hweight, hform⟩ := checkValid_createAccountGt1000 h htype hversion
  exact wellFormed_of_privForm hweight hform a

theorem wellFormed_creatAccountFrm (a : Address) (balance : Int64) :
    WellFormed a (AccountFrm.creatAccountFrm a balance).info.privilege :=
  wellFormed_of_privForm (.inr rfl) rfl a

end Operations

end OpenSesame
