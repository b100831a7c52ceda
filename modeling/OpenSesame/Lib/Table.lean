import Mathlib.Data.Finset.Card

/-! # Ordered maps

What the entries of a `Std.TreeMap` are after an update, for an order in which keys that compare as equal are
equal. Each lemma says where an entry of the new map comes from. -/

namespace OpenSesame
open Option
namespace Table

open Std

variable {κ ν : Type} {cmp : κ → κ → Ordering} [TransCmp cmp] {t : TreeMap κ ν cmp} {k a : κ} {v x : ν}

theorem contains_iff : t.contains a = true ↔ ∃ x, t[a]? = some x := by
  rw [TreeMap.contains_iff_mem, TreeMap.mem_iff_isSome_getElem?, isSome_iff_exists]

theorem card_keys [DecidableEq κ] : t.keys.toFinset.card = t.size := by
  have hnodup : t.keys.Nodup := TreeMap.nodup_keys
  rw [List.toFinset_card_of_nodup hnodup, TreeMap.length_keys]

variable [LawfulEqCmp cmp]

theorem insert_of_ne (h : a ≠ k) : (t.insert k v)[a]? = t[a]? := by
  rw [TreeMap.getElem?_insert, if_neg]
  exact fun hk => h (LawfulEqCmp.compare_eq_iff_eq.mp hk).symm

theorem insert_eq_some (h : (t.insert k v)[a]? = some x) : a = k ∧ x = v ∨ a ≠ k ∧ t[a]? = some x := by
  by_cases hak : a = k
  · rw [hak, TreeMap.getElem?_insert_self] at h
    exact .inl ⟨hak, (some.inj h).symm⟩
  · rw [insert_of_ne hak] at h
    exact .inr ⟨hak, h⟩

theorem erase_of_ne (h : a ≠ k) : (t.erase k)[a]? = t[a]? := by
  rw [TreeMap.getElem?_erase, if_neg]
  exact fun hk => h (LawfulEqCmp.compare_eq_iff_eq.mp hk).symm

theorem erase_eq_some (h : (t.erase k)[a]? = some x) : a ≠ k ∧ t[a]? = some x := by
  rw [TreeMap.getElem?_erase] at h
  split at h
  · cases h
  · exact ⟨fun hak => ‹¬_› (LawfulEqCmp.compare_eq_iff_eq.mpr hak.symm), h⟩

theorem insertIfNew_eq_some (h : (t.insertIfNew k v)[a]? = some x) : a = k ∧ x = v ∨ t[a]? = some x := by
  rw [TreeMap.getElem?_insertIfNew] at h
  split at h
  · exact .inl ⟨(LawfulEqCmp.compare_eq_iff_eq.mp ‹_ ∧ _›.1).symm, (some.inj h).symm⟩
  · exact .inr h

theorem filter_eq_some {p : κ → ν → Bool} : (t.filter p)[a]? = some x ↔ t[a]? = some x ∧ p a x = true := by
  rw [TreeMap.getElem?_filter', filter_eq_some_iff]

theorem mem_toList {p : κ × ν} : p ∈ t.toList ↔ t[p.1]? = some p.2 := TreeMap.mem_toList_iff_getElem?_eq_some

theorem size_pos (h : t[a]? = some x) : 0 < t.size := by
  rw [← TreeMap.length_keys]
  exact List.length_pos_of_mem (TreeMap.mem_keys.mpr (TreeMap.mem_iff_isSome_getElem?.mpr (isSome_of_eq_some h)))

theorem mem_keys : a ∈ t.keys ↔ ∃ x, t[a]? = some x := by
  rw [TreeMap.mem_keys, TreeMap.mem_iff_isSome_getElem?, isSome_iff_exists]

theorem keys_insertIfNew [DecidableEq κ] : (t.insertIfNew k v).keys.toFinset = insert k t.keys.toFinset := by
  ext a
  rw [List.mem_toFinset, Finset.mem_insert, List.mem_toFinset, TreeMap.mem_keys, TreeMap.mem_keys,
    TreeMap.mem_insertIfNew, LawfulEqCmp.compare_eq_iff_eq, eq_comm]

end Table
end OpenSesame
