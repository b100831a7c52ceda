import Mathlib.Algebra.BigOperators.Group.List.Basic
import Mathlib.Algebra.BigOperators.Ring.List
import Mathlib.Algebra.Order.BigOperators.Group.List
import Mathlib.Data.List.AList
import Mathlib.Tactic.Ring

/-! # Records under keys, and sums over them

A finite map as a list of entries with distinct keys, and the sum of an integer quantity of its entries. Writing
an entry changes the sum by the new entry minus the one it replaces. -/

namespace OpenSesame
open List Option

abbrev Records (K V : Type) := AList fun _ : K => V

namespace Records
variable {K V : Type}

/-- The sum of a quantity over the entries. -/
def sum (q : K → V → ℤ) (m : Records K V) : ℤ := (m.entries.map fun e => q e.1 e.2).sum

@[simp] theorem sum_empty (q : K → V → ℤ) : sum q (∅ : Records K V) = 0 := rfl

variable [DecidableEq K]

def share (q : K → V → ℤ) (m : Records K V) (k : K) : ℤ := (m.lookup k).elim 0 (q k)

variable {q q' : K → V → ℤ} {m : Records K V} {k a : K} {v x : V}

theorem share_some (h : m.lookup k = some v) : share q m k = q k v := by
  rw [share, h, elim_some]

theorem share_none (h : m.lookup k = none) : share q m k = 0 := by
  rw [share, h, elim_none]

theorem lookup_insert_cases (h : (m.insert k v).lookup a = some x) : a = k ∧ x = v ∨ a ≠ k ∧ m.lookup a = some x := by
  by_cases hak : a = k
  · subst hak
    rw [AList.lookup_insert] at h
    exact .inl ⟨rfl, (some.inj h).symm⟩
  · rw [AList.lookup_insert_ne hak] at h
    exact .inr ⟨hak, h⟩

theorem lookup_erase_cases (h : (m.erase k).lookup a = some x) : a ≠ k ∧ m.lookup a = some x := by
  by_cases hak : a = k
  · subst hak
    rw [AList.lookup_erase] at h
    cases h
  · rw [AList.lookup_erase_ne hak] at h
    exact ⟨hak, h⟩

theorem mem_entries {e : Sigma fun _ : K => V} (h : e ∈ m.entries) : m.lookup e.1 = some e.2 :=
  AList.mem_lookup_iff.mpr h

theorem sum_eq_add (q : K → V → ℤ) (m : Records K V) (k : K) : sum q m = share q m k + sum q (m.erase k) := by
  by_cases hk : k ∈ m.entries.keys
  · obtain ⟨v, l₁, l₂, -, hentries, herase⟩ := exists_of_kerase hk
    have hlookup : m.lookup k = some v := by
      refine AList.mem_lookup_iff.mpr ?_
      rw [hentries]
      exact mem_append_right _ (mem_cons_self ..)
    have hrest : (m.erase k).entries = l₁ ++ l₂ := herase
    rw [share_some hlookup, sum, sum, hentries, hrest]
    simp only [map_append, map_cons, sum_append, sum_cons]
    ring
  · have herase : (m.erase k).entries = m.entries := kerase_of_notMem_keys hk
    rw [share_none (AList.lookup_eq_none.mpr hk), sum, sum, herase, zero_add]

theorem sum_erase (q : K → V → ℤ) (m : Records K V) (k : K) : sum q (m.erase k) = sum q m - share q m k := by
  rw [sum_eq_add q m k]
  ring

theorem sum_insert (q : K → V → ℤ) (m : Records K V) (k : K) (v : V) :
    sum q (m.insert k v) = sum q m - share q m k + q k v := by
  have hentries : (m.insert k v).entries = ⟨k, v⟩ :: (m.erase k).entries := AList.entries_insert
  rw [← sum_erase, sum, hentries, map_cons, sum_cons, add_comm]
  rfl

theorem sum_singleton (q : K → V → ℤ) (k : K) (v : V) : sum q ((∅ : Records K V).insert k v) = q k v := by
  rw [sum_insert, sum_empty, share_none (AList.lookup_empty k), sub_zero, zero_add]

theorem sum_congr (h : ∀ k v, m.lookup k = some v → q k v = q' k v) : sum q m = sum q' m := by
  refine congrArg List.sum (map_congr_left fun e he => ?_)
  exact h _ _ (mem_entries he)

omit [DecidableEq K] in
theorem sum_add (q q' : K → V → ℤ) (m : Records K V) : sum (fun k v => q k v + q' k v) m = sum q m + sum q' m :=
  sum_map_add

omit [DecidableEq K] in
theorem sum_mul (c : ℤ) (q : K → V → ℤ) (m : Records K V) : sum (fun k v => c * q k v) m = c * sum q m :=
  sum_map_mul_left ..

theorem sum_nonneg (h : ∀ k v, m.lookup k = some v → 0 ≤ q k v) : 0 ≤ sum q m := by
  refine List.sum_nonneg fun z hz => ?_
  obtain ⟨e, he, rfl⟩ := mem_map.mp hz
  exact h _ _ (mem_entries he)

def map (f : K → V → V) (m : Records K V) : Records K V where
  entries := m.entries.map fun e => ⟨e.1, f e.1 e.2⟩
  nodupKeys := by
    have hkeys : (m.entries.map fun e => (⟨e.1, f e.1 e.2⟩ : Sigma fun _ : K => V)).keys = m.entries.keys := by
      simp only [List.keys, List.map_map]
      rfl
    rw [List.NodupKeys, hkeys]
    exact m.nodupKeys

omit [DecidableEq K] in
theorem sum_map (f : K → V → V) (q : K → V → ℤ) (m : Records K V) :
    sum q (m.map f) = sum (fun k v => q k (f k v)) m := by
  simp only [sum, map, List.map_map]
  rfl

theorem lookup_map (f : K → V → V) (m : Records K V) (k : K) : (m.map f).lookup k = (m.lookup k).map (f k) := by
  rcases hm : m.lookup k with - | v
  · refine AList.lookup_eq_none.mpr fun hk => AList.lookup_eq_none.mp hm ?_
    obtain ⟨_, hentry, rfl⟩ := mem_map.mp hk
    obtain ⟨e, he, rfl⟩ := mem_map.mp hentry
    exact mem_map.mpr ⟨e, he, rfl⟩
  · refine AList.mem_lookup_iff.mpr ?_
    exact mem_map.mpr ⟨⟨k, v⟩, AList.mem_lookup_iff.mp hm, rfl⟩

/-- Every value is replaced, which may fail. -/
def traverse (f : K → V → Option V) (m : Records K V) : Option (Records K V) :=
  if m.entries.all fun e => (f e.1 e.2).isSome then some (m.map fun k v => (f k v).getD v) else none

variable {f : K → V → Option V}

theorem eq_of_traverse {m' : Records K V} (h : m.traverse f = some m') :
    (∀ k v, m.lookup k = some v → ∃ v', f k v = some v') ∧ m' = m.map fun k v => (f k v).getD v := by
  unfold traverse at h
  split at h
  · rename_i hall
    refine ⟨fun k v hk => ?_, (some.inj h).symm⟩
    exact isSome_iff_exists.mp (all_eq_true.mp hall ⟨k, v⟩ (AList.mem_lookup_iff.mp hk))
  · cases h

omit [DecidableEq K] in
theorem traverse_eq_some {g : K → V → V} (h : ∀ e ∈ m.entries, f e.1 e.2 = some (g e.1 e.2)) :
    m.traverse f = some (m.map g) := by
  have hmap : (m.map fun k v => (f k v).getD v) = m.map g := by
    refine AList.ext (map_congr_left fun e he => ?_)
    dsimp only
    rw [h e he, getD_some]
  rw [traverse, if_pos (all_eq_true.mpr fun e he => isSome_iff_exists.mpr ⟨_, h e he⟩), hmap]

theorem sum_traverse {m' : Records K V} (h : m.traverse f = some m')
    (hq : ∀ k v v', m.lookup k = some v → f k v = some v' → q' k v' = q k v) : sum q' m' = sum q m := by
  obtain ⟨hsome, rfl⟩ := eq_of_traverse h
  rw [sum_map]
  refine sum_congr fun k v hk => ?_
  obtain ⟨v', hv'⟩ := hsome k v hk
  rw [hv']
  exact hq k v v' hk hv'

end Records
end OpenSesame
