import Mathlib.Algebra.BigOperators.Finprod
import Mathlib.Algebra.Order.BigOperators.Group.Finset
import Mathlib.Data.Int.Order.Basic
import Mathlib.Tactic.Ring

/-! # The total of a quantity over the entries of a map

A partial map with finitely many entries, as a store of accounts is, and the sum of an integer quantity over them.
Writing an entry changes the sum by the new entry minus the one it replaces. -/

namespace OpenSesame
open Function

variable {K V : Type}

def FiniteMap (m : K → Option V) : Prop := {k | m k ≠ none}.Finite

def share (q : V → ℤ) (m : K → Option V) (k : K) : ℤ := (m k).elim 0 q

/-- The sum of a quantity over the entries. -/
noncomputable def total (q : V → ℤ) (m : K → Option V) : ℤ := ∑ᶠ k, share q m k

variable {q : V → ℤ} {m : K → Option V} {k : K} {v : V}

theorem share_some (h : m k = some v) : share q m k = q v := by
  rw [share, h, Option.elim_some]

theorem share_none (h : m k = none) : share q m k = 0 := by
  rw [share, h, Option.elim_none]

theorem FiniteMap.support (h : FiniteMap m) (q : V → ℤ) : (support (share q m)).Finite := by
  refine h.subset ?_
  intro k hk hnone
  exact hk (share_none hnone)

theorem total_congr {W : Type} {q' : W → ℤ} {m' : K → Option W} (h : ∀ k, share q m k = share q' m' k) :
    total q m = total q' m' :=
  finsum_congr h

section Update
variable [DecidableEq K]

theorem FiniteMap.update (h : FiniteMap m) (k : K) (r : Option V) : FiniteMap (update m k r) := by
  refine (h.insert k).subset ?_
  intro k' hk'
  by_cases hkk : k' = k
  · exact .inl hkk
  · refine .inr ?_
    rwa [Set.mem_ofPred_eq, update_of_ne hkk] at hk'

theorem share_update_of_ne {r : Option V} {k' : K} (h : k' ≠ k) : share q (update m k r) k' = share q m k' := by
  rw [share, share, update_of_ne h]

theorem total_eq_add (h : FiniteMap m) (q : V → ℤ) (k : K) : total q m = share q m k + total q (update m k none) := by
  have hrest : ∀ k' ≠ k, share q (update m k none) k' = share q m k' := fun k' hk' => share_update_of_ne hk'
  have hself : share q (update m k none) k = 0 := share_none (update_self ..)
  have hsplit : share q m = fun k' => (if k' = k then share q m k else 0) + share q (update m k none) k' := by
    funext k'
    by_cases hk' : k' = k
    · subst hk'
      simp [hself]
    · simp [hk', hrest k' hk']
  have hfinite : (support fun k' => if k' = k then share q m k else 0).Finite := by
    refine (Set.finite_singleton k).subset ?_
    intro k' hk'
    by_contra hne
    exact hk' (if_neg hne)
  rw [total, hsplit, finsum_add_distrib hfinite ((h.update k none).support q), finsum_eq_single _ k]
  · simp [total, hself]
  · intro k' hk'
    exact if_neg hk'

theorem total_update (h : FiniteMap m) (q : V → ℤ) (k : K) (v : V) :
    total q (update m k (some v)) = total q m - share q m k + q v := by
  rw [total_eq_add h q k, total_eq_add (h.update k (some v)) q k, share_some (update_self ..), update_idem]
  ring

end Update

theorem total_nonneg (h : ∀ k v, m k = some v → 0 ≤ q v) : 0 ≤ total q m := by
  refine finsum_nonneg fun k => ?_
  rcases hk : m k with - | v
  · rw [share_none hk]
  · rw [share_some hk]
    exact h k v hk

theorem share_le_total (hm : FiniteMap m) (h : ∀ k v, m k = some v → 0 ≤ q v) (hk : m k = some v) :
    q v ≤ total q m := by
  classical
  rw [total_eq_add hm q k, share_some hk]
  have hrest : 0 ≤ total q (update m k none) := by
    refine total_nonneg fun k' v' hk' => ?_
    by_cases hkk : k' = k
    · subst hkk
      rw [update_self] at hk'
      cases hk'
    · rw [update_of_ne hkk] at hk'
      exact h k' v' hk'
  omega

end OpenSesame
