import Mathlib.Tactic.Ring
import Mathlib.Tactic.Linarith

/-! # `utils/base_int.h`: checked arithmetic on `int64_t`

`none` stands for a function that returns `false` and leaves its result argument alone. -/

namespace OpenSesame
open Int64
namespace SafeInt

def safeIntAdd (x y : Int64) : Option Int64 :=
  let sum := x + y
  let negOver := x < 0 ∧ y < 0 ∧ sum ≥ 0
  let posOver := x ≥ 0 ∧ y ≥ 0 ∧ sum < 0
  if ¬ negOver ∧ ¬ posOver then some sum else none

def safeIntSub (x y : Int64) : Option Int64 :=
  let dif := x - y
  let negOver := x < 0 ∧ y ≥ 0 ∧ dif ≥ 0
  let posOver := x ≥ 0 ∧ y < 0 ∧ dif ≤ 0
  if ¬ negOver ∧ ¬ posOver then some dif else none

/-- `SafeIntMul<int64_t>`: the product is accepted when dividing it by `x` gives `y` back. -/
def safeIntMul (x y : Int64) : Option Int64 :=
  let mul := x * y
  if x = 0 ∨ mul / x = y then some mul else none

/-- The division of the machine; `none` where it traps. -/
def divide (x y : Int64) : Option Int64 :=
  if y = 0 ∨ (x = minValue ∧ y = -1) then none else some (x / y)

/-- `SafeIntMul<int64_t>` with the division of the machine: the outer `none` is its trap. -/
def safeIntMulTrapping (x y : Int64) : Option (Option Int64) :=
  let mul := x * y
  if x = 0 then some (some mul)
  else (divide mul x).map fun quotient => if quotient = y then some mul else none

/-! ### Addition and subtraction are exact -/

theorem bmod_of_range {z : Int} (h : -2 ^ 63 ≤ z) (h' : z < 2 ^ 63) : z.bmod (2 ^ 64) = z := by
  rw [Int.bmod_eq_of_le] <;> omega

theorem toInt_add_of_range {x y : Int64} (h : -2 ^ 63 ≤ x.toInt + y.toInt) (h' : x.toInt + y.toInt < 2 ^ 63) :
    (x + y).toInt = x.toInt + y.toInt := by
  rw [toInt_add, bmod_of_range h h']

theorem toInt_sub_of_range {x y : Int64} (h : -2 ^ 63 ≤ x.toInt - y.toInt) (h' : x.toInt - y.toInt < 2 ^ 63) :
    (x - y).toInt = x.toInt - y.toInt := by
  rw [toInt_sub, bmod_of_range h h']

theorem bmod_cases {z : Int} (h : -2 ^ 64 ≤ z) (h' : z < 2 ^ 64) :
    z.bmod (2 ^ 64) = z ∨ (z < -2 ^ 63 ∧ z.bmod (2 ^ 64) = z + 2 ^ 64) ∨
      (2 ^ 63 ≤ z ∧ z.bmod (2 ^ 64) = z - 2 ^ 64) := by
  rcases lt_or_ge z (-2 ^ 63) with hlow | hlow
  · refine Or.inr (Or.inl ⟨hlow, ?_⟩)
    rw [← Int.add_bmod_right, bmod_of_range] <;> push_cast <;> omega
  · rcases lt_or_ge z (2 ^ 63) with hhigh | hhigh
    · exact Or.inl (bmod_of_range hlow hhigh)
    · refine Or.inr (Or.inr ⟨hhigh, ?_⟩)
      rw [← Int.sub_bmod_right, bmod_of_range] <;> push_cast <;> omega

theorem toInt_add_one {a : Int64} (h : a ≠ maxValue) : (a + 1).toInt = a.toInt + 1 := by
  have hlt := a.toInt_lt
  have hge := a.le_toInt
  have hmax : maxValue.toInt = 2 ^ 63 - 1 := rfl
  have hne : a.toInt ≠ maxValue.toInt := fun hmax => h (toInt_inj.mp hmax)
  have h1 : (1 : Int64).toInt = 1 := rfl
  rw [toInt_add, h1]
  rcases bmod_cases (z := a.toInt + 1) (by omega) (by omega) with h | ⟨hlow, h⟩ | ⟨hhigh, h⟩ <;> omega

variable {x y r : Int64}

theorem safeIntAdd_eq_some : safeIntAdd x y = some r ↔ r.toInt = x.toInt + y.toInt := by
  have hx := x.toInt_lt
  have hx' := x.le_toInt
  have hy := y.toInt_lt
  have hy' := y.le_toInt
  have hr := r.toInt_lt
  have hr' := r.le_toInt
  simp only [safeIntAdd, lt_iff_toInt_lt, ge_iff_le, le_iff_toInt_le, toInt_zero,
    toInt_add, Option.ite_none_right_eq_some, Option.some.injEq, ← toInt_inj]
  rcases bmod_cases (z := x.toInt + y.toInt) (by omega) (by omega) with h | ⟨hlow, h⟩ | ⟨hhigh, h⟩ <;> rw [h] <;> omega

theorem safeIntSub_eq_some : safeIntSub x y = some r ↔ r.toInt = x.toInt - y.toInt := by
  have hx := x.toInt_lt
  have hx' := x.le_toInt
  have hy := y.toInt_lt
  have hy' := y.le_toInt
  have hr := r.toInt_lt
  have hr' := r.le_toInt
  simp only [safeIntSub, lt_iff_toInt_lt, ge_iff_le, le_iff_toInt_le, toInt_zero,
    toInt_sub, Option.ite_none_right_eq_some, Option.some.injEq, ← toInt_inj]
  rcases bmod_cases (z := x.toInt - y.toInt) (by omega) (by omega) with h | ⟨hlow, h⟩ | ⟨hhigh, h⟩ <;> rw [h] <;> omega

theorem safeIntAdd_ne_none (h : -2 ^ 63 ≤ x.toInt + y.toInt) (h' : x.toInt + y.toInt < 2 ^ 63) :
    safeIntAdd x y ≠ none := by
  rw [safeIntAdd_eq_some.mpr (toInt_add_of_range h h')]
  exact nofun

theorem safeIntSub_ne_none (h : -2 ^ 63 ≤ x.toInt - y.toInt) (h' : x.toInt - y.toInt < 2 ^ 63) :
    safeIntSub x y ≠ none := by
  rw [safeIntSub_eq_some.mpr (toInt_sub_of_range h h')]
  exact nofun

theorem toInt_ne_zero (hx : x ≠ 0) : x.toInt ≠ 0 := fun hzero => hx (toInt_inj.mp (hzero.trans toInt_zero.symm))

/-- Only the least number divided by -1 leaves the range. -/
theorem tdiv_range {m x : Int64} (hx : x ≠ 0) (h : ¬(m = minValue ∧ x = -1)) : m.toInt.tdiv x.toInt < 2 ^ 63 := by
  have hmin : minValue.toInt = -2 ^ 63 := rfl
  have hone : (-1 : Int64).toInt = -1 := rfl
  have hlow := m.le_toInt
  have hhigh := m.toInt_lt
  have hx0 := toInt_ne_zero hx
  have habs : (m.toInt.tdiv x.toInt).natAbs = m.toInt.natAbs / x.toInt.natAbs := Int.natAbs_tdiv ..
  by_contra hge
  have hquot : 2 ^ 63 ≤ m.toInt.natAbs / x.toInt.natAbs := by omega
  have hmul : 2 ^ 63 * x.toInt.natAbs ≤ m.toInt.natAbs := (Nat.le_div_iff_mul_le (by omega)).mp hquot
  rcases (by omega : x.toInt = 1 ∨ x.toInt = -1) with h1 | h1
  · rw [h1, Int.tdiv_one] at hge
    omega
  · exact h ⟨toInt_inj.mp (by omega), toInt_inj.mp (by omega)⟩

/-- The check of the product is exact but for -1 and the least number: the product that is kept differs from the
true one by less than the other factor, so not by a multiple of `2 ^ 64`. -/
theorem safeIntMul_exact (hsafe : ¬(x = -1 ∧ y = minValue)) (h : safeIntMul x y = some r) :
    r.toInt = x.toInt * y.toInt := by
  unfold safeIntMul at h
  dsimp only at h
  split at h
  · rename_i hok
    cases h
    by_cases hx : x = 0
    · simp [hx]
    have hdiv := hok.resolve_left hx
    have hx0 := toInt_ne_zero hx
    have hquot : (x * y).toInt.tdiv x.toInt = y.toInt := by
      have hlow := (x * y).le_toInt
      have hhigh := (x * y).toInt_lt
      have habs := Int.natAbs_tdiv_le_natAbs (x * y).toInt x.toInt
      have hrange := tdiv_range (m := x * y) hx (by
        rintro ⟨hmul, rfl⟩
        rw [hmul] at hdiv
        exact hsafe ⟨rfl, hdiv.symm⟩)
      have hbmod : ((x * y).toInt.tdiv x.toInt).bmod (2 ^ 64) = y.toInt := by rw [← toInt_div, hdiv]
      rw [bmod_of_range (by omega) hrange] at hbmod
      exact hbmod
    have hsplit := Int.mul_tdiv_add_tmod (x * y).toInt x.toInt
    rw [hquot] at hsplit
    have hrest : ((x * y).toInt.tmod x.toInt).natAbs < x.toInt.natAbs := by
      rw [Int.natAbs_tmod]
      exact Nat.mod_lt _ (Int.natAbs_pos.mpr hx0)
    have hxlow := x.le_toInt
    have hxhigh := x.toInt_lt
    obtain ⟨k, hk⟩ : (2 ^ 64 : ℤ) ∣ (x * y).toInt - x.toInt * y.toInt := by
      rw [toInt_mul]
      exact Int.dvd_bmod_sub_self
    omega
  · cases h

theorem safeIntMul_toInt (hsign : 0 ≤ x.toInt ∨ 0 ≤ y.toInt) (h : safeIntMul x y = some r) :
    r.toInt = x.toInt * y.toInt := by
  refine safeIntMul_exact ?_ h
  rintro ⟨rfl, rfl⟩
  exact absurd hsign (by decide)

theorem safeIntMul_of_toInt (hr : r.toInt = x.toInt * y.toInt) : safeIntMul x y = some r := by
  have hmul : x * y = r := by
    rw [← toInt_inj, toInt_mul, ← hr, bmod_of_range r.le_toInt r.toInt_lt]
  unfold safeIntMul
  rw [hmul, if_pos]
  by_cases hx : x = 0
  · exact .inl hx
  · right
    rw [← toInt_inj, toInt_div, hr, Int.mul_tdiv_cancel_left _ (toInt_ne_zero hx), bmod_of_range y.le_toInt y.toInt_lt]

theorem safeIntMulTrapping_eq (hsafe : ¬(x = -1 ∧ y = minValue)) : safeIntMulTrapping x y = some (safeIntMul x y) := by
  by_cases hx : x = 0
  · simp [safeIntMulTrapping, safeIntMul, hx]
  · have hdefined : ¬(x * y = minValue ∧ x = -1) := by
      rintro ⟨hmul, rfl⟩
      rw [Int64.neg_mul, Int64.one_mul] at hmul
      refine hsafe ⟨rfl, ?_⟩
      rw [← Int64.neg_neg (a := y), hmul]
      rfl
    simp [safeIntMulTrapping, safeIntMul, divide, hx, hdefined]

theorem safeIntMul_nonneg (hx : 0 ≤ x.toInt) (hy : 0 ≤ y.toInt) (h : safeIntMul x y = some r) : 0 ≤ r.toInt := by
  rw [safeIntMul_toInt (.inl hx) h]
  exact Int.mul_nonneg hx hy

theorem toInt_div_ofNat {x : Int64} {n : ℕ} (hx : 0 ≤ x.toInt) (hn : n < 2 ^ 63) :
    (x / Int64.ofNat n).toInt = x.toInt / n := by
  have hlt := x.toInt_lt
  have hle := Int.ediv_le_self n hx
  have hge := Int.ediv_nonneg hx (Int.natCast_nonneg n)
  rw [toInt_div, toInt_ofNat_of_lt hn, Int.tdiv_eq_ediv_of_nonneg hx, bmod_of_range (by omega) (by omega)]

theorem toInt_foldl_sub {α : Type} {y : Int64} (hy : 0 ≤ y.toInt) (l : List α) :
    ∀ {x : Int64}, l.length * y.toInt ≤ x.toInt →
      (l.foldl (fun x _ => x - y) x).toInt = x.toInt - l.length * y.toInt := by
  induction l with
  | nil => simp
  | cons _ l ih =>
    intro x hx
    have hlt := x.toInt_lt
    have hlen : ((l.length + 1 : ℕ) : ℤ) * y.toInt = l.length * y.toInt + y.toInt := by
      push_cast
      ring
    have hnonneg : 0 ≤ (l.length : ℤ) * y.toInt := Int.mul_nonneg (Int.natCast_nonneg _) hy
    rw [List.length_cons, hlen] at hx ⊢
    have hsub : (x - y).toInt = x.toInt - y.toInt := toInt_sub_of_range (by omega) (by omega)
    rw [List.foldl_cons, ih (by omega), hsub]
    omega

end SafeInt
end OpenSesame
