import Mathlib.Algebra.BigOperators.Group.Finset.Basic
import OpenSesame.Common.General

/-! # The supply of coins

The block reward falls by a quarter every period, rounded up, until it is nothing. -/

namespace OpenSesame
namespace General

def nextReward (result : Int64) : Int64 :=
  if result ≤ 0 then 0
  else if result < 4 then result * 3 / 4
  else result - result >>> 2

theorem decrease_zero (n : ℕ) : decrease n 0 = 0 := by
  cases n <;> rfl

theorem decrease_eq (n : ℕ) (result : Int64) : decrease (n + 1) result = decrease n (nextReward result) := by
  rw [decrease, nextReward]
  split
  · rw [decrease_zero]
  · split <;> rfl

theorem decrease_succ (n : ℕ) : ∀ result, decrease (n + 1) result = nextReward (decrease n result) := by
  induction n with
  | zero => exact fun result => decrease_eq 0 result
  | succ n ih =>
    intro result
    rw [decrease_eq, ih, ← decrease_eq]

theorem toInt_shiftRight_two (r : Int64) : (r >>> 2).toInt = r.toInt / 4 := by
  have hshift : ((2 : Int64).toBitVec.smod 64).toNat = 2 := by decide
  rw [← Int64.toInt_toBitVec, Int64.toBitVec_shiftRight, BitVec.sshiftRight_eq', hshift, BitVec.toInt_sshiftRight,
    Int.shiftRight_eq_div_pow, Int64.toInt_toBitVec]
  rfl

theorem nextReward_le {r : Int64} (h : 0 ≤ r.toInt) :
    0 ≤ (nextReward r).toInt ∧ r.toInt + 8 * (nextReward r).toInt ≤ 8 * r.toInt := by
  unfold nextReward
  split
  · simp only [Int64.toInt_zero]
    omega
  · rename_i hpos
    rw [Int64.le_iff_toInt_le, Int64.toInt_zero] at hpos
    split
    · rename_i hsmall
      have hlt : r.toInt < 4 := by simpa [Int64.lt_iff_toInt_lt] using hsmall
      have hfew : r = 1 ∨ r = 2 ∨ r = 3 := by
        simp only [← Int64.toInt_inj]
        have h1 : (1 : Int64).toInt = 1 := rfl
        have h2 : (2 : Int64).toInt = 2 := rfl
        have h3 : (3 : Int64).toInt = 3 := rfl
        omega
      rcases hfew with rfl | rfl | rfl <;> decide
    · rename_i hlarge
      have hge : 4 ≤ r.toInt := by simpa [Int64.lt_iff_toInt_lt] using hlarge
      have hlt := r.toInt_lt
      have hquarter := toInt_shiftRight_two r
      have hsub : (r - r >>> 2).toInt = r.toInt - r.toInt / 4 := by
        rw [SafeInt.toInt_sub_of_range] <;> omega
      rw [hsub]
      omega

def periodReward (period : ℕ) : ℤ := (decrease period rewardInitValue).toInt

theorem periodReward_nonneg (p : ℕ) : 0 ≤ periodReward p := by
  induction p with
  | zero => decide
  | succ p ih =>
    rw [periodReward, decrease_succ]
    exact (nextReward_le ih).1

theorem periodReward_succ (p : ℕ) : periodReward p + 8 * periodReward (p + 1) ≤ 8 * periodReward p := by
  rw [periodReward, periodReward, decrease_succ]
  exact (nextReward_le (periodReward_nonneg p)).2

theorem getBlockReward_eq {n : ℕ} (h : n < 2 ^ 63) :
    (getBlockReward (Int64.ofNat n)).toInt = periodReward (n / 15768000) := by
  have hnat : (Int64.ofNat n).toInt = n := Int64.toInt_ofNat_of_lt h
  have hperiod : (Int64.ofNat n / rewardPeriod).toInt = ((n / 15768000 : ℕ) : ℤ) := by
    rw [show rewardPeriod = Int64.ofNat 15768000 from rfl, SafeInt.toInt_div_ofNat (by omega) (by decide), hnat]
    push_cast
    rfl
  rw [getBlockReward, hperiod, Int.toNat_natCast, periodReward]

theorem getBlockReward_nonneg (height : Int64) : 0 ≤ (getBlockReward height).toInt := periodReward_nonneg _

theorem sum_rewards_le {n : ℕ} (hn : n ≤ 2 ^ 63) :
    ∑ i ∈ Finset.range n, (getBlockReward (Int64.ofNat i)).toInt + 8 * 15768000 * periodReward (n / 15768000) ≤
      8 * 15768000 * periodReward 0 + (n % 15768000 : ℕ) * periodReward (n / 15768000) := by
  induction n with
  | zero => simp
  | succ n ih =>
    have ih := ih (by omega)
    rw [Finset.sum_range_succ, getBlockReward_eq (by omega)]
    rcases Nat.lt_or_ge (n % 15768000 + 1) 15768000 with hin | hend
    · have hmod : (n + 1) % 15768000 = n % 15768000 + 1 := by omega
      have hdiv : (n + 1) / 15768000 = n / 15768000 := by omega
      rw [hmod, hdiv, Nat.cast_add_one, add_mul, one_mul]
      linarith
    · have hlast : n % 15768000 = 15767999 := by omega
      have hmod : (n + 1) % 15768000 = 0 := by omega
      have hdiv : (n + 1) / 15768000 = n / 15768000 + 1 := by omega
      have hnext := periodReward_succ (n / 15768000)
      rw [hlast] at ih
      rw [hmod, hdiv]
      push_cast at ih ⊢
      linarith

theorem supply_lt {n : ℕ} (hn : n ≤ 2 ^ 63) :
    100000000000000000 + ∑ i ∈ Finset.range n, (getBlockReward (Int64.ofNat i)).toInt < 2 ^ 63 := by
  have hsum := sum_rewards_le hn
  have hfirst : periodReward 0 = 800000000 := by decide
  have hnonneg := periodReward_nonneg (n / 15768000)
  have hrest : ((n % 15768000 : ℕ) : ℤ) * periodReward (n / 15768000) ≤ 15768000 * periodReward (n / 15768000) := by
    refine mul_le_mul_of_nonneg_right ?_ hnonneg
    exact_mod_cast (Nat.mod_lt n (by norm_num)).le
  linarith

end General
end OpenSesame
