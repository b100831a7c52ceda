import Mathlib.Algebra.Order.Field.Rat
import Mathlib.Tactic.FieldSimp
import OpenSesame.Contract.Storage

/-! # Amounts as texts

The scripts hold 64-bit amounts as decimal texts. -/

namespace OpenSesame
open List
namespace ScriptUtils
open SafeInt Strings

/-! ### The checked operations -/

theorem ofNumber_eq_some {z : ℤ} {r : Int64} : ofNumber z = some r ↔ r.toInt = z := by
  refine ⟨ofNumber_toInt, ?_⟩
  rintro rfl
  have hlow := r.le_toInt
  have hhigh := r.toInt_lt
  rw [ofNumber, if_pos (by omega), Int64.ofInt_toInt]

theorem onTexts_toString (f : Int64 → Int64 → Option Int64) (x y : Int64) :
    Text.onTexts f (toString x.toInt) (toString y.toInt) = (f x y).map fun r => toString r.toInt := by
  rw [Text.onTexts, safeStoi64_toString, safeStoi64_toString, Option.map_eq_bind]
  rfl

/-- Except for -1 times the least number, the checked operations give the exact result when it is in range and
    `false` otherwise, and the functions of the scripts give its text or throw; other texts make them throw. -/
theorem safeInt_exact (x y : Int64) (h : ¬(x = -1 ∧ y = Int64.minValue)) :
    safeIntAdd x y = ofNumber (x.toInt + y.toInt) ∧ safeIntSub x y = ofNumber (x.toInt - y.toInt) ∧
    safeIntMulTrapping x y = some (ofNumber (x.toInt * y.toInt)) ∧
    (let text := Option.map fun r : Int64 => toString r.toInt
     Text.int64Add (toString x.toInt) (toString y.toInt) = text (ofNumber (x.toInt + y.toInt)) ∧
     Text.int64Sub (toString x.toInt) (toString y.toInt) = text (ofNumber (x.toInt - y.toInt)) ∧
     Text.int64Mul (toString x.toInt) (toString y.toInt) = some (text (ofNumber (x.toInt * y.toInt)))) ∧
    ∀ a b, safeStoi64 a = none ∨ safeStoi64 b = none →
      Text.int64Add a b = none ∧ Text.int64Sub a b = none ∧ Text.int64Mul a b = some none := by
  have hadd : safeIntAdd x y = ofNumber (x.toInt + y.toInt) :=
    Option.ext fun r => safeIntAdd_eq_some.trans ofNumber_eq_some.symm
  have hsub : safeIntSub x y = ofNumber (x.toInt - y.toInt) :=
    Option.ext fun r => safeIntSub_eq_some.trans ofNumber_eq_some.symm
  have hmul : safeIntMulTrapping x y = some (ofNumber (x.toInt * y.toInt)) := by
    rw [safeIntMulTrapping_eq h]
    exact congrArg some (Option.ext fun r =>
      ⟨fun hr => ofNumber_eq_some.mpr (safeIntMul_exact h hr), fun hr => safeIntMul_of_toInt (ofNumber_eq_some.mp hr)⟩)
  refine ⟨hadd, hsub, hmul, ⟨?_, ?_, ?_⟩, ?_⟩
  · rw [Text.int64Add, onTexts_toString, int64Add, hadd]
  · rw [Text.int64Sub, onTexts_toString, int64Sub, hsub]
  · simp only [Text.int64Mul, safeStoi64_toString, hmul, Option.map_some]
  · rintro a b (ha | hb)
    · simp [Text.int64Add, Text.int64Sub, Text.int64Mul, Text.onTexts, ha]
    · simp [Text.int64Add, Text.int64Sub, Text.int64Mul, Text.onTexts, hb]

/-- The product of -1 and the least number is out of range, and the check of it traps. -/
theorem safeIntMul_traps : safeIntMulTrapping (-1) Int64.minValue = none ∧
    ofNumber ((-1 : Int64).toInt * Int64.minValue.toInt) = none ∧
    Text.int64Mul "-1" "-9223372036854775808" = none := by
  decide +kernel

theorem safeInt_exact_overflow : safeIntMulTrapping Int64.maxValue 2 = some none := by
  have hexact := (safeInt_exact Int64.maxValue 2 (by decide)).2.2.1
  rw [hexact]
  decide +kernel

/-! ### `toBaseUnit` -/

/-- The digits before the dot and behind it. -/
def decimalParts (s : List Char) : List Char × List Char :=
  (s.takeWhile (· ≠ '.'), (s.dropWhile (· ≠ '.')).tail)

/-- The number a decimal text denotes. -/
def decimalValue (s : List Char) : ℚ :=
  Nat.ofDigitChars 10 (decimalParts s).1 0 + Nat.ofDigitChars 10 (decimalParts s).2 0 / 10 ^ (decimalParts s).2.length

theorem digitChar_of_isDigit {c : Char} (hc : c.isDigit = true) :
    c.toNat - '0'.toNat < 10 ∧ (c.toNat - '0'.toNat).digitChar = c := by
  have hrange : 48 ≤ c.toNat ∧ c.toNat ≤ 57 := Char.isDigit_iff_toNat.mp hc
  have hall : ∀ n < 10, n.digitChar = Char.ofNat (48 + n) := by decide
  have hlt : c.toNat - '0'.toNat < 10 := by
    change c.toNat - 48 < 10
    omega
  refine ⟨hlt, ?_⟩
  rw [hall _ hlt]
  change Char.ofNat (48 + (c.toNat - 48)) = c
  rw [Nat.add_sub_cancel' hrange.1, Char.ofNat_toNat]

theorem toDigits_ofDigitChars {l : List Char} (hl : ∀ c ∈ l, c.isDigit = true) (hne : l ≠ [])
    (hhead : l.head? ≠ some '0') : Nat.toDigits 10 (Nat.ofDigitChars 10 l 0) = l := by
  induction l using reverseRecOn with
  | nil => exact absurd rfl hne
  | append_singleton l c ih =>
    obtain ⟨hlt, hchar⟩ := digitChar_of_isDigit (hl c (by simp))
    have hlast : Nat.toDigits 10 (c.toNat - '0'.toNat) = [c] := by
      rw [Nat.toDigits_of_lt_base hlt, hchar]
    rw [Nat.ofDigitChars_append, Nat.ofDigitChars_cons, Nat.ofDigitChars_nil]
    cases l with
    | nil => simpa using hlast
    | cons d l =>
      have ih := ih (fun e he => hl e (mem_append_left _ he)) (by simp) hhead
      have hpos : 0 < Nat.ofDigitChars 10 (d :: l) 0 := by
        rw [Nat.pos_iff_ne_zero]
        intro hzero
        rw [hzero, Nat.toDigits_zero] at ih
        cases ih
        exact hhead rfl
      rw [← Nat.toDigits_append_toDigits (by decide) hpos hlt, ih, hlast]

theorem ofDigitChars_dropWhile (l : List Char) :
    Nat.ofDigitChars 10 (l.dropWhile (· == '0')) 0 = Nat.ofDigitChars 10 l 0 := by
  induction l with
  | nil => rfl
  | cons c l ih =>
    by_cases hc : c = '0'
    · simpa [hc, Nat.ofDigitChars_cons] using ih
    · simp [hc]

theorem idxOf_dot {whole : List Char} (h : '.' ∉ whole) (fraction : List Char) :
    (whole ++ '.' :: fraction).idxOf? '.' = some whole.length := by
  induction whole with
  | nil => simp [idxOf?_cons]
  | cons c whole ih =>
    simp only [mem_cons, not_or] at h
    simp [idxOf?_cons, Ne.symm h.1, ih h.2]

theorem decimalParts_append {whole : List Char} (h : '.' ∉ whole) (fraction : List Char) :
    decimalParts (whole ++ '.' :: fraction) = (whole, fraction) := by
  have hall : ∀ c ∈ whole, decide (c ≠ '.') = true := fun c hc => by
    simpa using fun hdot : c = '.' => h (hdot ▸ hc)
  rw [decimalParts, takeWhile_append_of_pos hall, dropWhile_append_of_pos hall]
  simp

theorem eraseZeros_eq {ds : List Char} (hds : ∀ c ∈ ds, c.isDigit = true) (n : ℕ) :
    eraseZeros (ds ++ replicate n '0') = (ds ++ replicate n '0').dropWhile (· == '0') := by
  refine if_neg fun hdot => ?_
  rcases mem_append.mp ((dropWhile_sublist _).mem (mem_of_head? hdot)) with hmem | hmem
  · exact absurd (hds '.' hmem) (by decide)
  · exact absurd (eq_of_mem_replicate hmem) (by decide)

theorem multiplyDecimal_eq {s : List Char} {decimals : ℕ} (h : isDecNumber s decimals = true) :
    (∀ c ∈ (decimalParts s).1 ++ (decimalParts s).2, c.isDigit = true) ∧ (decimalParts s).2.length ≤ decimals ∧
    multiplyDecimal s decimals = ((decimalParts s).1 ++ (decimalParts s).2 ++
      replicate (decimals - (decimalParts s).2.length) '0').dropWhile (· == '0') := by
  simp only [isDecNumber, Bool.and_eq_true, decide_eq_true_eq, all_eq_true, Bool.or_eq_true, beq_iff_eq] at h
  obtain ⟨⟨⟨⟨-, hchars⟩, hcount⟩, -⟩, hplaces⟩ := h
  by_cases hdot : '.' ∈ s
  · obtain ⟨whole, fraction, rfl, hwhole⟩ := eq_append_cons_of_mem hdot
    rw [idxOf_dot hwhole] at hplaces
    have hfraction : '.' ∉ fraction := by
      intro hmem
      rw [count_append, count_cons_self] at hcount
      have := count_pos_iff.mpr hmem
      omega
    have hdigit : ∀ c ∈ whole ++ fraction, c.isDigit = true := by
      intro c hc
      rcases mem_append.mp hc with hc | hc
      · exact (hchars c (by simp [hc])).resolve_right fun h => hwhole (h ▸ hc)
      · exact (hchars c (by simp [hc])).resolve_right fun h => hfraction (h ▸ hc)
    have hright : (whole ++ '.' :: fraction).length - whole.length - 1 = fraction.length := by
      rw [length_append, length_cons]
      omega
    rw [Option.all_some, hright, decide_eq_true_eq] at hplaces
    have herase : (whole ++ '.' :: fraction).eraseIdx whole.length = whole ++ fraction := by
      simp [eraseIdx_append_of_length_le]
    rw [decimalParts_append hwhole]
    refine ⟨hdigit, hplaces, ?_⟩
    simp only [multiplyDecimal, idxOf_dot hwhole, hright, if_pos hplaces, herase]
    exact eraseZeros_eq hdigit _
  · have hdigit : ∀ c ∈ s, c.isDigit = true := fun c hc => (hchars c hc).resolve_right fun h => hdot (h ▸ hc)
    have hparts : decimalParts s = (s, []) := by
      have hall : ∀ c ∈ s, decide (c ≠ '.') = true := fun c hc => by simpa using fun h : c = '.' => hdot (h ▸ hc)
      rw [decimalParts, takeWhile_eq_self_iff.mpr hall, dropWhile_eq_nil_iff.mpr hall]
      rfl
    rw [hparts]
    refine ⟨by simpa using hdigit, Nat.zero_le _, ?_⟩
    simp only [multiplyDecimal, idxOf?_eq_none_iff.mpr hdot, append_nil]
    exact eraseZeros_eq hdigit _

theorem ofDigitChars_padded (whole : List Char) {fraction : List Char} {n : ℕ} (h : fraction.length ≤ n) :
    (Nat.ofDigitChars 10 (whole ++ fraction ++ replicate (n - fraction.length) '0') 0 : ℚ) =
      (Nat.ofDigitChars 10 whole 0 + Nat.ofDigitChars 10 fraction 0 / 10 ^ fraction.length) * 10 ^ n := by
  obtain ⟨k, rfl⟩ := Nat.exists_eq_add_of_le h
  rw [Nat.ofDigitChars_append, Nat.ofDigitChars_append, Nat.ofDigitChars_replicate_zero,
    Nat.ofDigitChars_eq_ofDigitChars_zero (l := fraction), Nat.add_sub_cancel_left]
  push_cast
  rw [pow_add]
  field_simp

theorem multiplyDecimal_digits {s : List Char} (h : isDecNumber s buDecimals = true) :
    ∃ k : ℕ, (k : ℚ) = decimalValue s * 10 ^ 8 ∧
      multiplyDecimal s buDecimals = if k = 0 then [] else Nat.toDigits 10 k := by
  obtain ⟨hdigits, hplaces, hmul⟩ := multiplyDecimal_eq h
  have hvalue := ofDigitChars_padded (decimalParts s).1 hplaces
  have hall : ∀ c ∈ (decimalParts s).1 ++ (decimalParts s).2 ++
      replicate (buDecimals - (decimalParts s).2.length) '0', c.isDigit = true := by
    intro c hc
    rcases mem_append.mp hc with hc | hc
    · exact hdigits c hc
    · rw [eq_of_mem_replicate hc]
      decide
  generalize (decimalParts s).1 ++ (decimalParts s).2 ++
    replicate (buDecimals - (decimalParts s).2.length) '0' = ds at hmul hvalue hall
  refine ⟨Nat.ofDigitChars 10 ds 0, hvalue, ?_⟩
  have htext (hne : ds.dropWhile (· == '0') ≠ []) :
      Nat.toDigits 10 (Nat.ofDigitChars 10 ds 0) = ds.dropWhile (· == '0') := by
    rw [← ofDigitChars_dropWhile]
    refine toDigits_ofDigitChars (fun c hc => hall c ((dropWhile_sublist _).mem hc)) hne ?_
    have hnot := head?_dropWhile_not (· == '0') ds
    intro hhead
    rw [hhead] at hnot
    exact absurd hnot (by decide)
  rw [hmul]
  split
  · rename_i hzero
    by_contra hne
    have hnot := head?_dropWhile_not (· == '0') ds
    rw [← htext hne, hzero, Nat.toDigits_zero] at hnot
    cases hnot
  · rename_i hne
    refine (htext fun hnil => hne ?_).symm
    rw [← ofDigitChars_dropWhile, hnil]
    rfl

/-- `toBaseUnit` of an accepted text returns the text of the number times `10 ^ 8`, or throws when that is out of
range, just when the number is not zero. -/
theorem toBaseUnit_exact (s : String) (h : isDecNumber s.toList buDecimals = true) :
    (∃ k : ℕ, (k : ℚ) = decimalValue s.toList * 10 ^ 8 ∧
      toBaseUnit s = if k ≤ 2 ^ 63 - 1 then some (toString k) else none) ↔ decimalValue s.toList ≠ 0 := by
  obtain ⟨k, hk, hmul⟩ := multiplyDecimal_digits h
  have hunit : toBaseUnit s = if (Strings.safeStoi64 (String.ofList (multiplyDecimal s.toList buDecimals))).isSome then
      some (String.ofList (multiplyDecimal s.toList buDecimals)) else none := by
    rw [toBaseUnit, if_pos h]
  constructor
  · rintro ⟨k', hk', hresult⟩ hzero
    -- the text of zero has lost all its digits
    rw [hzero, zero_mul, Nat.cast_eq_zero] at hk hk'
    rw [hmul, if_pos hk] at hunit
    rw [hunit, hk'] at hresult
    exact absurd hresult (by decide)
  · intro hzero
    have hne : k ≠ 0 := by
      rintro rfl
      rw [Nat.cast_zero] at hk
      exact hzero ((mul_eq_zero.mp hk.symm).resolve_right (by norm_num))
    refine ⟨k, hk, ?_⟩
    rw [hunit, hmul, if_neg hne, ← Nat.toString_eq_ofList_toDigits]
    exact if_congr (isSome_safeStoi64_toString _) rfl rfl

/-- A text of zero is accepted, but loses all its characters, so that `toBaseUnit` throws. -/
theorem toBaseUnit_zero_throws : isDecNumber "0".toList buDecimals = true ∧ decimalValue "0".toList * 10 ^ 8 = 0 ∧
    toBaseUnit "0" = none := by
  refine ⟨by decide, ?_, by decide⟩
  simp [decimalValue, decimalParts, Nat.ofDigitChars_cons]

theorem toBaseUnit_exact_point_five : isDecNumber ".5".toList buDecimals = true ∧ ∃ k : ℕ,
    (k : ℚ) = decimalValue ".5".toList * 10 ^ 8 ∧
      toBaseUnit ".5" = if k ≤ 2 ^ 63 - 1 then some (toString k) else none :=
  ⟨by decide, (toBaseUnit_exact ".5" (by decide)).mpr
    (by simp [decimalValue, decimalParts, Nat.ofDigitChars_cons])⟩

end ScriptUtils
end OpenSesame
