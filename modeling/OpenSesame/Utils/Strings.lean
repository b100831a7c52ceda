import Mathlib.Algebra.Group.Int.Defs
import Mathlib.Algebra.Group.Nat.Defs
import Mathlib.Data.Int.Init
import Mathlib.Data.List.TakeWhile
import Mathlib.Order.MinMax

/-! # `utils/strings.h`: numbers in texts, trimming

`size` of a text is its number of bytes. -/

namespace OpenSesame
namespace Strings

def size (s : String) : ℕ := s.utf8ByteSize

/-- `IsSpace`: `isspace` of the C locale. -/
def isSpace (c : Char) : Bool := c == ' ' || (9 ≤ c.toNat && c.toNat ≤ 13)

def trim (s : String) : String :=
  String.ofList ((s.toList.dropWhile isSpace).reverse.dropWhile isSpace).reverse

/-- The number the leading digits spell. -/
def leadingNat (l : List Char) : ℕ :=
  (l.takeWhile Char.isDigit).foldl (fun n c => 10 * n + (c.toNat - '0'.toNat)) 0

/-- `atoi` and `atoll` before they are cut to size: blanks, a sign and the leading digits. -/
def leadingInt (s : String) : Int :=
  match s.toList.dropWhile isSpace with
  | '-' :: l => - (leadingNat l : Int)
  | '+' :: l => leadingNat l
  | l => leadingNat l

/-- `Stoi`: out of range, `atoi` stops at the ends of `int`. -/
def stoi (s : String) : Int := max (-2 ^ 31) (min (2 ^ 31 - 1) (leadingInt s))

/-- `Stoi64`: out of range, `atoll` stops at the ends of `int64_t`. -/
def stoi64 (s : String) : Int64 := Int64.ofInt (max (-2 ^ 63) (min (2 ^ 63 - 1) (leadingInt s)))

/-- `SafeStoi64`: the text is the one the number is printed as. -/
def safeStoi64 (s : String) : Option Int64 :=
  if size s > 20 then none
  else if toString (stoi64 s).toInt = s then some (stoi64 s)
  else none

example : safeStoi64 "-42" = some (-42) := by decide
example : safeStoi64 "042" = none := by decide

/-- `IsDecNumber`: digits with at most one dot, not at the end and with at most `decimal` digits behind it; a
    leading zero stands before the dot or alone. -/
def isDecNumber (value : List Char) (decimal : ℕ) : Bool :=
  value ≠ [] && value.getLast? ≠ some '.' && value.all (fun c => c.isDigit || c == '.') && value.count '.' ≤ 1 &&
    !(value.head? = some '0' && value.idxOf? '.' ≠ some 1 && value ≠ ['0']) &&
    (value.idxOf? '.').all fun dotPos => value.length - dotPos - 1 ≤ decimal

/-- The end of `MultiplyDecimal`: the leading zeros are erased. -/
def eraseZeros (value : List Char) : List Char :=
  let rest := value.dropWhile (· == '0')
  if rest.head? = some '.' then
    -- `i--` leaves one zero before the dot; without a zero the index wraps and the whole text is erased
    if rest.length = value.length then [] else '0' :: rest
  else rest

/-- `MultiplyDecimal`: the dot is moved by `decimals` places. -/
def multiplyDecimal (value : List Char) (decimals : ℕ) : List Char :=
  match value.idxOf? '.' with
  | none => eraseZeros (value ++ List.replicate decimals '0')
  | some dotPos =>
    let right := value.length - dotPos - 1
    if right ≤ decimals then eraseZeros (value.eraseIdx dotPos ++ List.replicate (decimals - right) '0')
    else eraseZeros ((value.eraseIdx dotPos).insertIdx (dotPos + decimals) '.')

/-! ### The text of a number -/

theorem leadingNat_toDigits (n : ℕ) : leadingNat (Nat.toDigits 10 n) = n := by
  have hall : (Nat.toDigits 10 n).takeWhile Char.isDigit = Nat.toDigits 10 n :=
    List.takeWhile_eq_self_iff.mpr fun c hc => Nat.isDigit_of_mem_toDigits (by decide) (by decide) hc
  rw [leadingNat, hall]
  exact Nat.ofDigitChars_ten_toDigits

theorem isSpace_of_isDigit {c : Char} (hc : c.isDigit = true) : isSpace c = false := by
  have hrange : 48 ≤ c.toNat ∧ c.toNat ≤ 57 := Char.isDigit_iff_toNat.mp hc
  have hblank : c ≠ ' ' := by
    rintro rfl
    exact absurd hrange (by decide)
  simp only [isSpace, Bool.or_eq_false_iff, beq_eq_false_iff_ne, Bool.and_eq_false_imp, decide_eq_true_eq,
    decide_eq_false_iff_not]
  exact ⟨hblank, fun _ => by omega⟩

theorem leadingInt_toString (z : ℤ) : leadingInt (toString z) = z := by
  cases z with
  | ofNat n =>
    have hlist : (toString (Int.ofNat n)).toList = Nat.toDigits 10 n := Nat.toList_repr
    have hdigit : ∀ c ∈ Nat.toDigits 10 n, c.isDigit = true := fun c =>
      Nat.isDigit_of_mem_toDigits (by decide) (by decide)
    have hlead := leadingNat_toDigits n
    rw [leadingInt, hlist]
    generalize Nat.toDigits 10 n = l at hdigit hlead
    cases l with
    | nil => exact congrArg Nat.cast hlead
    | cons c l =>
      have hc := hdigit c (by simp)
      rw [List.dropWhile_cons_of_neg (by simp [isSpace_of_isDigit hc])]
      split
      · rename_i heq
        cases heq
        exact absurd hc (by decide)
      · rename_i heq
        cases heq
        exact absurd hc (by decide)
      · exact congrArg Nat.cast hlead
  | negSucc n =>
    have hlist : (toString (Int.negSucc n)).toList = '-' :: Nat.toDigits 10 (n + 1) :=
      (String.toList_append ..).trans (congrArg _ Nat.toList_repr)
    have hdrop : ('-' :: Nat.toDigits 10 (n + 1)).dropWhile isSpace = '-' :: Nat.toDigits 10 (n + 1) :=
      List.dropWhile_cons_of_neg (by decide)
    rw [leadingInt, hlist, hdrop]
    change -(leadingNat (Nat.toDigits 10 (n + 1)) : ℤ) = _
    rw [leadingNat_toDigits]
    rfl

theorem size_repr_le {n : ℕ} (k : ℕ) (h : n < 10 ^ (k + 1)) : size n.repr ≤ k + 1 := by
  have hdigit : ∀ d < 10, size d.repr = 1 := by decide
  induction k generalizing n with
  | zero => exact (hdigit n (by simpa using h)).le
  | succ k ih =>
    by_cases hn : n < 10
    · rw [hdigit n hn]
      omega
    · have hfront := ih (n := n / 10) (by rw [Nat.pow_succ] at h; omega)
      have hlast := hdigit (n % 10) (by omega)
      unfold size at hfront hlast ⊢
      rw [Nat.repr_eq_repr_append_repr (by omega), String.utf8ByteSize_append]
      omega

theorem size_toString (x : Int64) : size (toString x.toInt) ≤ 20 := by
  have hlow := x.le_toInt
  have hhigh := x.toInt_lt
  rw [Int.toString_eq_repr, Int.repr_eq_if]
  split
  · exact (size_repr_le (n := x.toInt.toNat) 18 (by omega)).trans (by decide)
  · have hsign : size "-" = 1 := by decide
    have hdigits := size_repr_le (n := (-x.toInt).toNat) 18 (by omega)
    unfold size at hsign hdigits ⊢
    rw [String.utf8ByteSize_append]
    omega

theorem safeStoi64_toString (x : Int64) : safeStoi64 (toString x.toInt) = some x := by
  have hlow := x.le_toInt
  have hhigh := x.toInt_lt
  have hread : stoi64 (toString x.toInt) = x := by
    rw [stoi64, leadingInt_toString, min_eq_right (by omega), max_eq_right (by omega), Int64.ofInt_toInt]
  rw [safeStoi64, if_neg (Nat.not_lt.mpr (size_toString x)), hread, if_pos rfl]

theorem safeStoi64_eq_some {s : String} {x : Int64} : safeStoi64 s = some x ↔ s = toString x.toInt := by
  refine ⟨fun h => ?_, fun h => h ▸ safeStoi64_toString x⟩
  unfold safeStoi64 at h
  split at h
  · cases h
  split at h
  · rename_i hs
    cases h
    exact hs.symm
  · cases h

theorem toString_inj {y z : ℤ} (h : toString y = toString z) : y = z := by
  rw [← leadingInt_toString y, h, leadingInt_toString]

theorem isSome_safeStoi64_toString (k : ℕ) : (safeStoi64 (toString k)).isSome = true ↔ k ≤ 2 ^ 63 - 1 := by
  rw [Option.isSome_iff_exists]
  constructor
  · rintro ⟨x, hx⟩
    have hlt := x.toInt_lt
    have heq : (k : ℤ) = x.toInt := toString_inj (safeStoi64_eq_some.mp hx)
    omega
  · intro hk
    have hx : (Int64.ofInt k).toInt = (k : ℤ) := Int64.toInt_ofInt_of_le (by omega) (by omega)
    exact ⟨Int64.ofInt k, safeStoi64_eq_some.mpr (by rw [hx]; rfl)⟩

end Strings
end OpenSesame
