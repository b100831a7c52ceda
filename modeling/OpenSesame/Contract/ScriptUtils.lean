import OpenSesame.Utils.SafeInt
import OpenSesame.Utils.Strings

/-! # What the system contracts use of the host

The `int64…` functions of `contract/v8_contract_read.cpp` on amounts, and what `PayCoin` of
`ledger/operation_frm.cpp` does to the balance of the contract. `none` stands for an exception. -/

namespace OpenSesame
open Int64

theorem of_guard {α : Type} {p : Prop} [Decidable p] {f : Unit → Option α} {b : α}
    (h : (guard p : Option Unit).bind f = some b) : p ∧ f () = some b := by
  by_cases hp : p
  · simpa [guard, hp] using h
  · simp [guard, hp] at h

namespace ScriptUtils
open SafeInt

/-! ### Texts -/

/-- A text without NUL. -/
def Plain (x : String) : Prop := '\x00' ∉ x.toList

instance (x : String) : Decidable (Plain x) := inferInstanceAs (Decidable (¬_))

/-- `ToCString`: what a function of the host reads of a text, which is all before the first NUL. -/
def toCString (x : String) : String := String.ofList (x.toList.takeWhile fun c => c != '\x00')

theorem toCString_of_plain {x : String} (h : Plain x) : toCString x = x := by
  rw [toCString, List.takeWhile_eq_self_iff.mpr, String.ofList_toList]
  intro c hc
  rw [bne_iff_ne]
  rintro rfl
  exact h hc

theorem plain_append {x y : String} : Plain (x ++ y) ↔ Plain x ∧ Plain y := by
  simp [Plain, String.toList_append]

theorem toCString_append {x y : String} (h : Plain x) : toCString (x ++ y) = x ++ toCString y := by
  have hx : ∀ c ∈ x.toList, (c != '\x00') = true := by
    intro c hc
    rw [bne_iff_ne]
    rintro rfl
    exact h hc
  rw [toCString, toCString, String.toList_append, List.takeWhile_append_of_pos hx, String.ofList_append,
    String.ofList_toList]

/-! ### Arithmetic -/

def int64Add (x y : Int64) : Option Int64 := safeIntAdd x y

def int64Sub (x y : Int64) : Option Int64 := safeIntSub x y

def int64Mul (x y : Int64) : Option Int64 := safeIntMul x y

def int64Div (x y : Int64) : Option Int64 := if y ≤ 0 ∨ x < 0 then none else some (x / y)

def int64Mod (x y : Int64) : Option Int64 := if y ≤ 0 ∨ x < 0 then none else some (x % y)

/-- A whole number of the script as an argument of these functions. -/
def ofNumber (n : ℤ) : Option Int64 :=
  if -2 ^ 63 ≤ n ∧ n < 2 ^ 63 then some (ofInt n) else none

def buDecimals : ℕ := 8

def toBaseUnit (arg0 : String) : Option String :=
  if Strings.isDecNumber arg0.toList buDecimals then
    let multiResult := String.ofList (Strings.multiplyDecimal arg0.toList buDecimals)
    if (Strings.safeStoi64 multiResult).isSome then some multiResult else none
  else none

variable {x y z q r : Int64}

theorem int64Add_toInt (h : int64Add x y = some r) : r.toInt = x.toInt + y.toInt := safeIntAdd_eq_some.mp h

theorem int64Sub_toInt (h : int64Sub x y = some r) : r.toInt = x.toInt - y.toInt := safeIntSub_eq_some.mp h

theorem int64Mul_toInt (hx : 0 ≤ x.toInt) (h : int64Mul x y = some r) : r.toInt = x.toInt * y.toInt :=
  safeIntMul_toInt (.inl hx) h

theorem int64Div_toInt (h : int64Div x y = some q) : 0 ≤ x.toInt ∧ 0 < y.toInt ∧ q.toInt = x.toInt / y.toInt := by
  unfold int64Div at h
  split at h
  · cases h
  rename_i hok
  cases h
  simp only [not_or, lt_iff_toInt_lt, le_iff_toInt_le, toInt_zero, not_le, not_lt] at hok
  have hlt := x.toInt_lt
  have hle := Int.ediv_le_self y.toInt hok.2
  have hge := Int.ediv_nonneg hok.2 hok.1.le
  refine ⟨hok.2, hok.1, ?_⟩
  rw [toInt_div, Int.tdiv_eq_ediv_of_nonneg hok.2, bmod_of_range (by omega) (by omega)]

theorem division_defined (hx : 0 ≤ x.toInt) (hy : 0 < y.toInt) : ¬(y ≤ 0 ∨ x < 0) := by
  rw [le_iff_toInt_le, lt_iff_toInt_lt, toInt_zero]
  omega

theorem int64Mod_toInt (h : int64Mod x y = some r) : r.toInt = x.toInt % y.toInt := by
  unfold int64Mod at h
  split at h
  · cases h
  rename_i hok
  cases h
  simp only [not_or, lt_iff_toInt_lt, le_iff_toInt_le, toInt_zero, not_le, not_lt] at hok
  rw [toInt_mod, Int.tmod_eq_emod_of_nonneg hok.2]

theorem div_mod_toInt (hq : int64Div x y = some q) (hr : int64Mod x y = some r) :
    y.toInt * q.toInt + r.toInt = x.toInt := by
  rw [(int64Div_toInt hq).2.2, int64Mod_toInt hr]
  exact Int.mul_ediv_add_emod ..

theorem ofNumber_toInt {n : ℤ} (h : ofNumber n = some x) : x.toInt = n := by
  unfold ofNumber at h
  split at h
  · cases h
    exact toInt_ofInt_of_le (by omega) (by omega)
  · cases h

/-- The balance after the payment of a caller. -/
def receive (balance amount : Int64) : Option Int64 :=
  if amount < 0 then none else safeIntAdd balance amount

/-- The balance after a payment of the contract: the base reserve must be left. -/
def spend (baseReserve balance amount : Int64) : Option Int64 :=
  if amount < 0 then none
  else
    match safeIntAdd amount baseReserve with
    | none => none
    | some minBalance => if balance < minBalance then none else safeIntSub balance amount

theorem receive_toInt (h : receive x y = some r) : 0 ≤ y.toInt ∧ r.toInt = x.toInt + y.toInt := by
  unfold receive at h
  split at h
  · cases h
  · rename_i hneg
    simp only [Int64.not_lt, le_iff_toInt_le, toInt_zero] at hneg
    exact ⟨hneg, safeIntAdd_eq_some.mp h⟩

theorem spend_toInt (h : spend z x y = some r) : 0 ≤ y.toInt ∧ r.toInt = x.toInt - y.toInt := by
  unfold spend at h
  split at h
  · cases h
  rename_i hneg
  simp only [Int64.not_lt, le_iff_toInt_le, toInt_zero] at hneg
  split at h
  · cases h
  split at h
  · cases h
  · exact ⟨hneg, safeIntSub_eq_some.mp h⟩

end ScriptUtils
end OpenSesame
