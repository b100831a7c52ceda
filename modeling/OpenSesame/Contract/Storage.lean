import OpenSesame.Common.General
import OpenSesame.Contract.ScriptUtils
import OpenSesame.Lib.Records

/-! # The metadata of a contract, and amounts in texts

`storageLoad`, `storageStore` and `storageDel` of `contract/v8_contract_read.cpp` and `v8_contract_write.cpp`, and
the `int64…` functions on texts as the host reads them. `none` stands for an exception, and for the `false` of
`storageLoad`. A record that was stored as JSON is kept as the record. -/

namespace OpenSesame
open Records Option
open ScriptUtils (toCString Plain toCString_of_plain)

/-! ### Amounts in texts -/

namespace Text
open Strings (safeStoi64)

def stoI64Check (x : String) : Bool := (safeStoi64 x).isSome

/-- A function on numbers whose arguments and result are texts. -/
def onTexts (f : Int64 → Int64 → Option Int64) (x y : String) : Option String := do
  let a ← safeStoi64 x
  let b ← safeStoi64 y
  let r ← f a b
  return toString r.toInt

def int64Add : String → String → Option String := onTexts ScriptUtils.int64Add

def int64Sub : String → String → Option String := onTexts ScriptUtils.int64Sub

/-- `CallBackInt64Mul`; the outer `none` is the trap of a division. -/
def int64Mul (x y : String) : Option (Option String) :=
  match safeStoi64 x, safeStoi64 y with
  | some a, some b => (SafeInt.safeIntMulTrapping a b).map (Option.map fun r => toString r.toInt)
  | _, _ => some none

def int64Compare (x y : String) : Option ℤ := do
  let a ← safeStoi64 x
  let b ← safeStoi64 y
  return if a > b then 1 else if a = b then 0 else -1

def Spells (x : String) (n : ℤ) : Prop := (safeStoi64 x).map Int64.toInt = some n

instance (x : String) (n : ℤ) : Decidable (Spells x n) := inferInstanceAs (Decidable (_ = _))

def amount (x : String) : ℤ := ((safeStoi64 x).map Int64.toInt).getD 0

variable {x y z : String} {m n k : ℤ}

theorem Spells.amount_eq (h : Spells x n) : amount x = n := by
  rw [amount, h, getD_some]

theorem Spells.unique (h : Spells x m) (h' : Spells x n) : m = n := some.inj (h.symm.trans h')

theorem onTexts_cases {f : Int64 → Int64 → Option Int64} (h : onTexts f x y = some z) :
    ∃ a b r, Spells x a.toInt ∧ Spells y b.toInt ∧ f a b = some r ∧ Spells z r.toInt := by
  simp only [onTexts, bind_eq_bind, bind_eq_some_iff, pure_def, some.injEq] at h
  obtain ⟨a, ha, b, hb, r, hr, rfl⟩ := h
  refine ⟨a, b, r, ?_, ?_, hr, ?_⟩
  · rw [Spells, ha, map_some]
  · rw [Spells, hb, map_some]
  · rw [Spells, Strings.safeStoi64_toString, map_some]

theorem int64Add_spells (h : int64Add x y = some z) : ∃ m n, Spells x m ∧ Spells y n ∧ Spells z (m + n) := by
  obtain ⟨a, b, r, ha, hb, hr, hz⟩ := onTexts_cases h
  rw [ScriptUtils.int64Add_toInt hr] at hz
  exact ⟨_, _, ha, hb, hz⟩

theorem int64Sub_spells (h : int64Sub x y = some z) : ∃ m n, Spells x m ∧ Spells y n ∧ Spells z (m - n) := by
  obtain ⟨a, b, r, ha, hb, hr, hz⟩ := onTexts_cases h
  rw [ScriptUtils.int64Sub_toInt hr] at hz
  exact ⟨_, _, ha, hb, hz⟩

theorem int64Compare_spells (h : int64Compare x y = some k) :
    ∃ m n, Spells x m ∧ Spells y n ∧ (0 < k ↔ n < m) ∧ (0 ≤ k ↔ n ≤ m) ∧ (k = 0 ↔ m = n) := by
  simp only [int64Compare, bind_eq_bind, bind_eq_some_iff, pure_def, some.injEq] at h
  obtain ⟨a, ha, b, hb, rfl⟩ := h
  refine ⟨a.toInt, b.toInt, ?_, ?_, ?_⟩
  · rw [Spells, ha, map_some]
  · rw [Spells, hb, map_some]
  · split_ifs with hgt heq
    · have hlt : b.toInt < a.toInt := Int64.lt_iff_toInt_lt.mp hgt
      omega
    · rw [heq]
      omega
    · have hle : ¬b.toInt < a.toInt := fun hlt => hgt (Int64.lt_iff_toInt_lt.mpr hlt)
      have hne : a.toInt ≠ b.toInt := fun hab => heq (Int64.toInt_inj.mp hab)
      exact ⟨iff_of_false (by decide) hle, iff_of_false (by decide) (by omega), iff_of_false (by decide) hne⟩

end Text

namespace Base58

/-- A text over the alphabet of the dictionary, as addresses are. -/
def overAlphabet (a : String) : Bool := a.toList.all fun c => kBase58Dictionary.any fun d => d.val == c.toNat

theorem not_mem_of_overAlphabet {a : String} (h : overAlphabet a = true) {c : Char}
    (hc : (kBase58Dictionary.any fun d => d.val == c.toNat) = false) : c ∉ a.toList := by
  intro hmem
  have hletter := List.all_eq_true.mp h c hmem
  rw [hc] at hletter
  cases hletter

theorem underscore_not_mem {a : String} (h : overAlphabet a = true) : '_' ∉ a.toList :=
  not_mem_of_overAlphabet h (by decide)

theorem plain_of_overAlphabet {a : String} (h : overAlphabet a = true) : Plain a :=
  not_mem_of_overAlphabet h (by decide)

end Base58

/-! ### Metadata -/

/-- A text of the metadata: as it was stored, or what `JSON.stringify` made of a record. -/
inductive Value (J : Type) where
  | text (t : String)
  | json (record : J)
  deriving DecidableEq

namespace Value
variable {J : Type}

/-- The text for the `int64…` functions, which a record has not. -/
def text? : Value J → Option String
  | text t => some t
  | json _ => none

def size (jsonSize : J → ℕ) : Value J → ℕ
  | text t => Strings.size t
  | json record => jsonSize record

def amount : Value J → ℤ
  | text t => Text.amount t
  | json _ => 0

theorem text?_eq_some {v : Value J} {t : String} : v.text? = some t ↔ v = text t := by
  cases v with
  | text t' => exact ⟨fun h => congrArg text (some.inj h), fun h => congrArg some (text.inj h)⟩
  | json record => exact ⟨nofun, nofun⟩

end Value

/-- The metadata of a contract. -/
abbrev Storage (J : Type) := Records String (Value J)

namespace Storage
variable {J : Type}

/-- `storageLoad`; of a key the host reads what is before the first NUL, here and below. -/
def load (key : String) (s : Storage J) : Option (Value J) := s.lookup (toCString key)

/-- `storageStore`, with the limits of `CheckValid`. -/
def store (jsonSize : J → ℕ) (key : String) (value : Value J) (s : Storage J) : Option (Storage J) :=
  let key := toCString key
  if Strings.size key = 0 ∨ Strings.size key > General.metadataKeyMaxSize ∨
      value.size jsonSize > General.metadataMaxValueSize then
    none
  else some (s.insert key value)

/-- `storageDel`: a key that is not there cannot be deleted. -/
def del (key : String) (s : Storage J) : Option (Storage J) :=
  match s.load key with
  | none => none
  | some _ => some (s.erase (toCString key))

def amountAt (s : Storage J) (key : String) : ℤ := (s.lookup key).elim 0 Value.amount

/-- The sum of the amounts under the keys of a family. -/
def total (family : String → Bool) (s : Storage J) : ℤ :=
  s.sum fun key value => if family key then value.amount else 0

variable {jsonSize : J → ℕ} {s t : Storage J} {key key' : String} {value : Value J} {family : String → Bool}

theorem load_of_plain (h : Plain key) : s.load key = s.lookup key := by
  rw [load, toCString_of_plain h]

theorem eq_of_store (h : s.store jsonSize key value = some t) : t = s.insert (toCString key) value := by
  unfold store at h
  dsimp only at h
  split_ifs at h
  exact (some.inj h).symm

theorem eq_of_del (h : s.del key = some t) : t = s.erase (toCString key) := by
  unfold del at h
  split at h
  · cases h
  · exact (some.inj h).symm

@[simp] theorem amountAt_insert : amountAt (s.insert key value) key = value.amount := by
  rw [amountAt, AList.lookup_insert, elim_some]

theorem amountAt_insert_ne (h : key' ≠ key) : amountAt (s.insert key value) key' = s.amountAt key' := by
  rw [amountAt, AList.lookup_insert_ne h]
  rfl

theorem amountAt_of_load (h : s.load key = some value) : s.amountAt (toCString key) = value.amount := by
  rw [load] at h
  rw [amountAt, h, elim_some]

theorem amountAt_of_none (h : s.load key = none) : s.amountAt (toCString key) = 0 := by
  rw [load] at h
  rw [amountAt, h, elim_none]

theorem share_eq (s : Storage J) (family : String → Bool) (key : String) :
    Records.share (fun key value => if family key then value.amount else 0) s key =
      if family key then s.amountAt key else 0 := by
  unfold Records.share amountAt
  cases s.lookup key with
  | none => simp
  | some value => simp

theorem total_insert (h : family key = true) :
    total family (s.insert key value) = s.total family - s.amountAt key + value.amount := by
  rw [total, Records.sum_insert, share_eq, if_pos h, if_pos h]
  rfl

theorem total_insert_of_not (h : family key = false) : total family (s.insert key value) = s.total family := by
  rw [total, Records.sum_insert, share_eq, h]
  simp [total]

theorem total_erase (h : family key = true) : total family (s.erase key) = s.total family - s.amountAt key := by
  rw [total, Records.sum_erase, share_eq, if_pos h]
  rfl

theorem total_erase_of_not (h : family key = false) : total family (s.erase key) = s.total family := by
  rw [total, Records.sum_erase, share_eq, h]
  simp [total]

end Storage
end OpenSesame
