import Mathlib.Data.UInt

/-! # Protocol-buffer wire format

Base-128 varints and the stream of tagged fields of a message, with a reader for each writer and the round
trip between them. Lengths and varints are unbounded. -/

namespace Wire

/-- The base-128 varint of `m`, least significant group first; `fuel` bounds the number of groups. -/
def varintAux : ℕ → ℕ → List UInt8
  | 0, m => [UInt8.ofNat m]
  | fuel + 1, m => if m < 128 then [UInt8.ofNat m] else UInt8.ofNat (m % 128 + 128) :: varintAux fuel (m / 128)

def varint (m : ℕ) : List UInt8 :=
  varintAux m m

def readVarint : List UInt8 → Option (ℕ × List UInt8)
  | [] => none
  | b :: r =>
    if b.toNat < 128 then some (b.toNat, r)
    else (readVarint r).map fun x => (b.toNat - 128 + 128 * x.1, x.2)

/-- What a field carries: wire types 0 and 2. -/
inductive Payload
  | num (m : ℕ)
  | bytes (bs : List UInt8)
  deriving DecidableEq, Repr

/-- A field number with its payload. -/
structure Field where
  number : ℕ
  payload : Payload
  deriving DecidableEq, Repr

def Field.write : Field → List UInt8
  | ⟨f, .num m⟩ => varint (8 * f) ++ varint m
  | ⟨f, .bytes bs⟩ => varint (8 * f + 2) ++ (varint bs.length ++ bs)

def write (fs : List Field) : List UInt8 :=
  fs.flatMap Field.write

/-- One field and the rest of the input. -/
def readField (bs : List UInt8) : Option (Field × List UInt8) := do
  let (tag, bs) ← readVarint bs
  let (m, bs) ← readVarint bs
  match tag % 8 with
  | 0 => some (⟨tag / 8, .num m⟩, bs)
  | 2 => if m ≤ bs.length then some (⟨tag / 8, .bytes (bs.take m)⟩, bs.drop m) else none
  | _ => none

def readAux : ℕ → List UInt8 → Option (List Field)
  | _, [] => some []
  | 0, _ :: _ => none
  | fuel + 1, bs => do
    let (f, r) ← readField bs
    let fs ← readAux fuel r
    some (f :: fs)

/-- The fields of a message; each takes at least one byte. -/
def read (bs : List UInt8) : Option (List Field) :=
  readAux bs.length bs

theorem readVarint_varintAux {fuel m : ℕ} (h : m ≤ fuel) (r : List UInt8) :
    readVarint (varintAux fuel m ++ r) = some (m, r) := by
  induction fuel generalizing m with
  | zero =>
    obtain rfl : m = 0 := by omega
    rfl
  | succ fuel ih =>
    by_cases hm : m < 128
    · have hmod : m % 256 = m := by omega
      simp [varintAux, hm, readVarint, hmod]
    · have hmod : (m % 128 + 128) % 256 = m % 128 + 128 := by omega
      have hdiv : m % 128 + 128 * (m / 128) = m := Nat.mod_add_div m 128
      simp [varintAux, hm, readVarint, hmod, ih (by omega : m / 128 ≤ fuel), hdiv]

@[simp] theorem readVarint_varint (m : ℕ) (r : List UInt8) : readVarint (varint m ++ r) = some (m, r) :=
  readVarint_varintAux (Nat.le_refl m) r

@[simp] theorem readField_write (f : Field) (r : List UInt8) : readField (f.write ++ r) = some (f, r) := by
  rcases f with ⟨f, m | bs⟩
  · have htag : 8 * f % 8 = 0 := by omega
    simp [Field.write, readField, htag]
  · have htag : (8 * f + 2) % 8 = 2 := by omega
    have hdiv : (8 * f + 2) / 8 = f := by omega
    simp [Field.write, readField, htag, hdiv]

theorem varint_ne_nil (m : ℕ) : varint m ≠ [] := by
  intro h
  have := readVarint_varint m []
  simp [h, readVarint] at this

theorem Field.write_length_pos (f : Field) : 0 < f.write.length := by
  rcases f with ⟨f, m | bs⟩ <;> simp only [Field.write, List.length_append] <;>
    have := List.length_pos_of_ne_nil (varint_ne_nil (8 * f)) <;>
    have := List.length_pos_of_ne_nil (varint_ne_nil (8 * f + 2)) <;>
    omega

theorem readAux_write {fuel : ℕ} (fs : List Field) (h : (write fs).length ≤ fuel) : readAux fuel (write fs) = some fs := by
  induction fs generalizing fuel with
  | nil => cases fuel <;> rfl
  | cons f fs ih =>
    have hpos := f.write_length_pos
    simp only [write, List.flatMap_cons, List.length_append] at h ih ⊢
    cases fuel with
    | zero => omega
    | succ fuel =>
      cases hw : f.write with
      | nil => simp [hw] at hpos
      | cons b r =>
        have hread := readField_write f (fs.flatMap Field.write)
        rw [hw, List.cons_append] at hread
        simp [readAux, hread, ih (by omega : _ ≤ fuel)]

@[simp] theorem read_write (fs : List Field) : read (write fs) = some fs := readAux_write fs (Nat.le_refl _)

end Wire
