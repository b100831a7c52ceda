import OpenSesame.Lib.Positional

/-! # `utils/crypto.cpp`: the base-58 codec

Byte strings are lists of `UInt8`; the texts the decoder reads are ASCII, so that every character indexes
the digit table of 128 entries. -/

namespace OpenSesame

/-- A byte string (`std::string` used as a buffer). -/
abbrev Bytes := List UInt8

/-- A character of a text: an index into `kBase58digits`. -/
abbrev Ascii := Fin 128

instance ascii_neZero : NeZero 128 := ⟨by decide⟩

namespace Base58

/-- `kBase58Dictionary`, by character code: `B` and `b`, and `U` and `u`, stand in each other's place. -/
def kBase58Dictionary : List Ascii :=
  -- 123456789AbCDEFGHJKLMNPQRSTuVWXYZaBcdefghijkmnopqrstUvwxyz
  [49, 50, 51, 52, 53, 54, 55, 56, 57, 65, 98, 67, 68, 69, 70, 71, 72, 74, 75, 76, 77, 78, 80, 81, 82, 83, 84,
   117, 86, 87, 88, 89, 90, 97, 66, 99, 100, 101, 102, 103, 104, 105, 106, 107, 109, 110, 111, 112, 113, 114,
   115, 116, 85, 118, 119, 120, 121, 122]

/-- `kBase58digits`: the digit of each character, `-1` outside the alphabet. -/
def kBase58digits : List Int :=
  [-1, -1, -1, -1, -1, -1, -1, -1, -1, -1, -1, -1, -1, -1, -1, -1,
   -1, -1, -1, -1, -1, -1, -1, -1, -1, -1, -1, -1, -1, -1, -1, -1,
   -1, -1, -1, -1, -1, -1, -1, -1, -1, -1, -1, -1, -1, -1, -1, -1,
   -1, 0, 1, 2, 3, 4, 5, 6, 7, 8, -1, -1, -1, -1, -1, -1,
   -1, 9, 34, 11, 12, 13, 14, 15, 16, -1, 17, 18, 19, 20, 21, -1,
   22, 23, 24, 25, 26, 52, 28, 29, 30, 31, 32, -1, -1, -1, -1, -1,
   -1, 33, 10, 35, 36, 37, 38, 39, 40, 41, 42, 43, -1, 44, 45, 46,
   47, 48, 49, 50, 51, 27, 53, 54, 55, 56, 57, -1, -1, -1, -1, -1]

/-- The cast `(unsigned char)kBase58digits[c]`: a character outside the alphabet counts as 255. -/
def digitOf (c : Ascii) : ℕ :=
  (kBase58digits.getD c (-1) % 256).toNat

/-- The character is one of the 58 of the dictionary. -/
def inAlphabet (c : Ascii) : Bool :=
  kBase58Dictionary.contains c

/-- The leading `1`s of a text (`nZeros`). -/
def leadingOnes (s : List Ascii) : ℕ :=
  (s.takeWhile (· == 49)).length

/-- `size_t(left_size * log2(58.0) / 8 + 2)`: the integer part of `log2 (58 ^ left)` over 8, plus 2. -/
def decodeSize (left : ℕ) : ℕ :=
  Nat.log2 (58 ^ left) / 8 + 2

/-- `Base58::Decode`: the carry loop over the characters after the leading `1`s, then the zero bytes. -/
def decode (s : List Ascii) : Bytes :=
  let left := s.drop (leadingOnes s)
  let tmp := Positional.feed 58 256 (List.replicate (decodeSize left.length) 0) (left.map digitOf)
  (List.replicate (leadingOnes s) 0 ++ tmp.dropWhile (· == 0)).map UInt8.ofNat

/-- The leading zero bytes of a byte string (`zeros`). -/
def leadingZeros (x : Bytes) : ℕ :=
  (x.takeWhile (· == 0)).length

/-- `Base58::Encode`: the carry loop from the last of the leading zero bytes on (`first_no_zero`), then the `1`s. -/
def encode (x : Bytes) : List Ascii :=
  let left := x.drop (leadingZeros x - 1)
  let b58 := Positional.feed 256 58 (List.replicate (x.length * 138 / 100 + 1) 0) (left.map UInt8.toNat)
  List.replicate (leadingZeros x) 49 ++ (b58.dropWhile (· == 0)).map (kBase58Dictionary.getD · 49)

theorem dictionary_getD_inverse : (∀ d < 58, digitOf (kBase58Dictionary.getD d 49) = d) ∧
    ∀ c : Ascii, digitOf c < 58 → kBase58Dictionary.getD (digitOf c) 49 = c := by
  decide +kernel

theorem digitOf_inAlphabet : ∀ c : Ascii, inAlphabet c = true ↔ digitOf c < 58 := by
  decide +kernel

theorem digitOf_eq_zero : ∀ c : Ascii, digitOf c = 0 ↔ c = 49 := by
  decide +kernel

theorem digitOf_le (c : Ascii) : digitOf c ≤ 255 := by
  have h : (kBase58digits.getD c (-1) % 256) < 256 := Int.emod_lt_of_pos _ (by decide)
  unfold digitOf
  omega

theorem digitOf_inj {c c' : Ascii} (hc : inAlphabet c = true) (hc' : inAlphabet c' = true)
    (h : digitOf c % 58 = digitOf c' % 58) : c = c' := by
  rw [digitOf_inAlphabet] at hc hc'
  rw [Nat.mod_eq_of_lt hc, Nat.mod_eq_of_lt hc'] at h
  rw [← dictionary_getD_inverse.2 c hc, h, dictionary_getD_inverse.2 c' hc']

end Base58
end OpenSesame
