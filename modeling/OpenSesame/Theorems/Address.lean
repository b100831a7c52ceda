import OpenSesame.Common.PrivateKey
import OpenSesame.Theorems.Base58

/-! # Which address texts name the same account

The decoder reads a text as a base-58 numeral in which a character outside the alphabet counts as the digit
255, so a text is fixed by its decoded bytes together with the places of such characters. -/

namespace OpenSesame

namespace Base58
open Positional

variable {s : List Ascii}

theorem head_ne_of_leadingOnes (h : leadingOnes s = 0) : ∀ c ∈ s.head?, c ≠ 49 := by
  cases s with
  | nil => simp
  | cons c s =>
    rintro d hd rfl
    simp only [List.head?_cons, Option.mem_def, Option.some.injEq] at hd
    simp [leadingOnes, hd] at h

theorem value_decode (h : leadingOnes s = 0) : value 256 ((decode s).map UInt8.toNat) = numeral s := by
  obtain ⟨ds, hds, hvalue⟩ := exists_canonical (b := 256) (by decide) (numeral s)
  have hdecode : decode s = ds.map UInt8.ofNat := by
    simpa using decode_eq 0 (head_ne_of_leadingOnes h) hds hvalue
  rw [hdecode, toNat_ofNat_map hds.lt, hvalue]

theorem leadingOnes_of_decode (h : (decode s)[0]? = some 1) : leadingOnes s = 0 := by
  by_contra hne
  obtain ⟨n, hn⟩ := Nat.exists_eq_succ_of_ne_zero hne
  simp [decode, hn, List.replicate_succ] at h

/-! ### The numeral fixes the text up to the foreign characters -/

/-- The character at the `i`-th place from the right, if it is outside the alphabet. -/
def foreignAt (s : List Ascii) (i : ℕ) : Option Ascii :=
  (s.reverse[i]?).filter (!inAlphabet ·)

theorem eq_of_digit {c d : Ascii} (hdigit : digitOf c % 58 = digitOf d % 58)
    (hforeign : (some c).filter (!inAlphabet ·) = (some d).filter (!inAlphabet ·)) : c = d := by
  cases hc : inAlphabet c <;> cases hd : inAlphabet d <;> simp [Option.filter, hc, hd] at hforeign
  · exact hforeign
  · exact digitOf_inj hc hd hdigit

theorem eq_of_numeral {s t : List Ascii} (hs : ∀ c ∈ s.head?, c ≠ 49) (ht : ∀ c ∈ t.head?, c ≠ 49)
    (hnum : numeral s = numeral t) (hforeign : ∀ i, foreignAt s i = foreignAt t i) : s = t := by
  refine eq_of_value (by decide) (fun c hc h => hs c hc ((digitOf_eq_zero c).mp h))
    (fun c hc h => ht c hc ((digitOf_eq_zero c).mp h)) (fun i c hc d hd hdigit => eq_of_digit hdigit ?_) hnum
  have hi := hforeign i
  rwa [foreignAt, foreignAt, Option.mem_def.mp hc, Option.mem_def.mp hd] at hi

end Base58

open Base58

/-! ### Addresses -/

/-- Two accepted addresses of one account entry are the same text exactly when they have the same characters
    outside the alphabet at the same places. -/
theorem address_canonical_iff (h : Hashes) (a b : List Ascii) (ha : isAddressValid h a = true)
    (hb : isAddressValid h b = true) (hab : decodeAddress a = decodeAddress b) :
    a = b ↔ ∀ i, foreignAt a i = foreignAt b i := by
  refine ⟨fun heq i => by rw [heq], fun hforeign => ?_⟩
  have hza : leadingOnes a = 0 := leadingOnes_of_decode (decodeAddress_of_valid ha).2.1
  have hzb : leadingOnes b = 0 := leadingOnes_of_decode (decodeAddress_of_valid hb).2.1
  have hnum : numeral a = numeral b := by
    rw [← value_decode hza, ← value_decode hzb]
    exact congrArg (fun bs : Bytes => Positional.value 256 (bs.map UInt8.toNat)) hab
  exact eq_of_numeral (head_ne_of_leadingOnes hza) (head_ne_of_leadingOnes hzb) hnum hforeign

/-- `buQtxgoaDrVJGtoPT66YnA2S84yE8FbBqQDJ`, the address of the validators' contract. -/
def validatorContractText : List Ascii :=
  [98, 117, 81, 116, 120, 103, 111, 97, 68, 114, 86, 74, 71, 116, 111, 80, 84, 54, 54, 89, 110, 65, 50, 83, 56, 52,
   121, 69, 56, 70, 98, 66, 113, 81, 68, 74]

/-- The same address with its second and third characters replaced by `Q0`: `0` is outside the alphabet, and
    23 * 58 + 255 = 27 * 58 + 23. -/
def validatorContractAlias : List Ascii :=
  [98, 81, 48, 116, 120, 103, 111, 97, 68, 114, 86, 74, 71, 116, 111, 80, 84, 54, 54, 89, 110, 65, 50, 83, 56, 52,
   121, 69, 56, 70, 98, 66, 113, 81, 68, 74]

/-- SHA-256 at the two arguments the checksum of that address needs. -/
def sampleSha256 (m : Bytes) : Bytes :=
  if m = [1, 86, 1, 255, 90, 63, 87, 71, 173, 164, 234, 162, 47, 29, 73, 192, 30, 82, 221, 183, 135, 91, 75] then
    [228, 9, 103, 188, 196, 209, 164, 149, 107, 62, 138, 179, 28, 97, 18, 152, 143, 23, 151, 40, 124, 171, 3, 3, 181,
     6, 61, 95, 30, 228, 213, 232]
  else if m = [228, 9, 103, 188, 196, 209, 164, 149, 107, 62, 138, 179, 28, 97, 18, 152, 143, 23, 151, 40, 124, 171,
      3, 3, 181, 6, 61, 95, 30, 228, 213, 232] then
    [40, 215, 190, 229, 99, 104, 226, 232, 72, 176, 42, 149, 239, 21, 135, 142, 248, 139, 240, 251, 43, 34, 90, 50,
     12, 31, 185, 131, 25, 14, 50, 26]
  else []

def sampleHashes : Hashes := ⟨sampleSha256, fun _ => []⟩

/-- Two different texts are accepted as addresses of one account entry. -/
theorem address_alias_accepted : isAddressValid sampleHashes validatorContractText = true ∧
    isAddressValid sampleHashes validatorContractAlias = true ∧
    decodeAddress validatorContractText = decodeAddress validatorContractAlias ∧
    validatorContractText ≠ validatorContractAlias := by
  decide +kernel

theorem address_canonical_iff_alias : validatorContractText = validatorContractAlias ↔
      ∀ i, foreignAt validatorContractText i = foreignAt validatorContractAlias i :=
  address_canonical_iff sampleHashes validatorContractText validatorContractAlias (by decide +kernel)
    (by decide +kernel) (by decide +kernel)

end OpenSesame
