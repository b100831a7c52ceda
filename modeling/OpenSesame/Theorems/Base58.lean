import OpenSesame.Utils.Crypto

/-! # The base-58 codec

Each direction counts the leading zeros apart and converts the rest, a numeral without leading
zeros, to the other base, in a buffer that is large enough at every length. -/

namespace OpenSesame
open List
namespace Base58
open Positional

def numeral (s : List Ascii) : ℕ :=
  value 58 (s.map digitOf)

theorem numeral_lt (s : List Ascii) : numeral s < 256 ^ decodeSize s.length := by
  have hle : numeral s + 5 ≤ 5 * 58 ^ s.length := by
    have hdigits : ∀ d ∈ s.map digitOf, d + 5 ≤ 5 * 58 := by
      intro d hd
      obtain ⟨c, -, rfl⟩ := mem_map.mp hd
      have := digitOf_le c
      omega
    simpa [numeral] using value_add_le hdigits
  have hlog : 58 ^ s.length < 2 ^ (Nat.log2 (58 ^ s.length) + 1) := Nat.lt_log2_self
  calc numeral s < 5 * 58 ^ s.length := by omega
    _ < 2 ^ 3 * 2 ^ (Nat.log2 (58 ^ s.length) + 1) := by omega
    _ = 2 ^ (Nat.log2 (58 ^ s.length) + 4) := by
      rw [← Nat.pow_add]
      congr 1
      omega
    _ ≤ 2 ^ (8 * decodeSize s.length) := Nat.pow_le_pow_right (by decide) (by unfold decodeSize; omega)
    _ = 256 ^ decodeSize s.length := by rw [Nat.pow_mul]

theorem encodeSize_fits (n : ℕ) : 256 ^ n < 58 ^ (n * 138 / 100 + 1) := by
  have hbase : 256 ^ 100 < 58 ^ 138 := by decide +kernel
  refine lt_of_pow_lt_pow_left₀ 100 (Nat.zero_le _) ?_
  calc (256 ^ n) ^ 100 = (256 ^ 100) ^ n := by rw [← Nat.pow_mul, ← Nat.pow_mul, Nat.mul_comm]
    _ ≤ (58 ^ 138) ^ n := Nat.pow_le_pow_left hbase.le n
    _ = 58 ^ (138 * n) := by rw [← Nat.pow_mul]
    _ < 58 ^ ((n * 138 / 100 + 1) * 100) := Nat.pow_lt_pow_right (by decide) (by omega)
    _ = (58 ^ (n * 138 / 100 + 1)) ^ 100 := by rw [← Nat.pow_mul]

theorem toNat_ofNat_map {ds : List ℕ} (h : ∀ d ∈ ds, d < 256) : (ds.map UInt8.ofNat).map UInt8.toNat = ds := by
  have heach : ∀ d ∈ ds, (UInt8.toNat ∘ UInt8.ofNat) d = id d := fun d hd => UInt8.toNat_ofNat_of_lt' (h d hd)
  rw [map_map, map_congr_left heach, map_id]

theorem bytes_lt (y : Bytes) : ∀ d ∈ y.map UInt8.toNat, d < 256 := by
  intro d hd
  obtain ⟨c, -, rfl⟩ := mem_map.mp hd
  exact c.toNat_lt

theorem value_bytes_lt (y : Bytes) {n : ℕ} (hn : y.length ≤ n) :
    value 256 (y.map UInt8.toNat) < 58 ^ (n * 138 / 100 + 1) := by
  have hvalue := value_lt (bytes_lt y)
  rw [length_map] at hvalue
  exact hvalue.trans ((Nat.pow_le_pow_right (by decide) hn).trans_lt (encodeSize_fits n))

/-! ### The leading zeros -/

section Leading

variable {α : Type} [DecidableEq α] {z : α}

theorem leading_split (z : α) (l : List α) : ∃ n k, l = replicate n z ++ k ∧ ∀ c ∈ k.head?, c ≠ z := by
  induction l with
  | nil => exact ⟨0, [], rfl, by simp⟩
  | cons c l ih =>
    by_cases hc : c = z
    · obtain ⟨n, k, rfl, hk⟩ := ih
      exact ⟨n + 1, k, by rw [hc, replicate_succ, cons_append], hk⟩
    · exact ⟨0, c :: l, rfl, by simpa using hc⟩

theorem length_leading {k : List α} (hk : ∀ c ∈ k.head?, c ≠ z) (n : ℕ) :
    ((replicate n z ++ k).takeWhile (· == z)).length = n := by
  induction n with
  | zero =>
    cases k with
    | nil => rfl
    | cons c k => simp [hk c rfl]
  | succ n ih => simpa [replicate_succ] using ih

end Leading

/-! ### Both directions -/

variable {ds : List ℕ}

theorem encode_eq {y : Bytes} (n : ℕ) (hy : ∀ c ∈ y.head?, c ≠ 0) (hds : Canonical 58 ds)
    (h : value 58 ds = value 256 (y.map UInt8.toNat)) :
    encode (replicate n 0 ++ y) = replicate n 49 ++ ds.map (kBase58Dictionary.getD · 49) := by
  have hleft : (replicate n 0 ++ y).drop (n - 1) = replicate (n - (n - 1)) 0 ++ y := by
    rw [drop_append_of_le_length (by simp), drop_replicate]
  have hvalue : value 256 (((replicate n 0 ++ y).drop (n - 1)).map UInt8.toNat) = value 256 (y.map UInt8.toNat) := by
    rw [hleft, map_append, map_replicate, value_append]
    simp
  have hfit := value_bytes_lt y (n := (replicate n 0 ++ y).length) (by simp)
  simp only [encode, leadingZeros, length_leading hy]
  rw [← convert, convert_eq (by decide) (hvalue ▸ hfit) hds (h.trans hvalue.symm)]

theorem decode_eq {t : List Ascii} (n : ℕ) (ht : ∀ c ∈ t.head?, c ≠ 49) (hds : Canonical 256 ds)
    (h : value 256 ds = numeral t) :
    decode (replicate n 49 ++ t) = replicate n 0 ++ ds.map UInt8.ofNat := by
  have hleft : (replicate n 49 ++ t).drop n = t := by
    simp
  simp only [decode, leadingOnes, length_leading ht, hleft]
  rw [← convert, convert_eq (by decide) (numeral_lt t) hds h, map_append, map_replicate]
  rfl

theorem canonical_bytes {y : Bytes} (hy : ∀ c ∈ y.head?, c ≠ 0) : Canonical 256 (y.map UInt8.toNat) where
  lt := bytes_lt y
  head d hd := by
    obtain ⟨c, hc, rfl⟩ := Option.map_eq_some_iff.mp (head?_map .. ▸ hd)
    exact fun h => hy c hc (UInt8.toNat_inj.mp h)

theorem canonical_digits {t : List Ascii} (h : ∀ c ∈ t, inAlphabet c = true) (ht : ∀ c ∈ t.head?, c ≠ 49) :
    Canonical 58 (t.map digitOf) where
  lt d hd := by
    obtain ⟨c, hc, rfl⟩ := mem_map.mp hd
    exact (digitOf_inAlphabet c).mp (h c hc)
  head d hd := by
    obtain ⟨c, hc, rfl⟩ := Option.map_eq_some_iff.mp (head?_map .. ▸ hd)
    exact fun h => ht c hc ((digitOf_eq_zero c).mp h)

theorem digits_dictionary (hds : Canonical 58 ds) : (ds.map (kBase58Dictionary.getD · 49)).map digitOf = ds := by
  rw [map_map]
  exact (map_congr_left fun d hd => dictionary_getD_inverse.1 d (hds.lt d hd)).trans (map_id' ds)

theorem dictionary_digits {t : List Ascii} (h : ∀ c ∈ t, inAlphabet c = true) :
    (t.map digitOf).map (kBase58Dictionary.getD · 49) = t := by
  rw [map_map]
  refine (map_congr_left fun c hc => ?_).trans (map_id' t)
  exact dictionary_getD_inverse.2 c ((digitOf_inAlphabet c).mp (h c hc))

/-- Decoding inverts encoding, and encoding inverts decoding on the texts over the alphabet. -/
theorem encode_decode_inverse : (∀ x : Bytes, decode (encode x) = x) ∧
    ∀ s : List Ascii, (∀ c ∈ s, inAlphabet c = true) → encode (decode s) = s := by
  constructor
  · intro x
    obtain ⟨n, y, rfl, hy⟩ := leading_split 0 x
    obtain ⟨ds, hds, hvalue⟩ := exists_canonical (b := 58) (by decide) (value 256 (y.map UInt8.toNat))
    have hdigits := digits_dictionary hds
    have ht : ∀ c ∈ (ds.map (kBase58Dictionary.getD · 49)).head?, c ≠ 49 := by
      rintro c hc rfl
      refine hds.head (digitOf 49) ?_ (by decide)
      rw [← hdigits, head?_map, Option.mem_def.mp hc]
      rfl
    rw [encode_eq n hy hds hvalue, decode_eq n ht (canonical_bytes hy) (by rw [numeral, hdigits, hvalue]), map_map]
    simp [Function.comp_def]
  · intro s hs
    obtain ⟨n, t, rfl, ht⟩ := leading_split 49 s
    have htail : ∀ c ∈ t, inAlphabet c = true := fun c hc => hs c (mem_append_right _ hc)
    obtain ⟨ds, hds, hvalue⟩ := exists_canonical (b := 256) (by decide) (numeral t)
    have hbytes := toNat_ofNat_map hds.lt
    have hy : ∀ c ∈ (ds.map UInt8.ofNat).head?, c ≠ 0 := by
      rintro c hc rfl
      refine hds.head 0 ?_ rfl
      rw [← hbytes, head?_map, Option.mem_def.mp hc]
      rfl
    rw [decode_eq n ht hds hvalue, encode_eq n hy (canonical_digits htail ht) (by rw [hbytes, hvalue]; rfl),
      dictionary_digits htail]

end Base58
end OpenSesame
