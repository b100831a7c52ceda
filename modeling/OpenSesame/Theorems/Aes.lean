import Mathlib.Data.List.GetD
import OpenSesame.Utils.Aes

/-! # The text round trip through AES

`Decrypto` undoes `Crypto` on texts whose length is not a multiple of 16. On the others it deciphers a block that was
never enciphered. -/

namespace OpenSesame
open List
namespace Aes

theorem cbcDecrypt_cbcEncrypt (e : Equiv.Perm Block) (iv : Block) (l : List Block) :
    cbcDecrypt e.symm iv (cbcEncrypt e iv l) = l := by
  induction l generalizing iv with
  | nil => rfl
  | cons p l ih =>
    have hfirst : xor (xor p iv) iv = p := by
      funext i
      rw [xor, xor, UInt8.xor_assoc, UInt8.xor_self, UInt8.xor_zero]
    rw [cbcEncrypt, cbcDecrypt, e.symm_apply_apply, hfirst, ih]

theorem length_cbcEncrypt (f : Block → Block) (iv : Block) (l : List Block) : (cbcEncrypt f iv l).length = l.length := by
  induction l generalizing iv with
  | nil => rfl
  | cons p l ih => rw [cbcEncrypt, length_cons, ih, length_cons]

theorem length_blocks (n : ℕ) (l : Bytes) : (blocks n l).length = n := by
  induction n generalizing l with
  | zero => rfl
  | succ n ih => rw [blocks, length_cons, ih]

theorem length_bytes (l : List Block) : (bytes l).length = 16 * l.length := by
  induction l with
  | nil => rfl
  | cons b l ih =>
    rw [bytes, flatMap_cons, ← bytes, length_append, ih, length_ofFn, length_cons]
    omega

theorem blocks_bytes (l : List Block) : blocks l.length (bytes l) = l := by
  induction l with
  | nil => rfl
  | cons b l ih =>
    rw [List.length_cons, blocks, bytes, List.flatMap_cons, ← bytes]
    have hdrop : (List.ofFn b ++ bytes l).drop 16 = bytes l := by
      simp
    have hfirst : (fun i : Fin 16 => (List.ofFn b ++ bytes l).getD i 0) = b := by
      funext i
      rw [List.getD_eq_getElem?_getD, List.getElem?_append_left (by rw [List.length_ofFn]; exact i.2),
        List.getElem?_ofFn, dif_pos i.2]
      rfl
    rw [hdrop, hfirst, ih]

theorem ofFn_getD (l : Bytes) :
    List.ofFn (fun i : Fin 16 => l.getD i 0) = l.take 16 ++ List.replicate (16 - l.length) 0 := by
  refine List.ext_getElem ?_ fun i hi hi' => ?_
  · rw [List.length_ofFn, List.length_append, List.length_take, List.length_replicate]
    omega
  · rw [List.length_ofFn] at hi
    rw [List.getElem_ofFn, List.getElem_append]
    dsimp only
    split
    · rename_i hlt
      rw [List.length_take] at hlt
      rw [List.getElem_take, List.getD_eq_getElem]
    · rename_i hge
      rw [List.length_take] at hge
      rw [List.getElem_replicate]
      exact List.getD_eq_default _ _ (by omega)

theorem bytes_blocks {n : ℕ} {l : Bytes} (h : l.length ≤ 16 * n) :
    bytes (blocks n l) = l ++ replicate (16 * n - l.length) 0 := by
  induction n generalizing l with
  | zero =>
    obtain rfl := length_eq_zero_iff.mp (Nat.le_zero.mp h)
    rfl
  | succ n ih =>
    have ih := ih (l := l.drop 16) (by rw [length_drop]; omega)
    rw [blocks, bytes, flatMap_cons, ← bytes, ih, ofFn_getD, length_drop]
    by_cases hfull : 16 ≤ l.length
    · rw [Nat.sub_eq_zero_of_le hfull, replicate_zero, append_nil, ← append_assoc, take_append_drop]
      congr 2
      omega
    · rw [take_of_length_le (by omega), drop_of_length_le (by omega), nil_append, append_assoc,
        replicate_append_replicate]
      congr 2
      omega

theorem cbcDecrypt_append (f : Block → Block) (iv c : Block) (l : List Block) :
    cbcDecrypt f iv (l ++ [c]) = cbcDecrypt f iv l ++ [xor (f c) (l.getLastD iv)] := by
  induction l generalizing iv with
  | nil => rfl
  | cons b l ih => rw [cons_append, cbcDecrypt, cbcDecrypt, ih, getLastD_cons, cons_append]

theorem bytes_append (l l' : List Block) : bytes (l ++ l') = bytes l ++ bytes l' := flatMap_append

/-- The blocks `Crypto` enciphers a text to. -/
def cipherBlocks (cipher : Bytes → Equiv.Perm Block) (x key : Bytes) : List Block :=
  cbcEncrypt (cipher key) 0 (blocks (blockCount x.length) x)

section RoundTrip
variable {cipher : Bytes → Equiv.Perm Block} {x key : Bytes}

theorem length_cipherBlocks : (cipherBlocks cipher x key).length = blockCount x.length := by
  rw [cipherBlocks, length_cbcEncrypt, length_blocks]

theorem crypto_eq (hkey : validKey key = true) : crypto cipher x key =
    bytes (cipherBlocks cipher x key ++ if x.length % 16 = 0 then [0] else []) := by
  have hlength : (bytes (cipherBlocks cipher x key)).length = 16 * blockCount x.length := by
    rw [length_bytes, length_cipherBlocks]
  rw [crypto, if_pos hkey, bytes_append]
  change bytes (cipherBlocks cipher x key) ++
    replicate (cryptoLen x.length - (bytes (cipherBlocks cipher x key)).length) 0 = _
  rw [hlength]
  congr 1
  unfold blockCount cryptoLen
  split <;> split
  · omega
  · rw [show x.length + 1 - 16 * ((x.length + 15) / 16) = 0 by omega]
    rfl
  · rw [show ((x.length + 1) / 16 + 1) * 16 - 16 * ((x.length + 15) / 16) = 16 by omega]
    rfl
  · rw [show ((x.length + 1) / 16 + 1) * 16 - 16 * ((x.length + 15) / 16) = 0 by omega]
    rfl

theorem decrypto_bytes (hkey : validKey key = true) (l : List Block) :
    decrypto cipher (bytes l) key = (bytes (cbcDecrypt (cipher key).symm 0 l)).takeWhile (· ≠ 0) := by
  have hcount : blockCount (bytes l).length = l.length := by
    rw [length_bytes]
    unfold blockCount
    omega
  have hlength (f : Block → Block) (iv : Block) : (cbcDecrypt f iv l).length = l.length := by
    induction l generalizing iv with
    | nil => rfl
    | cons c l ih => rw [cbcDecrypt, length_cons, ih (by rw [length_bytes]; unfold blockCount; omega), length_cons]
  rw [decrypto, if_pos hkey, hcount, blocks_bytes]
  dsimp only
  rw [take_of_length_le (by rw [length_bytes, length_bytes, hlength])]

/-- A text without zero bytes is given back just when its length is not a multiple of 16, or the block of zeros behind
it deciphers to one that starts with a zero byte. -/
theorem decrypto_crypto (cipher : Bytes → Equiv.Perm Block) (x key : Bytes) (hkey : validKey key = true)
    (hx : 0 ∉ x) : decrypto cipher (crypto cipher x key) key = x ↔
      x.length % 16 ≠ 0 ∨ (cipher key).symm 0 0 = (cipherBlocks cipher x key).getLastD 0 0 := by
  have hfits : x.length ≤ 16 * blockCount x.length := by
    unfold blockCount
    omega
  have hplain : ∀ c ∈ x, decide (c ≠ 0) = true := fun c hc => by simpa using fun hzero : c = 0 => hx (hzero ▸ hc)
  have htext : bytes (cbcDecrypt (cipher key).symm 0 (cipherBlocks cipher x key)) =
      x ++ replicate (16 * blockCount x.length - x.length) 0 := by
    rw [cipherBlocks, cbcDecrypt_cbcEncrypt, bytes_blocks hfits]
  rw [crypto_eq hkey, decrypto_bytes hkey]
  by_cases hfull : x.length % 16 = 0
  · have hnone : 16 * blockCount x.length - x.length = 0 := by
      unfold blockCount
      omega
    rw [if_pos hfull, cbcDecrypt_append, bytes_append, htext, hnone, replicate_zero, append_nil,
      takeWhile_append_of_pos hplain, append_right_eq_self, ← UInt8.xor_eq_zero_iff]
    simp [bytes, xor, ofFn_succ, hfull, takeWhile_cons]
  · rw [if_neg hfull, append_nil, htext, takeWhile_append_of_pos hplain]
    simp [hfull]

end RoundTrip

/-- Every block xored with ones. -/
def flip : Equiv.Perm Block where
  toFun := xor fun _ => 1
  invFun := xor fun _ => 1
  left_inv b := by
    funext i
    rw [xor, xor, ← UInt8.xor_assoc, UInt8.xor_self, UInt8.zero_xor]
  right_inv b := by
    funext i
    rw [xor, xor, ← UInt8.xor_assoc, UInt8.xor_self, UInt8.zero_xor]

/-- The empty text comes back as the 16 bytes that a block of zeros deciphers to. -/
theorem decrypto_crypto_empty : decrypto (fun _ => flip) (crypto (fun _ => flip) [] (replicate 16 7))
    (replicate 16 7) = replicate 16 1 := by
  decide +kernel

theorem decrypto_crypto_word : decrypto (fun _ => flip) (crypto (fun _ => flip) [97, 98] (replicate 16 7))
    (replicate 16 7) = [97, 98] :=
  (decrypto_crypto _ _ _ (by decide) (by decide)).mpr (.inl (by decide))

end Aes
end OpenSesame
