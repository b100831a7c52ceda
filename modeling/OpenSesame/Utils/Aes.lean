import Mathlib.Data.UInt
import Mathlib.Logic.Equiv.Basic
import OpenSesame.Utils.Crypto

/-! # `utils/crypto.cpp`: AES in CBC mode

The block function of a key is a permutation of the blocks of 16 bytes, and `AES_cbc_encrypt` fills the last block up
with zero bytes. -/

namespace OpenSesame
namespace Aes

abbrev Block := Fin 16 → UInt8

def xor (a b : Block) : Block := fun i => a i ^^^ b i

/-- The first `n` blocks of a byte string, what is missing being zero. -/
def blocks : ℕ → Bytes → List Block
  | 0, _ => []
  | n + 1, l => (fun i => l.getD i 0) :: blocks n (l.drop 16)

def bytes (l : List Block) : Bytes := l.flatMap List.ofFn

/-- The blocks `AES_cbc_encrypt` makes of its input: the last one may be filled up. -/
def blockCount (size : ℕ) : ℕ := (size + 15) / 16

def cbcEncrypt (cipher : Block → Block) : Block → List Block → List Block
  | _, [] => []
  | iv, p :: ps => cipher (xor p iv) :: cbcEncrypt cipher (cipher (xor p iv)) ps

def cbcDecrypt (decipher : Block → Block) : Block → List Block → List Block
  | _, [] => []
  | iv, c :: cs => xor (decipher c) iv :: cbcDecrypt decipher c cs

def validKey (key : Bytes) : Bool := key.length == 16 || key.length == 24 || key.length == 32

def cryptoLen (size : ℕ) : ℕ :=
  if (size + 1) % 16 = 0 then size + 1 else ((size + 1) / 16 + 1) * 16

variable (cipher : Bytes → Equiv.Perm Block)

/-- `Aes::Crypto`: the library is given the size of the input, not that of the buffer, which is zero behind it. -/
def crypto (input key : Bytes) : Bytes :=
  if validKey key then
    let out := bytes (cbcEncrypt (cipher key) 0 (blocks (blockCount input.length) input))
    out ++ List.replicate (cryptoLen input.length - out.length) 0
  else "key error".toUTF8.toList

/-- `Aes::Decrypto`: the text ends at the first zero byte. -/
def decrypto (input key : Bytes) : Bytes :=
  if validKey key then
    let out := bytes (cbcDecrypt (cipher key).symm 0 (blocks (blockCount input.length) input))
    (out.take input.length).takeWhile (· ≠ 0)
  else []

end Aes
end OpenSesame
