import OpenSesame.Utils.Crypto

/-! # `common/private_key.cpp`: addresses and keys as base-58 texts -/

namespace OpenSesame

/-- `SignatureType`, without `SIGNTYPE_NONE`, which no key element carries. -/
inductive SignatureType
  | ed25519
  | cfcasm2
  deriving DecidableEq, Repr

/-- The kinds of key `GetKeyElement` tells apart by the leading bytes. -/
inductive PrivateKeyPrefix
  | address
  | privateKey
  deriving DecidableEq, Repr

/-- What `GetKeyElement` returns through its reference parameters. -/
structure KeyElement where
  keyPrefix : PrivateKeyPrefix
  signType : SignatureType
  rawData : Bytes
  deriving DecidableEq, Repr

structure Hashes where
  sha256 : Bytes → Bytes
  sm3 : Bytes → Bytes

def calcHash (h : Hashes) (value : Bytes) : SignatureType → Bytes
  | .cfcasm2 => h.sm3 value
  | .ed25519 => h.sha256 value

/-- `DecodeAddress`; `AccountFromDB` reads the account trie at this key. -/
def decodeAddress (address : List Ascii) : Bytes :=
  Base58.decode address

/-- The cast `(SignatureType)a`; every other value falls into the `default` of the switch. -/
def signatureType? (a : UInt8) : Option SignatureType :=
  if a = 1 then some .ed25519 else if a = 2 then some .cfcasm2 else none

/-- The prefix by length and leading bytes: `01 56` for an address, `DA 37 9F` for a private key. -/
def keyPrefix? (buff : Bytes) : Option PrivateKeyPrefix :=
  if buff.length = 27 ∧ buff[0]? = some 0x01 ∧ buff[1]? = some 0x56 then some .address
  else if buff.length = 41 ∧ buff[0]? = some 0xDA ∧ buff[1]? = some 0x37 ∧ buff[2]? = some 0x9F then
    some .privateKey
  else none

/-- Where the signature type stands, how many bytes are not data, and how long the data has to be
    (`ED25519_ADDRESS_LENGTH` and its siblings, equal for both signature types). -/
def keyLayout : PrivateKeyPrefix → ℕ × ℕ × ℕ
  | .address => (2, 7, 20)
  | .privateKey => (3, 9, 32)

/-- The last four bytes are the first four of the double hash of the rest. -/
def checksumOk (h : Hashes) (buff : Bytes) (t : SignatureType) : Bool :=
  buff.drop (buff.length - 4) == (calcHash h (calcHash h (buff.take (buff.length - 4)) t) t).take 4

def getKeyElement (h : Hashes) (encodeKey : List Ascii) : Option KeyElement := do
  let buff := decodeAddress encodeKey
  let p ← keyPrefix? buff
  let (typeAt, overhead, datalen) := keyLayout p
  let t ← buff[typeAt]?.bind signatureType?
  if buff.length - overhead = datalen ∧ checksumOk h buff t = true then
    some ⟨p, t, (buff.drop (typeAt + 1)).take (buff.length - overhead)⟩
  else none

def isAddressValid (h : Hashes) (encodeAddress : List Ascii) : Bool :=
  match getKeyElement h encodeAddress with
  | some e => e.keyPrefix == .address
  | none => false

theorem decodeAddress_of_valid {h : Hashes} {a : List Ascii} (ha : isAddressValid h a = true) :
    (decodeAddress a).length = 27 ∧ (decodeAddress a)[0]? = some 0x01 ∧ (decodeAddress a)[1]? = some 0x56 := by
  unfold isAddressValid at ha
  split at ha
  · rename_i e he
    simp only [getKeyElement, Option.bind_eq_bind, Option.bind_eq_some_iff] at he
    obtain ⟨p, hp, t, -, he⟩ := he
    split at he
    · cases he
      have hp' : p = .address := by simpa using ha
      subst hp'
      unfold keyPrefix? at hp
      split at hp
      · assumption
      · split at hp <;> cases hp
    · cases he
  · cases ha

end OpenSesame
