import OpenSesame.Ledger.Protocol
import OpenSesame.Utils.AtomMap
import OpenSesame.Utils.SafeInt

/-! # `ledger/account.cpp`: an account and its caches

The tries of the account database are finite maps, as the results on `KVTrie` show them to be: the account
trie, and for every address a trie of assets and one of metadata. Records are filed under their own keys. The
amount is the one field of an asset record that is read. -/

namespace OpenSesame
open Protocol

structure AccountDb where
  account : Address → Option Account
  asset : Address → AssetKey → Option Int64
  metadata : Address → String → Option KeyPair

/-- `AccountFrm`: an account with the asset and metadata records read or written so far. A cached record of
action `DEL` is `some none`. -/
structure AccountFrm where
  info : Account
  assets : Overlay AssetKey Int64
  metadata : Overlay String KeyPair

namespace AccountFrm

def ofAccount (info : Account) : AccountFrm :=
  { info := info, assets := Overlay.empty, metadata := Overlay.empty }

def nonce (a : AccountFrm) : Int64 := a.info.nonce

def balance (a : AccountFrm) : Int64 := a.info.balance

def setBalance (b : Int64) (a : AccountFrm) : AccountFrm :=
  { a with info := { a.info with balance := b } }

/-- `NonceIncrease`: the sum wraps. -/
def nonceIncrease (a : AccountFrm) : AccountFrm :=
  { a with info := { a.info with nonce := a.info.nonce + 1 } }

def addBalance (a : AccountFrm) (amount : Int64) : Option Int64 :=
  SafeInt.safeIntAdd a.info.balance amount

def creatAccountFrm (address : Address) (balance : Int64) : AccountFrm :=
  ofAccount
    { address := address, nonce := 0, balance := balance
      priv := some { masterWeight := 1, thresholds := some { txThreshold := 1 } } }

/-- A change of the privilege (`mutable_priv`). -/
def mapPriv (f : AccountPrivilege → AccountPrivilege) (a : AccountFrm) : AccountFrm :=
  { a with info := { a.info with priv := some (f a.info.privilege) } }

def setProtoMasterWeight (weight : Int64) : AccountFrm → AccountFrm :=
  mapPriv fun p => { p with masterWeight := weight }

/-- A change of the thresholds (`mutable_thresholds`). -/
def mapThresholds (f : AccountThreshold → AccountThreshold) : AccountFrm → AccountFrm :=
  mapPriv fun p => { p with thresholds := some (f p.threshold) }

def setProtoTxThreshold (threshold : Int64) : AccountFrm → AccountFrm :=
  mapThresholds fun t => { t with txThreshold := threshold }

/-- `Signer_Limit_SIGNER`, the bound of both lists. -/
def signerLimit : ℕ := 100

/-- The list with every entry of a key set; a new entry goes to the end while there is room, and an entry that
is set to nothing is taken out. `UpdateSigner` and `UpdateTypeThreshold` are of this form. -/
def updateEntries {α : Type} (same : α → Bool) (remove : Bool) (entry : α) (set : α → α) (l : List α) : List α :=
  if remove then l.filter fun x => !same x
  else if l.any same then l.map fun x => if same x then set x else x
  else if l.length ≥ signerLimit then l
  else l ++ [entry]

def updateSigner (signer : Address) (weight : Int64) : AccountFrm → AccountFrm :=
  mapPriv fun p =>
    { p with
      signers := updateEntries (fun s => s.address == signer) (!decide (weight > 0)) ⟨signer, weight⟩
        (fun s => { s with weight := weight }) p.signers }

def updateTypeThreshold (type : OperationType) (threshold : Int64) : AccountFrm → AccountFrm :=
  mapThresholds fun t =>
    { t with
      typeThresholds := updateEntries (fun x => x.type == type) (!decide (threshold > 0)) ⟨type, threshold⟩
        (fun x => { x with threshold := threshold }) t.typeThresholds }

/-- `GetTypeThreshold`: the first entry of the type. -/
def getTypeThreshold (a : AccountFrm) (type : OperationType) : Int64 :=
  match a.info.privilege.threshold.typeThresholds.find? fun x => x.type == type with
  | some x => x.threshold
  | none => 0

/-- `GetAsset`: the amount held, and the cache with what was read from the trie. -/
def getAsset (db : AccountDb) (a : AccountFrm) (key : AssetKey) : Option Int64 × AccountFrm :=
  match a.assets key with
  | some r => (r, a)
  | none =>
    match db.asset a.info.address key with
    | none => (none, a)
    | some amount => (some amount, { a with assets := a.assets.put key (some amount) })

def setAsset (key : AssetKey) (amount : Int64) (a : AccountFrm) : AccountFrm :=
  { a with assets := a.assets.put key (some amount) }

def getMetaData (db : AccountDb) (a : AccountFrm) (key : String) : Option KeyPair × AccountFrm :=
  match a.metadata key with
  | some r => (r, a)
  | none =>
    match db.metadata a.info.address key with
    | none => (none, a)
    | some kp => (some kp, { a with metadata := a.metadata.put key (some kp) })

def setMetaData (kp : KeyPair) (a : AccountFrm) : AccountFrm :=
  { a with metadata := a.metadata.put kp.key (some kp) }

def deleteMetaData (kp : KeyPair) (a : AccountFrm) : AccountFrm :=
  { a with metadata := a.metadata.put kp.key none }

/-- The asset trie after `UpdateHash`: an amount of 0 is deleted. -/
def assetsAfter (db : AccountDb) (a : AccountFrm) (key : AssetKey) : Option Int64 :=
  match a.assets key with
  | none => db.asset a.info.address key
  | some none => none
  | some (some amount) => if amount = 0 then none else some amount

/-- The metadata trie after `UpdateHash`. -/
def metadataAfter (db : AccountDb) (a : AccountFrm) (key : String) : Option KeyPair :=
  (a.metadata key).getD (db.metadata a.info.address key)

end AccountFrm

def AccountDb.accountFromDB (db : AccountDb) (address : Address) : Option AccountFrm :=
  (db.account address).map AccountFrm.ofAccount

end OpenSesame
