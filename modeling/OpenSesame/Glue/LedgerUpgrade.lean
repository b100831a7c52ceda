import Mathlib.Data.Int.Order.Basic

/-! # `glue/ledger_upgrade.cpp`

`UpgradeNode` is what the module takes from outside. Two upgrades are the same for `counter_upgrade` when they are
serialized to the same text. The clock, in microseconds, is an argument. -/

namespace OpenSesame
namespace Protocol

/-- The `LedgerUpgrade` message. -/
structure UpgradeMessage where
  newLedgerVersion : ℤ := 0
  newValidator : String := ""
  chainId : ℤ := 0
  deriving DecidableEq

structure LedgerUpgradeNotify where
  nonce : ℤ
  upgrade : UpgradeMessage
  signData : String
  publicKey : String
  deriving DecidableEq

end Protocol

open Protocol

structure UpgradeNode where
  serialize : Protocol.UpgradeMessage → String
  serialize_inj : ∀ a b, serialize a = serialize b → a = b
  /-- `PublicKey::Verify`, of the signed text, the signature and the public key. -/
  verify : String → String → String → Bool
  /-- `GetEncAddress` of a public key. -/
  encAddress : String → String
  selfChainId : ℤ
  publicKey : String
  sign : String → String
  isValidator : Bool

structure LedgerUpgradeFrm where
  recvTime : ℤ
  address : String
  msg : LedgerUpgradeNotify

structure LedgerUpgrade where
  lastSendTime : ℤ := 0
  localState : Protocol.UpgradeMessage := {}
  currentStates : Std.TreeMap String LedgerUpgradeFrm compare := ∅

namespace UpgradeNode
variable (n : UpgradeNode)

def rawData (upgrade : Protocol.UpgradeMessage) (nonce : ℤ) : String := n.serialize upgrade ++ toString nonce

def signed (msg : LedgerUpgradeNotify) : Bool :=
  n.verify (n.rawData msg.upgrade msg.nonce) msg.signData msg.publicKey

def sender (msg : LedgerUpgradeNotify) : String := n.encAddress msg.publicKey

end UpgradeNode

namespace LedgerUpgrade
variable (n : UpgradeNode)

def recv (now : ℤ) (msg : LedgerUpgradeNotify) (s : LedgerUpgrade) : LedgerUpgrade :=
  if n.signed msg && msg.upgrade.chainId == n.selfChainId then
    { s with currentStates := s.currentStates.insert (n.sender msg) ⟨now, n.sender msg, msg⟩ }
  else s

def current (currentTime : ℤ) (s : LedgerUpgrade) : LedgerUpgrade :=
  { s with
    currentStates := s.currentStates.filter fun _ frm => !decide (frm.recvTime + 300 * 1000000 < currentTime) }

def notify (currentTime : ℤ) (s : LedgerUpgrade) : Option LedgerUpgradeNotify :=
  if currentTime - s.lastSendTime > 30 * 1000000 ∧ s.localState.newLedgerVersion > 0 then
    some
      { nonce := currentTime
        upgrade := s.localState
        signData := n.sign (n.rawData s.localState currentTime)
        publicKey := n.publicKey }
  else none

/-- `OnTimer`; `now` is the clock `Recv` reads for the notification of the node itself. -/
def onTimer (currentTime now : ℤ) (s : LedgerUpgrade) : LedgerUpgrade :=
  let s := s.current currentTime
  match notify n currentTime s with
  | none => s
  | some msg =>
    let s := { s with lastSendTime := currentTime }
    if n.isValidator then recv n now msg s else s

/-- One round of the first loop of `GetValid`: the upgrade and the count of its class. -/
def count (validators : List String) (counter : Std.TreeMap String (Protocol.UpgradeMessage × ℕ) compare)
    (frm : LedgerUpgradeFrm) : Std.TreeMap String (Protocol.UpgradeMessage × ℕ) compare :=
  let entry := counter.getD (n.serialize frm.msg.upgrade) (frm.msg.upgrade, 0)
  counter.insert (n.serialize frm.msg.upgrade)
    (entry.1, if validators.contains frm.address then entry.2 + 1 else entry.2)

/-- `GetValid`: the upgrade it returns `true` with; without states there is none. -/
def getValid (validators : List String) (quorumSize : ℕ) (s : LedgerUpgrade) : Option Protocol.UpgradeMessage :=
  let counterUpgrade := (s.currentStates.toList.map Prod.snd).foldl (count n validators) ∅
  (counterUpgrade.toList.find? fun e => decide (e.2.2 ≥ quorumSize)).map fun e => e.2.1

inductive Event where
  | recv (now : ℤ) (msg : LedgerUpgradeNotify)
  | onTimer (currentTime now : ℤ)

def step (s : LedgerUpgrade) : Event → LedgerUpgrade
  | .recv now msg => recv n now msg s
  | .onTimer currentTime now => onTimer n currentTime now s

/-- The notifications an event hands to `Recv`. -/
def handed (s : LedgerUpgrade) : Event → List LedgerUpgradeNotify
  | .recv _ msg => [msg]
  | .onTimer currentTime _ => if n.isValidator then (notify n currentTime (s.current currentTime)).toList else []

end LedgerUpgrade
end OpenSesame
