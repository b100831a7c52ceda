import OpenSesame.Glue.GlueManager

/-! # `ledger/ledger_manager.cpp`: closing ledgers

A ledger is closed by the consensus (`onConsent`) or by synchronization with a peer (`onReceiveLedgers`); both hold
the lock of the manager. A peer is asked for ledgers by `onTimer` and after an answer that was of use. -/

namespace OpenSesame
open Protocol

/-- `genesis_configure_`: what the first ledger is made of. -/
structure GenesisConfigure where
  account : Address
  validators : List Address
  fees : FeeConfig
  slogan : String

namespace LedgerManager
variable (n : LedgerNode) (now : Int64)

def genesisValidators (conf : GenesisConfigure) : List Validator := conf.validators.map fun a => ⟨a, 0⟩

def genesisHeader (conf : GenesisConfigure) (rootHash : String) : LedgerHeader :=
  let request : ConsensusRequest :=
    { txset := [], closeTime := 0, ledgerSeq := 0, ledgerUpgrade := some { newLedgerVersion := 1000 } }
  let header : LedgerHeader :=
    { seq := 1
      consensusValueHash := n.crypto (n.serializeValue request)
      chainId := n.chainId
      version := 1000
      accountTreeHash := rootHash
      validatorsHash := n.crypto (n.serializeValidators (genesisValidators conf))
      feesHash := n.crypto (n.serializeFees conf.fees)
      reserve := conf.slogan }
  { header with hash := n.crypto (n.serializeLedger header []) }

/-- `CreateGenesisAccount`; `none` is `false`. -/
def createGenesisAccount (conf : GenesisConfigure) (rootHash : String) : Option LedgerManager :=
  if conf.validators.contains conf.account then none
  else
    let header := genesisHeader n conf rootHash
    some
      { lastClosedLedger := header
        lclHeader := header
        validators := genesisValidators conf
        fees := conf.fees
        proof := .empty
        ledgerDb := Function.update (fun _ => none) header.seq (some header)
        validatorsDb := Function.update (fun _ => none) header.validatorsHash (some (genesisValidators conf)) }

/-! ### Closing a ledger -/

/-- The header `CloseLedger` starts with. -/
def openHeader (value : ConsensusRequest) (closing : ClosingLedger) (s : LedgerManager) : LedgerHeader :=
  { closing.header with
    seq := value.ledgerSeq
    closeTime := value.closeTime
    previousHash := value.previousLedgerHash
    consensusValueHash := n.crypto (n.serializeValue value)
    chainId := n.chainId
    version := s.lastClosedLedger.version
    accountTreeHash := closing.rootHash
    txCount := s.lastClosedLedger.txCount + Int64.ofNat closing.transactionEnvs.length }

def upgradedVersion (value : ConsensusRequest) (version : Int64) : Int64 :=
  match value.ledgerUpgrade with
  | some upgrade => if upgrade.newLedgerVersion > 0 then upgrade.newLedgerVersion else version
  | none => version

def hardforkSet (value : ConsensusRequest) : List Validator :=
  match value.ledgerUpgrade with
  | some upgrade => if upgrade.newValidator ≠ "" then [⟨upgrade.newValidator, 0⟩] else []
  | none => []

/-- The new validators: the one of a hard fork, those that were voted, or those that are in force. Whether they are
written to the database comes with them. -/
def newSet (value : ConsensusRequest) (closing : ClosingLedger) (s : LedgerManager) : List Validator × Bool :=
  if (hardforkSet value).length > 0 then (hardforkSet value, true)
  else (Environments.votedValidators s.validators closing.votedValidators, closing.votedValidators.isSome)

/-- The header of the closed ledger: its hash is the one of the ledger with an empty hash. -/
def closedHeader (value : ConsensusRequest) (closing : ClosingLedger) (s : LedgerManager) : LedgerHeader :=
  let header := s.openHeader n value closing
  let header :=
    { header with
      version := upgradedVersion value header.version
      hash := ""
      validatorsHash := n.crypto (n.serializeValidators (s.newSet value closing).1)
      feesHash := n.crypto (n.serializeFees (Environments.votedFee s.fees closing.votedFees)) }
  { header with hash := n.crypto (n.serializeLedger header closing.transactionEnvs) }

/-- `CloseLedger` after its checks. -/
def close (bySync : Bool) (value : ConsensusRequest) (proof : ProofText) (closing : ClosingLedger)
    (s : LedgerManager) : LedgerManager :=
  let (validators, changed) := s.newSet value closing
  let header := s.closedHeader n value closing
  let s := if changed then { s.validatorsSet n validators with validators := validators } else s
  { s with
    fees := Environments.votedFee s.fees closing.votedFees
    proof := proof
    ledgerDb := Function.update s.ledgerDb header.seq (some header)
    lastClosedLedger := header
    -- `NotifyLedgerClose`
    lclHeader := header
    closed := s.closed ++ [⟨header, value, proof, validators, bySync⟩] }

/-- `CloseLedger`; `none` is `false`. -/
def closeLedger (bySync : Bool) (value : ConsensusRequest) (proof : ProofText) (s : LedgerManager) :
    Option LedgerManager :=
  if GlueManager.checkValueAndProof n s value proof then
    match n.syncProcess s value with
    | none => none
    | some closing => some (s.close n bySync value proof closing)
  else none

/-! ### The entry points -/

def onConsent (value : ConsensusRequest) (proof : ProofText) (s : LedgerManager) : LedgerManager :=
  if s.lastClosedLedger.seq ≥ value.ledgerSeq then s
  else if s.lastClosedLedger.seq + 1 = value.ledgerSeq then
    let s := { s with updateTime := now }
    (s.closeLedger n false value proof).getD s
  else s

def requestConsensusValues (pid : Int64) (gl : GetLedgers) (time : Int64) (s : LedgerManager) : LedgerManager :=
  let peer := (s.peers[pid]?).getD {}
  { s with peers := s.peers.insert pid { peer with gl := gl, sendTime := time }, updateTime := time }

/-- A peer that has sent what was not asked for, or what cannot be closed. -/
def onProbation (pid : Int64) (s : LedgerManager) : LedgerManager :=
  let peer := (s.peers[pid]?).getD {}
  { s with peers := s.peers.insert pid { peer with probation := now + 60000000 } }

/-- The loop of `OnReceiveLedgers`, with `valid`. The proof of a value is in the next one, and the one of the last
value comes with the message. -/
def receiveLoop (peerId : Int64) (proof : ProofText) : List ConsensusRequest → LedgerManager → Bool →
    LedgerManager × Bool
  | [], s, valid => (s, valid)
  | value :: l, s, valid =>
    -- the sum in the source overflows, which has no meaning
    if s.lastClosedLedger.seq = Int64.maxValue then (s, valid)
    else if value.ledgerSeq = s.lastClosedLedger.seq + 1 then
      match s.closeLedger n true value ((l.head?.map (·.previousProof)).getD proof) with
      | none => (s.onProbation now peerId, false)
      | some s => receiveLoop peerId proof l s true
    else receiveLoop peerId proof l s valid

/-- The part of `OnReceiveLedgers` under the lock, with `valid`. -/
def receiveLedgers (ledgers : Ledgers) (peerId : Int64) (s : LedgerManager) : LedgerManager × Bool :=
  match ledgers.values.head?, ledgers.values.getLast?, s.peers[peerId]? with
  | some first, some last, some itm =>
    let s := { s with peers := s.peers.insert peerId { itm with sendTime := 0, gl := {} } }
    if first.ledgerSeq ≠ itm.gl.beginSeq ∨ last.ledgerSeq ≠ itm.gl.endSeq then (s.onProbation now peerId, false)
    else receiveLoop n now peerId ledgers.proof ledgers.values s false
  | _, _, _ => (s, false)

def onReceiveLedgers (ledgers : Ledgers) (peerId : Int64) (s : LedgerManager) : LedgerManager :=
  if ledgers.chainId ≠ n.chainId then s
  else
    let (s, valid) := s.receiveLedgers n now ledgers peerId
    if valid then
      let next := s.lastClosedLedger.seq + 1
      let s := if next ≤ ledgers.maxSeq then
        s.requestConsensusValues peerId
          { beginSeq := next, endSeq := if ledgers.maxSeq < next + 4 then ledgers.maxSeq else next + 4 } now
        else s
      if ledgers.maxSeq > s.chainMaxLedgerProbaly then { s with chainMaxLedgerProbaly := ledgers.maxSeq } else s
    else s

/-- Whether `OnTimer` asks a peer; the time of a request that was not answered is taken back. -/
def askPeer (peer : Option SyncStat) : Option SyncStat × Bool :=
  match peer with
  | none => (none, true)
  | some st =>
    let st := if now - st.sendTime > 30000000 then { st with sendTime := 0 } else st
    (some st, !(decide (st.probation > now) || st.sendTime != 0))

/-- `OnTimer`, for one active peer under the lock. -/
def timerPeer (s : LedgerManager × List Int64) (pid : Int64) : LedgerManager × List Int64 :=
  match askPeer now s.1.peers[pid]? with
  | (none, ask) => (s.1, if ask then s.2 ++ [pid] else s.2)
  | (some st, ask) => ({ s.1 with peers := s.1.peers.insert pid st }, if ask then s.2 ++ [pid] else s.2)

def onTimer (activePeers : List Int64) (s : LedgerManager) : LedgerManager :=
  if now - s.updateTime ≤ 30000000 then s
  else
    let s := { s with peers := s.peers.filter fun pid _ => activePeers.contains pid, updateTime := now }
    let next := s.lastClosedLedger.seq + 1
    let (s, enablePeers) := activePeers.foldl (timerPeer now) (s, [])
    enablePeers.foldl (fun s pid => s.requestConsensusValues pid { beginSeq := next, endSeq := next } now) s

inductive Event where
  | consent (value : ConsensusRequest) (proof : ProofText)
  | ledgers (ledgers : Ledgers) (peerId : Int64)
  | timer (activePeers : List Int64)

def step (s : LedgerManager) : Int64 × Event → LedgerManager
  | (now, .consent value proof) => s.onConsent n now value proof
  | (now, .ledgers ledgers peerId) => s.onReceiveLedgers n now ledgers peerId
  | (now, .timer activePeers) => s.onTimer now activePeers

def run (s : LedgerManager) (events : List (Int64 × Event)) : LedgerManager := events.foldl (step n) s

end LedgerManager
end OpenSesame
