import OpenSesame.Consensus.Message
import OpenSesame.Ledger.LedgerFrm

/-! # `ledger/ledger_manager.cpp`: the ledgers that are closed, and where they are kept

The two databases hold the header of every ledger under its sequence and every set of validators under its
hash. What else is written when a ledger is closed is not read again by what is modelled here: the transactions,
the consensus values, the fees, the proof and the statistics. -/

namespace OpenSesame
namespace Protocol

structure LedgerHeader where
  seq : Int64 := 0
  hash : String := ""
  previousHash : String := ""
  accountTreeHash : String := ""
  closeTime : Int64 := 0
  consensusValueHash : String := ""
  version : Int64 := 0
  txCount : Int64 := 0
  validatorsHash : String := ""
  feesHash : String := ""
  reserve : String := ""
  chainId : Int64 := 0
  deriving DecidableEq

structure LedgerUpgrade where
  newLedgerVersion : Int64 := 0
  newValidator : String := ""

/-- A consensus value with the fields that are read outside the execution of its transactions. -/
structure ConsensusRequest extends ConsensusValue where
  previousLedgerHash : String := ""
  previousProof : ProofText := .empty
  ledgerUpgrade : Option LedgerUpgrade := none

/-- `GetLedgers`: the sequences that are asked for. -/
structure GetLedgers where
  beginSeq : Int64 := 0
  endSeq : Int64 := 0

structure Ledgers where
  values : List ConsensusRequest
  maxSeq : Int64
  proof : ProofText
  chainId : Int64

end Protocol

open Protocol

structure SyncStat where
  sendTime : Int64 := 0
  gl : GetLedgers := {}
  probation : Int64 := 0

/-- A call of `CloseLedger` that has closed a ledger: its header, its consensus value, the proof that came with it,
the validators from then on, and whether it came by synchronization. -/
structure ClosedLedger where
  header : LedgerHeader
  value : ConsensusRequest
  proof : ProofText
  validators : List Validator
  bySync : Bool

structure LedgerManager where
  /-- The header of `last_closed_ledger_`. -/
  lastClosedLedger : LedgerHeader
  lclHeader : LedgerHeader
  validators : List Validator
  fees : FeeConfig
  proof : ProofText
  /-- The headers of the ledger database. -/
  ledgerDb : Int64 → Option LedgerHeader
  /-- The sets of validators of the account database. -/
  validatorsDb : String → Option (List Validator)
  peers : Std.TreeMap Int64 SyncStat := ∅
  updateTime : Int64 := 0
  chainMaxLedgerProbaly : Int64 := 0
  closed : List ClosedLedger := []

/-- What `SyncProcess` gives: the ledger with its transactions, the voted settings of its environment, and the
root hash of the account tree after its `Commit`. -/
structure ClosingLedger where
  header : LedgerHeader
  transactionEnvs : List TransactionEnv
  votedValidators : Option Json
  votedFees : Option Json
  rootHash : String

/-- What a node takes from outside: keys and hashes, the serialized forms, its configuration, and the execution of
a consensus value. -/
structure LedgerNode extends Keys where
  crypto : String → String
  serializeValue : ConsensusRequest → String
  byteSize : ConsensusRequest → ℕ
  serializeLedger : LedgerHeader → List TransactionEnv → String
  serializeValidators : List Validator → String
  serializeFees : FeeConfig → String
  hardforkPoints : List String
  closeInterval : Int64
  syncProcess : LedgerManager → ConsensusRequest → Option ClosingLedger

namespace LedgerManager

def getValidators (seq : Int64) (s : LedgerManager) : Option (List Validator) := do
  let header ← s.ledgerDb seq
  s.validatorsDb header.validatorsHash

def getLastClosedLedger (s : LedgerManager) : LedgerHeader := s.lclHeader

def validatorsSet (n : LedgerNode) (validators : List Validator) (s : LedgerManager) : LedgerManager :=
  { s with validatorsDb :=
      Function.update s.validatorsDb (n.crypto (n.serializeValidators validators)) (some validators) }

end LedgerManager
end OpenSesame
