import OpenSesame.Consensus.Instance
import OpenSesame.Ledger.LedgerContextManager

/-! # `glue/glue_manager.cpp`: the value a leader proposes, and the checks of a value -/

namespace OpenSesame
open Protocol

def ProofText.isEmpty : ProofText → Bool
  | .empty => true
  | _ => false

namespace GlueManager

/-- The loop over `txset_raw` from position `i` on: the transactions that are not to be dropped. -/
def keptTxs (needDroppedTx : List ℕ) : ℕ → List TransactionEnv → List TransactionEnv
  | _, [] => []
  | i, tx :: l => if needDroppedTx.contains i then keptTxs needDroppedTx (i + 1) l
      else tx :: keptTxs needDroppedTx (i + 1) l

/-- The end of `StartConsensus`: the value after its transactions were executed. -/
def proposedValue (proposeValue : ConsensusValue) (proposeResult : Block) : ConsensusValue :=
  { proposeValue with
    txset :=
      if proposeResult.needDroppedTx.length ≠ 0 then keptTxs proposeResult.needDroppedTx 0 proposeValue.txset
      else proposeValue.txset
    validation :=
      if proposeResult.errorTxs.length > 0 ∨ proposeResult.expireTxs.length > 0 then
        some (setValidationToProto proposeResult.expireTxs proposeResult.errorTxs)
      else proposeValue.validation }

/-- `next_tx_size` after a time-out, where `0.7` and `0.5` are exact: of the transactions that were executed, or of all
if none was. -/
def nextTxSize (proposeResult : ProposeTxsResult) (txsSize : ℕ) : ℤ :=
  let totalTxCount := if proposeResult.txExecuteCount = 0 then (txsSize : ℤ)
    else min proposeResult.txExecuteCount.toInt txsSize
  (7 * totalTxCount + 5).tdiv 10

/-- `txset_raw` for the next attempt. -/
def reducedTxs (proposeResult : ProposeTxsResult) (txsetRaw : List TransactionEnv) : List TransactionEnv :=
  txsetRaw.take (nextTxSize proposeResult txsetRaw.length).toNat

/-- The loop of `StartConsensus` from the attempt `i` on, where `preProcess` is what `SyncPreProcess` answers to an
attempt with a batch: the batch that was executed in time, and the answer. -/
def proposeLoop (preProcess : ℕ → List TransactionEnv → ProposeTxsResult) :
    ℕ → ℕ → List TransactionEnv → Option (List TransactionEnv × ProposeTxsResult)
  | 0, _, _ => none
  | fuel + 1, i, txsetRaw =>
    let proposeResult := preProcess i txsetRaw
    if proposeResult.blockTimeout then proposeLoop preProcess fuel (i + 1) (reducedTxs proposeResult txsetRaw)
    else some (txsetRaw, proposeResult)

variable (n : LedgerNode)

/-- `CheckProof` of the consensus for the validators of a ledger. -/
def checkProof (validators : List Validator) (valueHash : String) (proof : ProofText) : Bool :=
  Pbft.checkProof n.toKeys (validators.map fun v => v.address) valueHash proof

/-- `CheckValueHelper`, where it looks at the upgrade of the ledger. -/
def checkUpgrade (lcl : LedgerHeader) (value : ConsensusRequest) : Bool :=
  match value.ledgerUpgrade with
  | none => true
  | some upgrade =>
    !(upgrade.newLedgerVersion != 0 &&
        (decide (lcl.version ≥ upgrade.newLedgerVersion) || decide (upgrade.newLedgerVersion > 1003))) &&
      !(!n.hardforkPoints.contains (n.crypto (n.serializeValue value)) && upgrade.newValidator != "")

/-- `CheckValueHelper`, where it looks at the proof of the previous ledger. -/
def checkPreviousProof (s : LedgerManager) (value : ConsensusRequest) : Bool :=
  let lcl := s.getLastClosedLedger
  if lcl.seq > 1 then
    match s.getValidators (value.ledgerSeq - 2) with
    | none => false
    | some set => n.hardforkPoints.contains lcl.consensusValueHash ||
        checkProof n set lcl.consensusValueHash value.previousProof
  else true

/-- `CheckValueHelper`; `-1` as the time stands for no check of the time. -/
def checkValueHelper (s : LedgerManager) (value : ConsensusRequest) (now : Int64) : CheckValueResult :=
  let lcl := s.getLastClosedLedger
  if n.byteSize value ≥ 16 * 2 ^ 20 + 2 * 2 ^ 20 then .mayvalid
  else if value.ledgerSeq ≠ lcl.seq + 1 then .mayvalid
  else if value.previousLedgerHash ≠ lcl.hash then .mayvalid
  -- not closed; one second is tolerated
  else if now ≠ -1 ∧ ¬(now > value.closeTime - 1000000 ∧ value.closeTime ≥ lcl.closeTime + n.closeInterval) then
    .mayvalid
  else if !checkUpgrade n lcl value then .mayvalid
  else if lcl.seq = 1 ∧ !value.previousProof.isEmpty then .mayvalid
  else if !checkPreviousProof n s value then .mayvalid
  else .valid

def checkValueAndProof (s : LedgerManager) (value : ConsensusRequest) (proof : ProofText) : Bool :=
  match s.getValidators (value.ledgerSeq - 1) with
  | none => false
  | some set =>
    let valueHash := n.crypto (n.serializeValue value)
    checkValueHelper n s value (-1) == .valid && (checkProof n set valueHash proof || n.hardforkPoints.contains valueHash)

end GlueManager
end OpenSesame
