import OpenSesame.Ledger.LedgerManager

/-! # `ledger/ledgercontext_manager.cpp`: executing a consensus value before it is decided

A value is executed in a thread of its own, and the contexts that ended well are kept until their ledger is closed.
How a thread goes in time is an argument of the call. `running_ctxs_` is never filled in the source, and
`delete_ctxs_` holds contexts only until they are freed; both are left out. -/

namespace OpenSesame
open Protocol Std

structure ProposeTxsResult where
  blockTimeout : Bool := false
  execResult : Bool := false
  txExecuteCount : Int64 := 0
  consValidation : ConsensusValueValidation := {}
  needDroppedTx : List ℕ := []

namespace LedgerFrm
variable (w : World) (fuel : ℕ)

/-- The loop of `ApplyPropose`, with the block also where its time is up: whether the loop came to its end. -/
def proposeLoopOut (clock : Clock) : ℕ → List TransactionEnv → Block → LedgerM (Bool × Block)
  | _, [], b => return (true, b)
  | position, env :: l, b => do
    let (_, _, isTestMode) ← askLedger
    let (valid, r) ← TransactionFrm.validForApply w env (!isTestMode)
    if !valid then
      proposeLoopOut clock (position + 1) l (b.drop position)
    else
      let (error, totalFee) ← TransactionFrm.payFee w env b.totalFee
      if error.isSome then
        proposeLoopOut clock (position + 1) l ({ b with totalFee := totalFee }.drop position)
      else
        let n := b.applyTxFrms.length
        let (tx, totalFee) ← transaction w env r fun i => enforced w fuel (clock.txLate n) i totalFee
        let b := { b with totalFee := totalFee }.note (position - b.needDroppedTx.length) tx
        if clock.blockLate n then
          return (false, b)
        proposeLoopOut clock (position + 1) l b

/-- `ApplyPropose` with its out parameter. -/
def applyProposeOut (clock : Clock) (request : ConsensusValue) : LedgerM (ProposeTxsResult × Block) := do
  if request.validation.isSome then
    return ({}, {})
  let (ended, b) ← proposeLoopOut w fuel clock 0 request.txset {}
  if !ended then
    return ({ needDroppedTx := b.needDroppedTx }, b)
  let _ ← allocateReward w b.totalFee
  return ({
    execResult := true
    consValidation := setValidationToProto b.expireTxs b.errorTxs
    needDroppedTx := b.needDroppedTx }, b)

end LedgerFrm

/-- The ledger a context has made: the block, and the environments it is committed from. -/
structure AppliedLedger where
  block : Block
  context : LedgerContext

structure FinishedContext where
  value : ConsensusRequest
  proposeResult : ProposeTxsResult
  closingLedger : Option AppliedLedger

/-- `LedgerContext::Do` of a context that is made for a value. -/
def LedgerContext.run (w : World) (fuel : ℕ) (clock : Clock) (propose : Bool) (value : ConsensusRequest) :
    Option FinishedContext :=
  let request := value.toConsensusValue
  if propose then
    (LedgerFrm.applyProposeOut w fuel clock request (.start request)).map fun ((result, block), context) =>
      { value, proposeResult := result, closingLedger := some { block, context } }
  else
    (LedgerFrm.applyCheck w fuel clock request (.start request)).map fun (found, context) =>
      { value, proposeResult := { execResult := found.isSome }
        closingLedger := found.map fun block => { block, context } }

structure LedgerContextManager where
  completedCtxs : TreeMap String FinishedContext := ∅
  /-- The threads that were cancelled and have not ended. -/
  cancelled : List ConsensusRequest := []

/-- How the thread of a context goes: it is not started, it ends before its time is up, or it is cancelled with some
transactions applied. -/
inductive Pace where
  | notStarted
  | inTime (clock : Clock)
  | late (txCount : Int64)

namespace LedgerContextManager
variable (n : LedgerNode) (w : World) (fuel : ℕ)

def chash (value : ConsensusRequest) : String := n.crypto (n.serializeValue value)

def checkComplete (hash : String) (m : LedgerContextManager) : Int :=
  match m.completedCtxs[hash]? with
  | some context => if context.proposeResult.execResult then 1 else 0
  | none => -1

/-- The end of `Do`: `opensesameRunningToComplete` for a context that went well; any other is only deleted. -/
def finish (context : FinishedContext) (m : LedgerContextManager) : LedgerContextManager :=
  if context.proposeResult.execResult then
    { m with completedCtxs := m.completedCtxs.insertIfNew (chash n context.value) context }
  else m

/-- `SyncPreProcess`: what it returns and what it fills into a new `ProposeTxsResult`, which is what both callers hand
over. -/
def syncPreProcess (pace : Pace) (value : ConsensusRequest) (propose : Bool) (m : LedgerContextManager) :
    Option ((Bool × ProposeTxsResult) × LedgerContextManager) :=
  if m.checkComplete (chash n value) > 0 then some ((m.checkComplete (chash n value) == 1, {}), m)
  else match pace with
    | .notStarted => some ((false, { blockTimeout := true }), m)
    | .inTime clock => (LedgerContext.run w fuel clock propose value).map fun context =>
        ((context.proposeResult.execResult, context.proposeResult), finish n context m)
    | .late txCount =>
      some ((false, { blockTimeout := true, txExecuteCount := txCount }), { m with cancelled := value :: m.cancelled })

/-- The thread of a cancelled context ends; what its contracts did before they were stopped is open. -/
def cancelledEnds (i : ℕ) (result : ProposeTxsResult) (ledger : Option AppliedLedger) (m : LedgerContextManager) :
    LedgerContextManager :=
  match m.cancelled[i]? with
  | none => m
  | some value => finish n { value, proposeResult := result, closingLedger := ledger }
      { m with cancelled := m.cancelled.eraseIdx i }

def reopensesameCompleted (ledgerSeq : Int64) (m : LedgerContextManager) : LedgerContextManager :=
  { m with completedCtxs := m.completedCtxs.filter fun _ context => !decide (context.value.ledgerSeq ≤ ledgerSeq) }

/-- `SyncProcess`: the ledger that is closed with a value. -/
def syncProcess (value : ConsensusRequest) (m : LedgerContextManager) : Option (Option AppliedLedger) :=
  match m.completedCtxs[chash n value]? with
  | some context => some context.closingLedger
  | none => (LedgerFrm.applyFollow w fuel value.toConsensusValue (.start value.toConsensusValue)).map
      fun (found, context) => found.map fun block => { block, context }

end LedgerContextManager
end OpenSesame
