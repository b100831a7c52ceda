import OpenSesame.Common.General
import OpenSesame.Contract.Engine
import OpenSesame.Ledger.Environment

/-! # `ledger/ledgercontext_manager.h` and the state a block is applied in

`World` is what the application of a block reads and never changes: the last closed ledger with its account
database, and the functions of the node around it. `LedgerContext` is what it changes: the environments, the
transactions and the stack of running ones. A computation that ends in `none` is one that dereferences a null
pointer, or one that was not given enough fuel. -/

namespace OpenSesame
open Protocol General

structure World where
  /-- Header, fees and validators of the last closed ledger. -/
  version : Int64
  seq : Int64
  fees : FeeConfig
  validators : List Validator
  /-- `LedgerManager::GetValidators` for the ledger before the one that is closed. -/
  previousValidators : Option (List Validator)
  db : AccountDb
  /-- `Configure`: `forbid_addrs_`. -/
  forbidAddrs : List Address
  /-- `ByteSize` of a transaction. -/
  byteSize : TransactionEnv → ℕ
  /-- The hexadecimal text of `GetContentHash`. -/
  contentHash : TransactionEnv → String
  /-- Whether an address is in `valid_signature_`. -/
  validSignature : TransactionEnv → Address → Bool
  /-- `PublicKey::IsAddressValid`. -/
  isAddressValid : Address → Bool
  /-- `GetEncAddress` of the key a text is taken for. -/
  encAddress : String → Address
  /-- `V8Contract::SourceCodeCheck`: the description of the error, if there is one. -/
  jslint : String → Option String
  engine : Engine

namespace World
variable (w : World)

def checkVersionGt1000 : Bool := w.version > ledgerVersionHistory1000

def checkVersionGt1001 : Bool := w.version > ledgerVersionHistory1001

def checkVersionGt1002 : Bool := w.version > ledgerVersionHistory1002

def getContractValidatorAddress : Address :=
  if w.checkVersionGt1002 then contractDposAddress else contractValidatorAddress

def getContractFeeAddress : Address :=
  if w.checkVersionGt1002 then contractDposAddress else contractFeeAddress

end World

/-- `TransactionFrm`. The environment is given by its depth; it is a null pointer before `Apply`. -/
structure TransactionFrm where
  transactionEnv : TransactionEnv
  result : Result := {}
  environment : Option ℕ := none
  processingOperation : ℕ := 0
  actualGas : Int64 := 0
  contractStep : Int32 := 0
  contractMemoryUsage : Int64 := 0
  contractStackUsage : Int64 := 0
  contractStackMaxValue : Int64 := 0
  enableCheck : Bool := false

/-- What happened in a run; nothing reads it back.
* `missed`: an account was looked up in a frame that passes over a layer which holds it.
* `tripped`: how often `InternalCheckTime` has thrown.
* `wrapped`: a nonce of `2 ^ 63 - 1` was increased.
* `failed`: how often `DoTransaction` or a `delegateCall` has ended with an error. -/
structure Trace where
  missed : Bool := false
  tripped : ℕ := 0
  wrapped : Bool := false
  failed : ℕ := 0

/-- `LedgerContext` with its `LedgerFrm`. -/
structure LedgerContext where
  /-- `ledger_seq` and `close_time` of the consensus value. -/
  ledgerSeq : Int64
  closeTime : Int64
  isTestMode : Bool
  envs : Environments
  /-- The transactions by number; `transaction_stack_` holds their numbers, the one on top first. -/
  txs : ℕ → TransactionFrm
  next : ℕ
  transactionStack : List ℕ
  trace : Trace

/-- What stands where there is no transaction. -/
def TransactionFrm.blank : TransactionFrm := { transactionEnv := { transaction := { sourceAddress := "" } } }

abbrev LedgerM := StateT LedgerContext Option

/-- A null pointer is dereferenced. -/
def crash {α : Type} : LedgerM α := fun _ => none

def onlyIf (c : Bool) (m : LedgerM Unit) : LedgerM Unit :=
  if c then m else pure ()

/-! ### Accounts and settings -/

/-- Whether a lookup in the frame of depth `d` passes over a layer that holds the account. -/
def Environments.passesOver (e : Environments) (d : ℕ) (a : Address) : Bool :=
  (e.accounts (d + 1) a).isNone && (e.accounts d a).isNone && (List.range d).any fun i => (e.accounts i a).isSome

def getEntry (w : World) (d : ℕ) (a : Address) : LedgerM (Option AccountFrm) := fun s =>
  let r := s.envs.getEntry w.db d a
  some (r.1, { s with
      envs := r.2
      trace := { s.trace with missed := s.trace.missed || s.envs.passesOver d a } })

def addEntry (d : ℕ) (a : Address) (frm : AccountFrm) : LedgerM Unit := fun s =>
  some ((), { s with envs := s.envs.addEntry d a frm })

def alterEntry (d : ℕ) (a : Address) (f : AccountFrm → AccountFrm) : LedgerM Unit := fun s =>
  some ((), { s with envs := s.envs.alterEntry d a f })

/-- `AccountFrm::NonceIncrease` through a pointer. -/
def nonceIncrease (d : ℕ) (a : Address) : LedgerM Unit := fun s =>
  let full := match s.envs.accounts (d + 1) a with
    | some (some frm) => frm.nonce == 9223372036854775807
    | _ => false
  some ((), { s with
      envs := s.envs.alterEntry d a AccountFrm.nonceIncrease
      trace := { s.trace with wrapped := s.trace.wrapped || full } })

/-- `AccountFrm::GetAsset` through a pointer to an account that was read as `frm`. -/
def getAsset (w : World) (d : ℕ) (a : Address) (frm : AccountFrm) (key : AssetKey) : LedgerM (Option Int64) := do
  alterEntry d a fun x => (x.getAsset w.db key).2
  return (frm.getAsset w.db key).1

/-- `AccountFrm::GetMetaData` through a pointer to an account that was read as `frm`. -/
def getMetaData (w : World) (d : ℕ) (a : Address) (frm : AccountFrm) (key : String) : LedgerM (Option KeyPair) := do
  alterEntry d a fun x => (x.getMetaData w.db key).2
  return (frm.getMetaData w.db key).1

def commit (d : ℕ) : LedgerM Unit := fun s => some ((), { s with envs := s.envs.commit d })

def newStackFrameEnv (d : ℕ) : LedgerM Unit := fun s => some ((), { s with envs := s.envs.newStackFrameEnv d })

def getValidators (w : World) (d : ℕ) : LedgerM Json := fun s =>
  let r := s.envs.getValidators w.validators d
  some (r.1, { s with envs := r.2 })

def updateFeeConfig (d : ℕ) (feeConfig : Json) : LedgerM Unit := fun s =>
  some ((), { s with envs := s.envs.updateFeeConfig d feeConfig })

def updateNewValidators (d : ℕ) (validators : Json) : LedgerM Unit := fun s =>
  some ((), { s with envs := s.envs.updateNewValidators d validators })

/-- A value of the consensus value, or whether the node is in test mode. -/
def askLedger : LedgerM (Int64 × Int64 × Bool) := fun s => some ((s.ledgerSeq, s.closeTime, s.isTestMode), s)

def askTx {β : Type} (i : ℕ) (g : TransactionFrm → β) : LedgerM β := fun s => some (g (s.txs i), s)

def alterTx (i : ℕ) (f : TransactionFrm → TransactionFrm) : LedgerM Unit := fun s =>
  some ((), { s with txs := Function.update s.txs i (f (s.txs i)) })

/-- `transaction_stack_.push_back` of a new transaction: its number. -/
def pushTx (frm : TransactionFrm) : LedgerM ℕ := fun s =>
  some (s.next, { s with
      txs := Function.update s.txs s.next frm
      next := s.next + 1
      transactionStack := s.next :: s.transactionStack })

/-- `transaction_stack_.push_back` of a transaction that is there. -/
def pushAgain (i : ℕ) : LedgerM Unit := fun s => some ((), { s with transactionStack := i :: s.transactionStack })

def popTx : LedgerM Unit := fun s =>
  if s.transactionStack = [] then none
  else some ((), { s with transactionStack := s.transactionStack.tail })

/-- Transactions that no pointer refers to any more are gone. -/
def releaseTxs : LedgerM Unit := fun s =>
  some ((), if s.transactionStack = [] then { s with txs := fun _ => .blank, next := 0 } else s)

def stackSize : LedgerM ℕ := fun s => some (s.transactionStack.length, s)

def getBottomTx : LedgerM ℕ := fun s => s.transactionStack.getLast?.map fun i => (i, s)

def getTopTx : LedgerM ℕ := fun s => s.transactionStack.head?.map fun i => (i, s)

def environmentOf (i : ℕ) : LedgerM ℕ := do
  match ← askTx i TransactionFrm.environment with
  | none => crash
  | some d => return d

/-- What `DoTransaction` or a `delegateCall` has ended with is noted. -/
def noteResult (r : Result) : LedgerM Unit := fun s =>
  some ((), { s with trace := { s.trace with failed := s.trace.failed + (r.code != .success).toNat } })

/-- `GetTopTx()->environment_`. -/
def topEnvironment : LedgerM ℕ := do
  environmentOf (← getTopTx)

end OpenSesame
