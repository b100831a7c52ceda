import OpenSesame.Ledger.Protocol

/-! # The interface between the ledger and the script engine

The engine that runs the scripts is a parameter: a deterministic machine that, step by step, asks the host to
check its limits, calls a host function, or ends. The readings of a check (memory, remaining stack, whether the
time is up) are part of the machine, so two runs from the same start see the same readings as long as they get
the same answers. A script may go on after an exception: the machine is told of it and decides. -/

namespace OpenSesame
open Protocol

structure ContractParameter where
  init : Bool
  code : String
  input : String
  thisAddress : Address
  /-- `block_` -/
  blockNumber : Int64
  blockTimestamp : Int64
  /-- `tx_` -/
  txInitiator : Address
  txSender : Address
  txGasPrice : Int64
  txFeeLimit : Int64
  txHash : String
  /-- `msg_` -/
  msgInitiator : Address
  msgSender : Address
  msgAsset : Asset
  msgCoinAmount : Int64
  msgOperationIndex : ℕ
  msgNonce : Int64

/-- The host functions that touch the ledger, with their arguments; the amounts are texts. -/
inductive HostCall where
  /-- `sha256`, `ecVerify`, `toAddress` and `getBlockHash`: steps are counted, the value is the engine's own. -/
  | compute
  | getBalance (address : Address)
  | getAccountAsset (address : Address) (key : AssetKey)
  | getAccountMetadata (address : Address) (key : String)
  | getContractProperty (address : Address)
  | load (key : String)
  | getValidators
  | contractQuery (address : Address) (input : String)
  | delegateQuery (address : Address) (input : String)
  | store (key value : String)
  | del (key : String)
  | configFee (fees : Json)
  | setValidators (validators : Json)
  | payCoin (dest : Address) (amount input remark : String)
  | issueAsset (code amount : String)
  | payAsset (dest issuer : Address) (code amount input remark : String)
  | tlog (topic : String) (datas : List String)
  | delegateCall (address : Address) (input : String)
  | contractCall (dest : Address) (asset : Option AssetKey) (amount input : String)
  | contractCreate (balance code input : String)

inductive Reply where
  | value (v : Json)
  | throw (desc : String)

/-- How a script ends: where `ExecuteCode` stops, with the text of the exception, or its result. -/
inductive Finish where
  | returned (result : Json)
  | notCompiled (desc : String)
  | runFailed (desc : String)
  | noFunction (desc : String)
  | callFailed (desc : String)

inductive Act (σ : Type) where
  /-- `InternalCheckTime`, with what it reads; the machine is told whether it threw. -/
  | checkTime (usedHeapSize remainStackSize : Int64) (late : Bool) (k : Bool → σ)
  | host (call : HostCall) (k : Reply → σ)
  | finish (f : Finish)

structure Engine where
  State : Type
  boot : (readonly : Bool) → ContractParameter → State
  next : State → Act State

end OpenSesame
