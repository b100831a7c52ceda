import OpenSesame.Ledger.TransactionFrm

/-! # `contract/v8_contract*.cpp`, `contract_manager.cpp` and `LedgerManager::DoTransaction`

A script runs by asking the engine for its next step and doing what it asks for. A host function that writes
makes a transaction of its own, which may run further scripts. `run` is the way back: it runs a script to its
end and gives how it ended and the `result_` of its contract. -/

namespace OpenSesame
open Protocol TransactionFrm

structure V8Contract where
  readonly : Bool
  parameter : ContractParameter
  result : Result := {}

namespace V8Contract
variable (w : World)

/-- The code is set where it is not set yet. -/
def failCode (r : Result) : Result :=
  if r.code = .success then { r with code := .contractExecuteFail } else r

/-- `result_` at the end of `ExecuteCode`; up to version 1001 a script that does not compile or run leaves the
code alone. -/
def finishResult (r : Result) : Finish → Result
  | .notCompiled desc => { r with desc := desc, code := if w.checkVersionGt1001 then .contractExecuteFail else r.code }
  | .runFailed desc => { (if w.checkVersionGt1001 then failCode r else r) with desc := desc }
  | .noFunction desc => { r with code := .contractExecuteFail, desc := desc }
  | .callFailed desc => if r.code = .success then { r with code := .contractExecuteFail, desc := desc } else r
  | .returned v => { r with contractResult := v }

section Manager
variable (run : Bool → ContractParameter → LedgerM (Finish × Result))

def tooDeep : LedgerM Bool := do
  let size ← stackSize
  return w.checkVersionGt1001 && decide (size > General.contractMaxRecursiveDepth)

/-- `ContractManager::Execute`; type 0 is `TYPE_V8`. -/
def execute (type : Int32) (p : ContractParameter) : LedgerM Result := do
  if ← tooDeep w then
    return .error .contractTooManyRecursion "Too many recursion."
  if type != 0 then
    return { code := .contractExecuteFail }
  let (f, r) ← run false p
  return finishResult w r f

/-- `ContractManager::Query`: the value the script returns, if it gets there. -/
def query (type : Int32) (p : ContractParameter) : LedgerM (Option Json) := do
  if ← tooDeep w then
    return none
  if type != 0 then
    return none
  match ← run true p with
  | (.returned v, _) => return some v
  | _ => return none

def checkContractDepthSafe (size : ℕ) : Bool :=
  w.checkVersionGt1001 || decide (size < General.contractMaxRecursiveDepth)

/-- `Apply` of the new transaction `i` in a new frame over depth `d`, or only its fee if it is not valid. -/
def applyOrCharge (i d : ℕ) (valid : Bool) : LedgerM Unit := do
  if valid then
    newStackFrameEnv d
    let _ ← apply w (execute w run 0) i (d + 1) true
    return ()
  else
    let bottom ← getBottomTx
    let _ ← addActualFee w bottom i
    return ()

/-- The part of `DoTransaction` after the new transaction was pushed as `i`; `d` is the depth of the environment
of the transaction that made it. -/
def applyPushed (i d : ℕ) (env : TransactionEnv) : LedgerM Result := do
  TransactionFrm.nonceIncrease w i d
  let size ← stackSize
  let r ← askTx i TransactionFrm.result
  let (valid, r) := TransactionFrm.validForParameter w env size r
  TransactionFrm.alterResult i fun _ => r
  applyOrCharge w run i d valid
  let r ← askTx i TransactionFrm.result
  if r.code = .feeNotEnough ∨ r.code = .contractTooManyTransactions then
    -- up to version 1002 the transaction stays on the stack
    onlyIf w.checkVersionGt1002 popTx
    return r
  onlyIf (r.code = .success) (commit (d + 1))
  popTx
  return r

def doTransaction (env : TransactionEnv) : LedgerM Result := do
  let d ← topEnvironment
  match ← getEntry w d env.transaction.sourceAddress with
  | none => crash
  | some source =>
    let env := { env with transaction := { env.transaction with nonce := source.nonce + 1 } }
    let size ← stackSize
    if !checkContractDepthSafe w size then
      let bottom ← getBottomTx
      alterTx bottom fun t => { t with actualGas := t.actualGas + TransactionFrm.getSelfGas w env }
      return .error .contractTooManyRecursion "Too many recursion."
    let i ← pushTx { transactionEnv := env }
    applyPushed w run i d env

/-! ### Host functions that read -/

/-- `GetBottomTx()->ContractStepInc`. -/
def stepBottom (step : Int32) : LedgerM Unit := do
  alterTx (← getBottomTx) (contractStepInc step)

/-- `GetTopTx()->ContractStepInc`. -/
def stepTop (step : Int32) : LedgerM Unit := do
  alterTx (← getTopTx) (contractStepInc step)

def callBackGetBalance (a : Address) : LedgerM Json := do
  stepBottom 100
  let d ← topEnvironment
  let frm := (← getEntry w d a).or (w.db.accountFromDB a)
  return .str (match frm with
    | none => "0"
    | some frm => toString frm.balance.toInt)

def callBackGetAccountAsset (a : Address) (key : AssetKey) : LedgerM Json := do
  stepBottom 100
  let d ← topEnvironment
  match ← getEntry w d a with
  | none => return .bool false
  | some frm =>
    match ← getAsset w d a frm key with
    | none => return .bool false
    | some amount => return .str (toString amount.toInt)

def metadataOf (d : ℕ) (a : Address) (key : String) : LedgerM Json := do
  match ← getEntry w d a with
  | none => return .bool false
  | some frm =>
    match ← getMetaData w d a frm key with
    | none => return .bool false
    | some kp => return .str kp.value

def callBackGetAccountMetadata (a : Address) (key : String) : LedgerM Json := do
  stepBottom 100
  metadataOf w (← topEnvironment) a key

/-- `CallBackStorageLoad`: the steps go to the transaction on top. -/
def callBackStorageLoad (c : V8Contract) (key : String) : LedgerM Json := do
  stepTop 100
  metadataOf w (← topEnvironment) c.parameter.thisAddress key

def callBackGetContractProperty (a : Address) : LedgerM Json := do
  stepBottom 100
  let d ← topEnvironment
  match ← getEntry w d a with
  | none => return .bool false
  | some frm =>
    return match frm.info.contract with
      | none => .obj [("type", .num (-1)), ("length", .num 0)]
      | some contract =>
        .obj [("type", .num contract.type.toInt64), ("length", .num (Int64.ofNat (Strings.size contract.payload)))]

def callBackGetValidators : LedgerM Json := do
  getValidators w (← topEnvironment)

def contractOf (frm : Option AccountFrm) : Option Contract :=
  match frm with
  | none => none
  | some frm =>
    match frm.info.contract with
    | none => none
    | some contract => if Strings.size contract.payload = 0 then none else some contract

def queryParameter (c : V8Contract) (code input : String) (a : Address) : ContractParameter :=
  { c.parameter with
    code := code, init := false, input := input, thisAddress := a
    msgAsset := {}, msgCoinAmount := 0, msgNonce := 0, msgOperationIndex := 0
    msgSender := c.parameter.thisAddress }

def delegateParameter (c : V8Contract) (code input : String) : ContractParameter :=
  { c.parameter with code := code, init := false, input := input }

/-- A query with the transaction on top pushed once more, as an object with a result or an error. -/
def pushedQuery (a : Address) (parameter : String → ContractParameter) : LedgerM Json := do
  stepBottom 100
  let d ← topEnvironment
  match contractOf (← getEntry w d a) with
  | none => return .obj [("error", .bool true)]
  | some contract =>
    pushAgain (← getTopTx)
    let r ← query w run contract.type (parameter contract.payload)
    popTx
    match r with
    | none => return .obj [("error", .bool true)]
    | some v => return .obj [("result", v)]

/-- `CallBackContractQuery` up to version 1001: `success` is never true. -/
def oldContractQuery (c : V8Contract) (a : Address) (input : String) : LedgerM Json := do
  stepBottom 1000
  let d ← topEnvironment
  match contractOf (← getEntry w d a) with
  | none => return .obj [("success", .bool false)]
  | some contract =>
    match ← query w run contract.type (c.queryParameter contract.payload input a) with
    | none => return .obj [("success", .bool false), ("error", .bool true)]
    | some v => return .obj [("success", .bool false), ("result", v)]

def callBackContractQuery (c : V8Contract) (a : Address) (input : String) : LedgerM Json :=
  if w.checkVersionGt1001 then pushedQuery w run a fun code => c.queryParameter code input a
  else oldContractQuery w run c a input

def callBackDelegateQuery (c : V8Contract) (a : Address) (input : String) : LedgerM Json :=
  pushedQuery w run a fun code => c.delegateParameter code input

/-! ### Host functions that write

They give the reply and the `result_` of the contract, which keeps the result of a transaction that failed, even
if the script catches the exception. -/

/-- The reply to a result, and `result_`. -/
def settle (c : V8Contract) (r : Result) (answer : Json) : Reply × Result :=
  if r.code != .success then (.throw s!"Failed to process transaction({r.desc})", r)
  else (.value answer, c.result)

/-- A transaction of the contract with one operation. -/
def transact (c : V8Contract) (op : Operation) (answer : Result → Json) : LedgerM (Reply × Result) := do
  let r ← doTransaction w run { transaction := { sourceAddress := c.parameter.thisAddress, operations := [op] } }
  noteResult r
  return c.settle r (answer r)

def amountOf (text : String) : Option Int64 :=
  match Strings.safeStoi64 text with
  | none => none
  | some n => if n < 0 then none else some n

/-- A remark is only taken after version 1002. -/
def remarkOf (remark : String) : String := if w.checkVersionGt1002 then remark else ""

/-- A function that takes an amount: the steps, and the transaction unless the amount is no amount. -/
def withAmount (c : V8Contract) (amount desc : String) (op : Int64 → Operation) (answer : Result → Json) :
    LedgerM (Reply × Result) := do
  stepBottom 100
  match amountOf amount with
  | none => return (.throw desc, c.result)
  | some n => transact w run c (op n) answer

def callBackPayCoin (c : V8Contract) (dest : Address) (amount input remark : String) : LedgerM (Reply × Result) :=
  withAmount w run c amount s!"Failed to execute paycoin function in contract, dest_address:{dest}, amount:{amount}."
    (fun n =>
      { type := .payCoin, metadata := remarkOf w remark
        payCoin := { destAddress := dest, amount := n, input := input } })
    fun _ => .bool true

def callBackIssueAsset (c : V8Contract) (code amount : String) : LedgerM (Reply × Result) :=
  withAmount w run c amount
    s!"Failed to execute issueAsset function in contract, asset code:{code}, asset amount:{amount}."
    (fun n => { type := .issueAsset, issueAsset := { code := code, amount := n } })
    fun _ => .bool true

def callBackPayAsset (c : V8Contract) (dest issuer : Address) (code amount input remark : String) :
    LedgerM (Reply × Result) :=
  withAmount w run c amount s!"Failed to execute payAsset function in contract, dest_address:{dest}, amount:{amount}."
    (fun n =>
      { type := .payAsset, metadata := remarkOf w remark
        payAsset :=
          { destAddress := dest, asset := some { key := some { issuer := issuer, code := code }, amount := n }
            input := input } })
    fun _ => .bool true

/-- The operation of `CallBackCall`: coins, or an asset. -/
def callOperation (dest : Address) (asset : Option AssetKey) (input : String) (n : Int64) : Operation :=
  match asset with
  | none => { type := .payCoin, payCoin := { destAddress := dest, amount := n, input := input } }
  | some key =>
    { type := .payAsset
      payAsset :=
        { destAddress := dest, asset := some { key := some { issuer := key.issuer, code := key.code }, amount := n }
          input := input } }

def callBackCall (c : V8Contract) (dest : Address) (asset : Option AssetKey) (amount input : String) :
    LedgerM (Reply × Result) :=
  withAmount w run c amount s!"Failed to execute call function in contract, dest_address:{dest}, amount:{amount}."
    (callOperation dest asset input)
    fun r => match r.contractResult with
      | .null => .bool true
      | v => v

def callBackCreate (c : V8Contract) (balance code input : String) : LedgerM (Reply × Result) :=
  withAmount w run c balance s!"Failed to execute contractCreate function in contract, arg_0:{balance}." (fun n =>
      { type := .createAccount
        createAccount :=
          { initBalance := n, initInput := input, contract := some { type := 0, payload := code }
            priv := some { thresholds := some { txThreshold := 1 } } } })
    fun r => match r.contractResult with
      | .obj members => ((members.find? fun m => m.1 == "value").map (·.2)).getD .null
      | _ => .null

/-- `SetMetaData`: `CallBackStorageStore` and, with `isDel`, `CallBackStorageDel`. -/
def setMetaData (c : V8Contract) (key value : String) (isDel : Bool) : LedgerM (Reply × Result) := do
  stepBottom 100
  if key == "" then
    return (.throw "Key is empty.", c.result)
  transact w run c { type := .setMetadata, setMetadata := { key := key, value := value, deleteFlag := isDel } }
    fun _ => .bool true

def callBackTopicLog (c : V8Contract) (topic : String) (datas : List String) : LedgerM (Reply × Result) := do
  stepBottom 100
  transact w run c { type := .log, log := { topic := topic, datas := datas } } fun _ => .bool true

/-- `CallBackDelegateCall`: the other contract runs in the place of this one. -/
def callBackDelegateCall (c : V8Contract) (a : Address) (input : String) : LedgerM (Reply × Result) := do
  stepBottom 100
  let d ← topEnvironment
  let frm ← getEntry w d a
  match contractOf frm with
  | none =>
    return (.throw (if frm.isNone then s!"Failed to find account {a}." else s!"The account({a}) has no contract."),
      c.result)
  | some contract =>
    pushAgain (← getTopTx)
    let r ← execute w run contract.type (c.delegateParameter contract.payload input)
    popTx
    noteResult r
    return c.settle r r.contractResult

def callBackConfigFee (c : V8Contract) (fees : Json) : LedgerM (Reply × Result) := do
  if c.parameter.thisAddress != w.getContractFeeAddress then
    return (.throw "This address has no priority.", c.result)
  updateFeeConfig (← topEnvironment) fees
  return (.value (.bool true), c.result)

def callBackSetValidators (c : V8Contract) (validators : Json) : LedgerM (Reply × Result) := do
  if c.parameter.thisAddress != w.getContractValidatorAddress then
    return (.throw
      s!"contract({c.parameter.thisAddress}) has no permission to call callBackSetValidators interface.", c.result)
  updateNewValidators (← topEnvironment) validators
  return (.value (.bool true), c.result)

/-! ### Running a script -/

/-- A host function that reads: its value, and `result_` unchanged. -/
def reply (c : V8Contract) (m : LedgerM Json) : LedgerM (Reply × Result) := do
  return (.value (← m), c.result)

/-- Whether a script has the function: those of the `Chain` object came with version 1002, and a contract that
is readonly has none that writes. -/
def available (c : V8Contract) : HostCall → Bool
  | .getAccountMetadata .. | .getContractProperty _ | .delegateQuery .. => w.checkVersionGt1001
  | .store .. | .del _ | .configFee _ | .setValidators _ | .payCoin .. | .issueAsset .. | .payAsset .. | .tlog .. =>
    !c.readonly
  | .delegateCall .. | .contractCall .. | .contractCreate .. => w.checkVersionGt1001 && !c.readonly
  | _ => true

def hostCall (c : V8Contract) : HostCall → LedgerM (Reply × Result)
  | .compute => do
    stepBottom 100
    return (.value .null, c.result)
  | .getBalance a => c.reply (callBackGetBalance w a)
  | .getAccountAsset a key => c.reply (callBackGetAccountAsset w a key)
  | .getAccountMetadata a key => c.reply (callBackGetAccountMetadata w a key)
  | .getContractProperty a => c.reply (callBackGetContractProperty w a)
  | .load key => c.reply (callBackStorageLoad w c key)
  | .getValidators => c.reply (callBackGetValidators w)
  | .contractQuery a input => c.reply (callBackContractQuery w run c a input)
  | .delegateQuery a input => c.reply (callBackDelegateQuery w run c a input)
  | .store key value => setMetaData w run c key value false
  | .del key => setMetaData w run c key "" true
  | .configFee fees => callBackConfigFee w c fees
  | .setValidators validators => callBackSetValidators w c validators
  | .payCoin dest amount input remark => callBackPayCoin w run c dest amount input remark
  | .issueAsset code amount => callBackIssueAsset w run c code amount
  | .payAsset dest issuer code amount input remark => callBackPayAsset w run c dest issuer code amount input remark
  | .tlog topic datas => callBackTopicLog w run c topic datas
  | .delegateCall a input => callBackDelegateCall w run c a input
  | .contractCall dest asset amount input => callBackCall w run c dest asset amount input
  | .contractCreate balance code input => callBackCreate w run c balance code input

/-- `InternalCheckTime`: whether it throws. -/
def internalCheckTime (memory remain : Int64) (late : Bool) : LedgerM Bool := do
  let bottom ← getBottomTx
  alterTx bottom fun t => (t.contractStepInc 1).setUsage memory remain
  trip bottom late

/-- A script from a state of the engine on, for at most the given number of steps. -/
def steps : ℕ → V8Contract → w.engine.State → LedgerM (Finish × Result)
  | 0, _, _ => crash
  | n + 1, c, σ =>
    match w.engine.next σ with
    | .finish f => return (f, c.result)
    | .checkTime memory remain late k => do
      let thrown ← internalCheckTime memory remain late
      steps n c (k thrown)
    | .host call k => do
      if !c.available w call then
        steps n c (k (.throw "is not defined"))
      else
        let (reply, result) ← hostCall w run c call
        steps n { c with result := result } (k reply)

end Manager

/-- A script from its start on. The fuel bounds its steps and the depth of the scripts it runs. -/
def runScript : ℕ → Bool → ContractParameter → LedgerM (Finish × Result)
  | 0, _, _ => crash
  | n + 1, readonly, p => steps w (runScript n) n { readonly := readonly, parameter := p } (w.engine.boot readonly p)

end V8Contract
end OpenSesame
