import OpenSesame.Ledger.OperationFrm

/-! # `ledger/transaction_frm.cpp`: checking, charging and applying a transaction -/

namespace OpenSesame
open Protocol SafeInt OperationFrm General Result

def getOperationTypeGas (op : Operation) : Int64 :=
  match op.type with
  | .createAccount => if op.createAccount.payload != "" then 1000000 else 0
  | .issueAsset => 5000000
  | _ => 0

namespace TransactionFrm
variable (w : World)

def getSelfGas (env : TransactionEnv) : Int64 :=
  env.transaction.operations.foldl (fun gas op => gas + getOperationTypeGas op) (Int64.ofNat (w.byteSize env))

def shortHash (env : TransactionEnv) : String := String.ofList ((w.contentHash env).toList.take 8)

/-- The loop over the operations: whether they are valid, and `result_`. -/
def checkOperations (tran : Transaction) (stackSize : ℕ) : ℕ → List Operation → Result → Bool × Result
  | _, [], r => (true, r)
  | i, op :: l, r =>
    let source := sourceAddress tran op
    if !w.isAddressValid source then (false, r.set .invalidAddress "Source address is not valid")
    else if Strings.size op.metadata > metadataMaxValueSize then
      (false, r.set .invalidParameter
        s!"Length of the metadata from operation({i}) exceeds the limit({General.metadataMaxValueSize}).")
    else
      let r := checkValid w op source stackSize
      if r.code != .success then (false, r) else checkOperations tran stackSize (i + 1) l r

/-- `ValidForParameter` of a transaction that has no ledger yet, with its `result_`. -/
def validForParameter (env : TransactionEnv) (stackSize : ℕ) (r : Result) : Bool × Result :=
  let tran := env.transaction
  let p := max 0 w.fees.gasPrice
  let errors := [ (decide (w.byteSize env ≥ transactionLimitSize), r.set .txSizeTooBig
      s!"Transaction env size({w.byteSize env}) exceed the limit({General.transactionLimitSize})"),
    (decide (tran.operations.length = 0), r.set .missingOperations "Tx missing operation"),
    (decide (tran.operations.length > maxOperationsNumPerTransaction),
      r.set .tooManyOperations "Too many operations in current transaction."),
    (decide (Strings.size tran.metadata > metadataMaxValueSize), r.set .invalidParameter
      s!"Length of the metadata from transaction exceeds the limit({General.metadataMaxValueSize})."),
    (decide (tran.ceilLedgerSeq > 0) && decide (tran.ceilLedgerSeq < w.seq + 1), r.set .invalidParameter
      s!"Limit ledger sequence({tran.ceilLedgerSeq.toInt}) < current ledger sequence({(w.seq + 1).toInt})"),
    (decide (tran.ceilLedgerSeq < 0), r.set .invalidParameter
      s!"Limit ledger sequence({tran.ceilLedgerSeq.toInt}) < 0"),
    (stackSize == 0 && decide (tran.feeLimit < 0), r.set .invalidParameter
      s!"Transaction fee limit({tran.feeLimit.toInt}) < 0"),
    (stackSize == 0 && decide (tran.gasPrice < p), r.set .invalidParameter
      s!"Transaction gas price({tran.gasPrice.toInt}) is less than ({p.toInt})")]
  match errors.find? (·.1) with
  | some e => (false, e.2)
  | none => checkOperations w tran stackSize 0 tran.operations r

def checkFee (env : TransactionEnv) (source : AccountFrm) (r : Result) : Bool × Result :=
  let gasPrice := env.transaction.gasPrice
  let feeLimit := env.transaction.feeLimit
  let selfGas := getSelfGas w env
  match safeIntSub source.balance feeLimit with
  | none =>
    (false, r.set .mathOverflow
      (s!"Calculation overflowed when account({source.info.address})'s reserve balance({source.balance.toInt}) - " ++
        s!"transaction({shortHash w env}) fee limit({feeLimit.toInt})."))
  | some limitBalance =>
    if limitBalance < w.fees.baseReserve then
      (false, r.set .accountLowReserve
        (s!"Account({source.info.address})'s reserve balance({source.balance.toInt}) - " ++
          s!"transaction({shortHash w env}) fee limit({feeLimit.toInt}) < base reserve({w.fees.baseReserve.toInt})"))
    else
      match safeIntMul selfGas gasPrice with
      | none =>
        (false, r.set .invalidParameter
          (s!"Calculation overflowed when Transaction({w.contentHash env}) gas({selfGas.toInt}) * " ++
            s!"gas price({gasPrice.toInt})."))
      | some txFee =>
        if feeLimit < txFee then
          (false, r.set .feeNotEnough
            (s!"Transaction({w.contentHash env}) fee limit({feeLimit.toInt}) is not enough for " ++
              s!"transaction fee({txFee.toInt}) "))
        else (true, r)

/-- `ValidForApply` in the environment of the block: whether it is valid, and `result_`. -/
def validForApply (env : TransactionEnv) (checkPriv : Bool) : LedgerM (Bool × Result) := do
  let (ok, r) := validForParameter w env 0 {}
  if !ok then
    return (false, r)
  let address := env.transaction.sourceAddress
  match ← getEntry w 0 address with
  | none => return (false, r.set .accountNotExist s!"Source account({address}) does not exist")
  | some source =>
    if source.nonce + 1 != env.transaction.nonce then
      return (false, r.set .badSequence
        (s!"Account({address})'s transaction nonce({env.transaction.nonce.toInt}) is not equal to " ++
          s!"reserve nonce({source.nonce.toInt}) + 1."))
    if checkPriv && !signerHashPriv (w.validSignature env) source (.other (-1)) then
      return (false, r.set .invalidSignature s!"Transaction({w.contentHash env})'s signature weight is not enough")
    return checkFee w env source r

/-! ### Fees -/

/-- `PayFee` in the environment of the block: the error, if there is one, and `total_fee_`. -/
def payFee (env : TransactionEnv) (totalFee : Int64) : LedgerM (Option ErrorCode × Int64) := do
  let fee := env.transaction.feeLimit
  let address := env.transaction.sourceAddress
  match ← getEntry w 0 address with
  | none => return (some .accountNotExist, totalFee)
  | some source =>
    match safeIntAdd totalFee fee with
    | none => return (some .mathOverflow, totalFee)
    | some newTotalFee =>
      match safeIntSub source.balance fee with
      | none => return (some .mathOverflow, newTotalFee)
      | some newBalance =>
        alterEntry 0 address (AccountFrm.setBalance newBalance)
        return (none, newTotalFee)

def alterResult (i : ℕ) (f : Result → Result) : LedgerM Unit :=
  alterTx i fun t => { t with result := f t.result }

/-- The refund of `ReturnFee`: `total_fee_` afterwards. -/
def refund (i : ℕ) (address : Address) (fee totalFee : Int64) : LedgerM Int64 := do
  let d ← environmentOf i
  match ← getEntry w d address with
  | none =>
    alterResult i (set .accountNotExist s!"Source account({address}) does not exist")
    return totalFee
  | some source =>
    match safeIntSub totalFee fee with
    | none =>
      alterResult i (set .mathOverflow
        (s!"Calculation overflowed when total fee({totalFee.toInt}) - extra fee({fee.toInt}) " ++
          s!"paid by source account({address})."))
      return totalFee
    | some newTotalFee =>
      match safeIntAdd source.balance fee with
      | none =>
        alterResult i (set .mathOverflow
          (s!"Calculation overflowed when Source account({address})'s balance:({source.balance.toInt}) + " ++
            s!"extra fee({fee.toInt}) of return."))
        return newTotalFee
      | some newBalance =>
        alterEntry d address (AccountFrm.setBalance newBalance)
        return newTotalFee

/-- `ReturnFee`: `total_fee_` afterwards. No caller reads what it returns. -/
def returnFee (i : ℕ) (totalFee : Int64) : LedgerM Int64 := do
  let (env, gas, code) ← askTx i fun t => (t.transactionEnv, t.actualGas, t.result.code)
  let gasPrice := env.transaction.gasPrice
  let feeLimit := env.transaction.feeLimit
  match safeIntMul gas gasPrice with
  | none =>
    alterResult i (set .mathOverflow
      s!"Calculation overflowed when gas quantity({gas.toInt}) * gas price({gasPrice.toInt}).")
    return totalFee
  | some actualFee =>
    match safeIntSub feeLimit actualFee with
    | none =>
      alterResult i (set .mathOverflow (s!"Calculation overflowed when transaction fee limit({feeLimit.toInt}) - " ++
          s!"actual fee({actualFee.toInt})."))
      return totalFee
    | some fee =>
      if code != .success || fee ≤ 0 then
        return totalFee
      refund w i env.transaction.sourceAddress fee totalFee

/-- `AddActualFee`; the error goes into the result of transaction `i`. -/
def addActualFee (bottom i : ℕ) : LedgerM Bool := do
  let env ← askTx i transactionEnv
  alterTx bottom fun t => { t with actualGas := t.actualGas + getSelfGas w env }
  let (bottomEnv, gas) ← askTx bottom fun t => (t.transactionEnv, t.actualGas)
  let gasPrice := bottomEnv.transaction.gasPrice
  let feeLimit := bottomEnv.transaction.feeLimit
  match safeIntMul gas gasPrice with
  | none =>
    alterResult i (set .mathOverflow
      (s!"Calculation overflowed when transaction({w.contentHash bottomEnv}) actual gas({gas.toInt}) * " ++
        s!"gas price({gasPrice.toInt})."))
    return false
  | some actualFee =>
    if actualFee > feeLimit then
      alterResult i (set .feeNotEnough
        (s!"Bottom transaction({w.contentHash bottomEnv}) fee limit({feeLimit.toInt}) is not enough for " ++
          s!"actual fee({(gas * gasPrice).toInt}), and current transaction is {w.contentHash env}, " ++
          s!"current fee is {(getSelfGas w env * gasPrice).toInt}."))
      return false
    return true

def contractStepInc (step : Int32) (t : TransactionFrm) : TransactionFrm :=
  { t with contractStep := t.contractStep + step }

/-- `SetMemoryUsage` and `SetStackRemain`. -/
def setUsage (memory remain : Int64) (t : TransactionFrm) : TransactionFrm :=
  let top := max t.contractStackMaxValue remain
  { t with
    contractMemoryUsage := memory
    contractStackMaxValue := top
    contractStackUsage := top - remain }

/-- The limit a transaction is over; `late` says that `max_end_time_` has passed. -/
def overLimit (late : Bool) (t : TransactionFrm) : Option String :=
  if !t.enableCheck then none
  else if t.contractStep > contractStepLimit then some "Step exceeding limit"
  else if late then some "Time expired"
  else if t.contractMemoryUsage > contractMemoryLimit then some "Memory exceeding limit"
  else if t.contractStackUsage > contractStackLimit then some "Stack exceeding limit"
  else none

/-- What `IsExpire` does to the transaction. -/
def markExpired (late : Bool) (t : TransactionFrm) : TransactionFrm :=
  match t.overLimit late with
  | none => t
  | some info => { t with result := t.result.set .contractExecuteExpired info }

def isExpire (i : ℕ) (late : Bool) : LedgerM Bool := fun s =>
  some (((s.txs i).overLimit late).isSome, { s with txs := Function.update s.txs i ((s.txs i).markExpired late) })

/-- `IsExpire` inside `InternalCheckTime`. -/
def trip (i : ℕ) (late : Bool) : LedgerM Bool := fun s =>
  let thrown := ((s.txs i).overLimit late).isSome
  some (thrown, { s with
      txs := Function.update s.txs i ((s.txs i).markExpired late)
      trace := { s.trace with tripped := s.trace.tripped + thrown.toNat } })

/-- `NonceIncrease` of the transaction, in the environment of depth `d`. -/
def nonceIncrease (i d : ℕ) : LedgerM Unit := do
  let address ← askTx i getSourceAddress
  match ← getEntry w d address with
  | none => alterResult i fun r => { r with code := .accountNotExist }
  | some _ => OpenSesame.nonceIncrease d address

/-- `toFastString` of the descriptions of the operations. -/
def successDesc (descs : List String) : String :=
  "[" ++ ",".intercalate (descs.map Strings.trim) ++ "]\n"

/-- The result after an operation that ended well. -/
def noteSuccess (r : Result) (descs : List String) (old : Result) : Result :=
  { old with
    desc := if r.desc != "" then successDesc descs else old.desc
    contractResult := r.contractResult }

variable (execute : ContractParameter → LedgerM Result)

/-- The loop of `Apply`; `descs` are the descriptions so far. -/
def applyOperations (i d : ℕ) (env : TransactionEnv) (boolContract : Bool) :
    ℕ → List Operation → List String → LedgerM Bool
  | index, [], _ => do
    alterTx i fun t => { t with processingOperation := index }
    return true
  | index, op :: l, descs => do
    alterTx i fun t => { t with processingOperation := index }
    let (_, _, isTestMode) ← askLedger
    let signed ← checkSignatureIf w (!boolContract && !isTestMode) env d op
    if signed.code != .success then
      alterResult i fun _ => signed
      return false
    let r ← apply w execute env.transaction d index op
    if r.code != .success then
      alterResult i fun _ => r
      return false
    let descs := if r.desc != "" then descs ++ [r.desc] else descs
    alterResult i (noteSuccess r descs)
    applyOperations i d env boolContract (index + 1) l descs

/-- `Apply` of transaction `i` in the environment of depth `d`. -/
def apply (i d : ℕ) (boolContract : Bool) : LedgerM Bool := do
  alterTx i fun t => { t with environment := some d }
  let bottom ← getBottomTx
  if !(← addActualFee w bottom i) then
    return false
  let env ← askTx i transactionEnv
  applyOperations w execute i d env boolContract 0 env.transaction.operations []

end TransactionFrm
end OpenSesame
