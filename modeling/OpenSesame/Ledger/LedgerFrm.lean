import OpenSesame.Contract.V8Contract

/-! # `ledger/ledger_frm.cpp`: applying a block

A block is applied by the leader (`applyPropose`), by the validators (`applyCheck`) and by the nodes that follow
(`applyFollow`). A `std::set` of positions is the increasing list of its elements. The clock says, for every
transaction by its number among those that are applied, whether its time is up at the end of its `Apply` and
whether the one of the block is up after it. -/

namespace OpenSesame
open Protocol TransactionFrm AccountFrm

structure Clock where
  txLate : ℕ → Bool
  blockLate : ℕ → Bool

inductive Verdict where
  | applied
  | expired
  | failed
  deriving DecidableEq

/-- A transaction of `apply_tx_frms_`, as it was when it was popped, with its verdict. The last two are noted and
never read: how often `InternalCheckTime` threw in it, and how many transactions it left on the stack. -/
structure AppliedTx where
  frm : TransactionFrm
  verdict : Verdict
  tripped : ℕ
  stackLeft : ℕ

def insertId (x : ℕ) : List ℕ → List ℕ
  | [] => [x]
  | y :: l => if x < y then x :: y :: l else if x = y then y :: l else y :: insertId x l

/-- The members of a `LedgerFrm` that change from transaction to transaction: `total_fee_`, the positions of
transactions that expired or failed, `need_dropped_tx_`, and `apply_tx_frms_`. -/
structure Block where
  totalFee : Int64 := 0
  expireTxs : List ℕ := []
  errorTxs : List ℕ := []
  needDroppedTx : List ℕ := []
  applyTxFrms : List AppliedTx := []

namespace Block

def note (position : ℕ) (tx : AppliedTx) (b : Block) : Block :=
  { b with
    expireTxs := if tx.verdict = .expired then insertId position b.expireTxs else b.expireTxs
    errorTxs := if tx.verdict = .failed then insertId position b.errorTxs else b.errorTxs
    applyTxFrms := b.applyTxFrms ++ [tx] }

def drop (position : ℕ) (b : Block) : Block :=
  { b with needDroppedTx := insertId position b.needDroppedTx }

end Block

/-- One of the loops of `CheckConsValueValidation`: the set of the ids, and `totol_error`. -/
def collectIds (txSize : ℕ) : List Int → List ℕ → List ℕ → Option (List ℕ × List ℕ)
  | [], ids, total => some (ids, total)
  | tid :: l, ids, total =>
    if tid ≥ txSize ∨ tid < 0 then none
    else if total.contains tid.toNat then none
    else collectIds txSize l (insertId tid.toNat ids) (insertId tid.toNat total)

/-- `CheckConsValueValidation`: the sets of transactions that expired and that failed. -/
def checkConsValueValidation (request : ConsensusValue) : Option (List ℕ × List ℕ) :=
  match request.validation with
  | none => some ([], [])
  | some validation => do
    let (expire, total) ← collectIds request.txset.length validation.expireTxIds [] []
    let (error, _) ← collectIds request.txset.length validation.errorTxIds [] total
    return (expire, error)

def setValidationToProto (expireTxs errorTxs : List ℕ) : ConsensusValueValidation :=
  { expireTxIds := expireTxs.map Int.ofNat, errorTxIds := errorTxs.map Int.ofNat }

/-! ### One transaction -/

/-- `ClearChangeBuf` of the environment of the block. The environments of the frames of a transaction end with
it. -/
def clearBlock : LedgerM Unit := fun s =>
  let e := s.envs.clearChangeBuf 0
  some ((), { s with
      envs :=
        { accounts := fun j => if j ≤ 1 then e.accounts j else Overlay.empty
          settings := fun j => if j ≤ 1 then e.settings j else Overlay.empty } })

namespace LedgerFrm
variable (w : World) (fuel : ℕ)

/-- A top transaction is pushed and its nonce increased, in the environment of the block. -/
def enter (env : TransactionEnv) (r : Result) : LedgerM ℕ := do
  let i ← pushTx { transactionEnv := env, result := r }
  TransactionFrm.nonceIncrease w i 0
  commit 0
  return i

def applyTop (i : ℕ) : LedgerM Bool :=
  apply w (V8Contract.execute w (V8Contract.runScript w fuel) 0) i 0 false

/-- The end of a top transaction that was applied: `ReturnFee` and `Commit`; `total_fee_`. -/
def settleTop (i : ℕ) (totalFee : Int64) : LedgerM Int64 := do
  let totalFee ← returnFee w i totalFee
  commit (← environmentOf i)
  return totalFee

def leave : LedgerM Unit := do
  clearBlock
  popTx
  releaseTxs

/-- `Apply` of a top transaction with its limits enforced: its verdict and `total_fee_`. -/
def enforced (late : Bool) (i : ℕ) (totalFee : Int64) : LedgerM (Verdict × Int64) := do
  alterTx i fun t => { t with enableCheck := true }
  let ret ← applyTop w fuel i
  if ← isExpire i late then
    return (.expired, totalFee)
  if !ret then
    return (.failed, totalFee)
  return (.applied, ← settleTop w i totalFee)

/-- A top transaction in `ApplyFollow`: its verdict and `total_fee_`. One that is known to have expired is not
applied. -/
def followed (expired : Bool) (i : ℕ) (totalFee : Int64) : LedgerM (Verdict × Int64) := do
  if expired then
    -- `ApplyExpireResult`
    alterResult i fun r => { r with code := .contractExecuteExpired }
    return (.expired, totalFee)
  let ret ← applyTop w fuel i
  if !ret then
    return (.failed, totalFee)
  return (.applied, ← settleTop w i totalFee)

/-- How often `InternalCheckTime` has thrown, and how many transactions are on the stack. -/
def askTrail : LedgerM (ℕ × ℕ) := fun s => some ((s.trace.tripped, s.transactionStack.length), s)

/-- A top transaction from its push to its end, with `total_fee_`. -/
def transaction (env : TransactionEnv) (r : Result) (body : ℕ → LedgerM (Verdict × Int64)) :
    LedgerM (AppliedTx × Int64) := do
  let (trippedBefore, _) ← askTrail
  let i ← enter w env r
  let (v, totalFee) ← body i
  let frm ← askTx i id
  leave
  let (tripped, stackLeft) ← askTrail
  return ({ frm := frm, verdict := v, tripped := tripped - trippedBefore, stackLeft := stackLeft }, totalFee)

/-- The loop of `AllocateRewardDirectly`: what is left, or `none` if a balance overflows. -/
def allocateAverage (average : Int64) : List Validator → Int64 → LedgerM (Option Int64)
  | [], left => return some left
  | v :: l, left => do
    onlyIf (← getEntry w 0 v.address).isNone (addEntry 0 v.address (creatAccountFrm v.address 0))
    let frm ← deref 0 v.address
    match SafeInt.safeIntAdd frm.balance average with
    | none => return none
    | some newBalance =>
      alterEntry 0 v.address (setBalance newBalance)
      allocateAverage average l (left - average)

/-- What is left goes to one of the validators. -/
def allocateLeft (validators : List Validator) (seq left : Int64) : LedgerM Bool := do
  if left ≤ 0 then
    return true
  let randomIndex := seq % Int64.ofNat validators.length
  if randomIndex < 0 then
    crash
  else
    match validators[randomIndex.toInt.toNat]? with
    | none => crash
    | some v =>
      let frm ← deref 0 v.address
      match SafeInt.safeIntAdd frm.balance left with
      | none => return false
      | some newBalance =>
        alterEntry 0 v.address (setBalance newBalance)
        return true

def allocateRewardDirectly (seq totalReward : Int64) : LedgerM Bool := do
  match w.previousValidators with
  | none | some [] => return false
  | some validators =>
    match ← allocateAverage w (totalReward / Int64.ofNat validators.length) validators totalReward with
    | none => return false
    | some left => allocateLeft validators seq left

/-- The reward goes to the account of the validators' contract, or directly to the validators. -/
def payReward (seq totalReward : Int64) : LedgerM Bool := do
  if w.checkVersionGt1002 then
    match ← getEntry w 0 w.getContractValidatorAddress with
    | some frm =>
      match SafeInt.safeIntAdd frm.balance totalReward with
      | none => return false
      | some newBalance =>
        alterEntry 0 w.getContractValidatorAddress (setBalance newBalance)
        return true
    | none => allocateRewardDirectly w seq totalReward
  else allocateRewardDirectly w seq totalReward

def allocateReward (totalFee : Int64) : LedgerM Bool := do
  let (seq, _, isTestMode) ← askLedger
  let totalReward := totalFee + General.getBlockReward seq
  if totalReward == 0 || isTestMode then
    return true
  if ← payReward w seq totalReward then
    commit 0
    return true
  else return false

/-! ### The three ways to apply a block -/

/-- The loop of `ApplyPropose`, from position `position` on; `none` is a time-out of the block. -/
def proposeLoop (clock : Clock) : ℕ → List TransactionEnv → Block → LedgerM (Option Block)
  | _, [], b => return some b
  | position, env :: l, b => do
    let (_, _, isTestMode) ← askLedger
    let (valid, r) ← TransactionFrm.validForApply w env (!isTestMode)
    if !valid then
      proposeLoop clock (position + 1) l (b.drop position)
    else
      let (error, totalFee) ← TransactionFrm.payFee w env b.totalFee
      if error.isSome then
        proposeLoop clock (position + 1) l ({ b with totalFee := totalFee }.drop position)
      else
        let n := b.applyTxFrms.length
        let (tx, totalFee) ← transaction w env r fun i => enforced w fuel (clock.txLate n) i totalFee
        if clock.blockLate n then
          return none
        proposeLoop clock (position + 1) l ({ b with totalFee := totalFee }.note (position - b.needDroppedTx.length) tx)

/-- `ApplyPropose`: `none` is `false`. -/
def applyPropose (clock : Clock) (request : ConsensusValue) : LedgerM (Option Block) := do
  if request.validation.isSome then
    return none
  match ← proposeLoop w fuel clock 0 request.txset {} with
  | none => return none
  | some b =>
    let _ ← allocateReward w b.totalFee
    return some b

/-- The loop of `ApplyCheck`; `none` is `false`. -/
def checkLoop (clock : Clock) : ℕ → List TransactionEnv → Block → LedgerM (Option Block)
  | _, [], b => return some b
  | position, env :: l, b => do
    let (_, _, isTestMode) ← askLedger
    let (valid, r) ← TransactionFrm.validForApply w env (!isTestMode)
    if !valid then
      return none
    let (error, totalFee) ← TransactionFrm.payFee w env b.totalFee
    if error.isSome then
      return none
    let n := b.applyTxFrms.length
    let (tx, totalFee) ← transaction w env r fun i => enforced w fuel (clock.txLate n) i totalFee
    if clock.blockLate n then
      return none
    checkLoop clock (position + 1) l ({ b with totalFee := totalFee }.note position tx)

/-- `ApplyCheck`: the block, and whether it is accepted. -/
def applyCheck (clock : Clock) (request : ConsensusValue) : LedgerM (Option Block) := do
  match checkConsValueValidation request with
  | none => return none
  | some (expireTxs, errorTxs) =>
    match ← checkLoop w fuel clock 0 request.txset {} with
    | none => return none
    | some b =>
      let _ ← allocateReward w b.totalFee
      if b.expireTxs = expireTxs ∧ b.errorTxs = errorTxs then
        return some b
      else return none

/-- The loop of `ApplyFollow`; a transaction that cannot pay is skipped. -/
def followLoop (expireTxs : List ℕ) : ℕ → List TransactionEnv → Block → LedgerM Block
  | _, [], b => return b
  | position, env :: l, b => do
    let (error, totalFee) ← TransactionFrm.payFee w env b.totalFee
    if error.isSome then
      followLoop expireTxs (position + 1) l { b with totalFee := totalFee }
    else
      let (tx, totalFee) ← transaction w env {} fun i => followed w fuel (expireTxs.contains position) i totalFee
      followLoop expireTxs (position + 1) l ({ b with totalFee := totalFee }.note position tx)

/-- `ApplyFollow`: `none` is `false`. That `error_txs` differ is only logged. -/
def applyFollow (request : ConsensusValue) : LedgerM (Option Block) := do
  match checkConsValueValidation request with
  | none => return none
  | some (expireTxs, _) =>
    let b ← followLoop w fuel expireTxs 0 request.txset {}
    let _ ← allocateReward w b.totalFee
    return some b

end LedgerFrm

/-- The context a consensus value is applied in. -/
def LedgerContext.start (value : ConsensusValue) (isTestMode : Bool := false) : LedgerContext where
  ledgerSeq := value.ledgerSeq
  closeTime := value.closeTime
  isTestMode := isTestMode
  envs := Environments.init
  txs _ := .blank
  next := 0
  transactionStack := []
  trace := {}

/-- The account database after `LedgerFrm::Commit`: the entries of the block's `stor_` are written. -/
def AccountDb.commit (db : AccountDb) (e : Environments) : AccountDb where
  account a := match e.accounts 0 a with
    | some (some frm) => some frm.info
    | _ => db.account a
  asset a key := match e.accounts 0 a with
    | some (some frm) => frm.assetsAfter db key
    | _ => db.asset a key
  metadata a key := match e.accounts 0 a with
    | some (some frm) => frm.metadataAfter db key
    | _ => db.metadata a key

/-- The accounts `LedgerManager::CreateGenesisAccount` makes: the genesis account and the validators. -/
def AccountDb.createGenesisAccount (account : Address) (validators : List Address) : AccountDb where
  account a :=
    if a = account then some (creatAccountFrm account 100000000000000000).info
    else if a ∈ validators then some (creatAccountFrm a 0).info
    else none
  asset _ _ := none
  metadata _ _ := none

end OpenSesame
