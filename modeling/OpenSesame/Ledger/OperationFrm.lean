import OpenSesame.Ledger.OperationCheck

/-! # `ledger/operation_frm.cpp`: applying an operation

`execute` is `ContractManager::Execute`; it is a parameter here, because a script may come back with further
transactions. -/

namespace OpenSesame
open Protocol SafeInt AccountFrm

/-! ### What an operation reads of its transaction -/

namespace TransactionFrm

def getSourceAddress (t : TransactionFrm) : Address := t.transactionEnv.transaction.sourceAddress

def getOperatingSourceAddress (t : TransactionFrm) : Address :=
  match t.transactionEnv.transaction.operations[t.processingOperation]? with
  | none => ""
  | some op => if op.sourceAddress != "" then op.sourceAddress else t.getSourceAddress

/-- The loop of `SignerHashPriv` over the signers. -/
def signersReach (valid : Address → Bool) : Int64 → List Signer → Bool
  | _, [] => false
  | threshold, signer :: l =>
    let threshold := if valid signer.address then threshold - signer.weight else threshold
    threshold ≤ 0 || signersReach valid threshold l

def signerHashPriv (valid : Address → Bool) (account : AccountFrm) (type : OperationType) : Bool :=
  let priv := account.info.privilege
  let typeThreshold := account.getTypeThreshold type
  let threshold := if typeThreshold > 0 then typeThreshold else priv.threshold.txThreshold
  let threshold := if valid account.info.address then threshold - priv.masterWeight else threshold
  threshold ≤ 0 || signersReach valid threshold priv.signers

end TransactionFrm

/-- The account a pointer into the environment of depth `d` refers to. -/
def deref (d : ℕ) (a : Address) : LedgerM AccountFrm := fun s =>
  (s.envs.accounts (d + 1) a).join.map fun frm => (frm, s)

namespace OperationFrm
variable (w : World) (execute : ContractParameter → LedgerM Result)

/-- The source address of an operation: its own, or the one of the transaction. -/
def sourceAddress (tran : Transaction) (op : Operation) : Address :=
  if op.sourceAddress == "" then tran.sourceAddress else op.sourceAddress

def contractParameter (tran : Transaction) (index : ℕ) (init : Bool) (code input : String)
    (thisAddress sender : Address) (asset : Asset) (coinAmount : Int64) : LedgerM ContractParameter := do
  let bottom ← getBottomTx
  let (bottomSender, bottomEnv) ← askTx bottom fun t => (t.getOperatingSourceAddress, t.transactionEnv)
  let (ledgerSeq, closeTime, _) ← askLedger
  return {
    init := init, code := code, input := input, thisAddress := thisAddress
    blockNumber := ledgerSeq, blockTimestamp := closeTime
    txInitiator := bottomEnv.transaction.sourceAddress, txSender := bottomSender
    txGasPrice := bottomEnv.transaction.gasPrice, txFeeLimit := bottomEnv.transaction.feeLimit
    txHash := w.contentHash bottomEnv
    msgInitiator := tran.sourceAddress, msgSender := sender, msgAsset := asset, msgCoinAmount := coinAmount
    msgOperationIndex := index, msgNonce := tran.nonce }

/-! ### `CREATE_ACCOUNT` -/

/-- The account `CREATE_ACCOUNT` makes. -/
def newAccount (o : OperationCreateAccount) (dest : Address) : AccountFrm :=
  o.metadatas.foldl (fun frm kp => frm.setMetaData { kp with version := 1 }) (ofAccount
      { address := dest, balance := o.initBalance
        priv := some (o.priv.getD {}), contract := some (o.contract.getD {}) })

def changeCreateContractAmount (initAmount : Int64) : Int64 :=
  if w.checkVersionGt1001 then initAmount else 0

/-- `toFastString` of the description of a contract that was created. -/
def createdDesc (dest : Address) (index : ℕ) : String :=
  "\x7b\"contract_address\":\"" ++ dest ++ "\",\"operation_index\":" ++ toString index ++ "\x7d\n"

/-- The call of `init` of a new contract. -/
def initContract (tran : Transaction) (index : ℕ) (sender dest : Address) (o : OperationCreateAccount) :
    LedgerM Result := do
  let p ← contractParameter w tran index true o.payload o.initInput dest sender {}
    (changeCreateContractAmount w o.initBalance)
  let r ← execute p
  if r.code = .success then
    return { r with
      desc := createdDesc dest index
      contractResult := .obj [("type", .str "address"), ("value", .str dest)] }
  else return r

/-- The address of the new account: one is made up where the operation gives none. -/
def newAddress (tran : Transaction) (index : ℕ) (o : OperationCreateAccount) : Address :=
  if o.destAddress == "" then w.encAddress s!"{tran.sourceAddress}-{tran.nonce.toInt}-{index}"
  else o.destAddress

/-- `CreateAccount`; `source` is the key and `src` the state of `source_account_`. -/
def createAccount (tran : Transaction) (d index : ℕ) (source : Address) (src : AccountFrm)
    (o : OperationCreateAccount) : LedgerM Result := do
  let dest := newAddress w tran index o
  let baseReserve := w.fees.baseReserve
  match ← getEntry w d dest with
  | some _ => return .error .accountDestExist s!"Dest address({dest}) already exist"
  | none =>
    if o.initBalance < baseReserve then
      return .error .accountInitLowReserve (s!"Dest address init balance ({o.initBalance.toInt}) is not enough for " ++
          s!"base_reserve ({baseReserve.toInt})")
    match safeIntSub src.balance baseReserve with
    | none =>
      return .error .mathOverflow s!"Dest address init balance ({src.balance.toInt}) overflowed ({baseReserve.toInt})"
    | some limitBalance =>
      if limitBalance < o.initBalance then
        return .error .accountLowReserve
          (s!"Source account({src.info.address}) balance({src.balance.toInt}) - base_reserve({baseReserve.toInt})" ++
            s!" is not enough for init balance({o.initBalance.toInt})")
      match src.addBalance (-1 * o.initBalance) with
      | none =>
        return .error .mathOverflow (s!"Source account({src.info.address}) balance overflow ({src.balance.toInt}) - " ++
            s!"base_reserve({baseReserve.toInt}) is not enough for init balance({o.initBalance.toInt})")
      | some newBalance =>
        alterEntry d source (setBalance newBalance)
        if o.metadatas.any fun kp => kp.version != 0 && kp.version != 1 then
          return .error .invalidDataversion
            s!"The version to set metadata while create account({dest}) should be 0 or 1 "
        addEntry d dest (newAccount o dest)
        if o.payload == "" then
          return {}
        initContract w execute tran index src.info.address dest o

/-! ### Assets -/

def keyText (key : AssetKey) : String := s!"{key.issuer}:{key.code}:{key.type.toInt}"

def issueAsset (d : ℕ) (source : Address) (src : AccountFrm) (o : OperationIssueAsset) : LedgerM Result := do
  let key : AssetKey := { issuer := src.info.address, code := o.code }
  match ← getAsset w d source src key with
  | none =>
    alterEntry d source (setAsset key o.amount)
    return {}
  | some held =>
    match safeIntAdd held o.amount with
    | none =>
      return .error .mathOverflow s!"IssueAsset asset({keyText key}) overflowed({held.toInt} {o.amount.toInt})"
    | some amount =>
      alterEntry d source (setAsset key amount)
      return {}

/-- The part of `PayAsset` that moves the asset to an account that exists. -/
def transferAsset (d : ℕ) (source dest : Address) (src : AccountFrm) (asset : Asset) : LedgerM Result := do
  let key := asset.assetKey
  match ← getAsset w d source src key with
  | none => return .error .accountAssetLowReserve s!"Failed to get asset({keyText key})"
  | some held =>
    if key.type != 0 then
      return .error .assetInvalid "payAsset type must be 0"
    match safeIntSub held asset.amount with
    | none =>
      return .error .mathOverflow s!"PayAsset asset({keyText key}) overflowed({held.toInt} {asset.amount.toInt})"
    | some senderAmount =>
      if senderAmount < 0 then
        return .error .accountAssetLowReserve s!"asset({keyText key}) is not enought for payment."
      alterEntry d source (setAsset key senderAmount)
      let dst ← deref d dest
      match ← getAsset w d dest dst key with
      | none =>
        alterEntry d dest (setAsset key asset.amount)
        return {}
      | some there =>
        match safeIntAdd there asset.amount with
        | none =>
          return .error .mathOverflow s!"PayAsset asset({keyText key}) overflowed({there.toInt} {asset.amount.toInt})"
        | some receiverAmount =>
          alterEntry d dest (setAsset key receiverAmount)
          return {}

/-- A payment may be without an asset. -/
def transferPaid (d : ℕ) (source dest : Address) (src : AccountFrm) : Option Asset → LedgerM Result
  | none => return {}
  | some asset => transferAsset w d source dest src asset

/-- The call of `main` of the account something was paid to; nothing happens if it has no script. -/
def callContract (tran : Transaction) (index : ℕ) (code input : String) (dest sender : Address) (asset : Asset)
    (coinAmount : Int64) : LedgerM Result := do
  if code == "" then
    return {}
  let p ← contractParameter w tran index false code input dest sender asset coinAmount
  execute p

def payAsset (tran : Transaction) (d index : ℕ) (source : Address) (src : AccountFrm) (o : OperationPayAsset) :
    LedgerM Result := do
  match ← getEntry w d o.destAddress with
  | none => return .error .accountNotExist s!"Dest account({o.destAddress}) is not exist"
  | some dst =>
    let r ← transferPaid w d source o.destAddress src o.asset
    if r.code != .success then
      return r
    callContract w execute tran index dst.info.payload o.input o.destAddress src.info.address o.paid 0

/-! ### Metadata and privileges -/

def setMetaData (d : ℕ) (source : Address) (src : AccountFrm) (o : OperationSetMetadata) : LedgerM Result := do
  match ← getMetaData w d source src o.key with
  | some held =>
    if o.deleteFlag then
      if o.version != 0 && held.version != o.version then
        return .error .invalidDataversion s!"Data version({o.version.toInt}) not valid"
      if o.key == "" then
        return .error .invalidParameter s!"Data key is empty,key({o.key})"
      alterEntry d source (AccountFrm.deleteMetaData held)
      return {}
    else
      if o.version != 0 && held.version + 1 != o.version then
        return .error .invalidDataversion s!"Data version({o.version.toInt}) is not valid"
      alterEntry d source (AccountFrm.setMetaData { held with version := held.version + 1, value := o.value })
      return {}
  | none =>
    if o.deleteFlag then
      return .error .notExist s!"The key({o.key}) to be deleted is not exist"
    if o.version != 1 && o.version != 0 then
      return .error .invalidDataversion s!"Data version({o.version.toInt}) is not valid"
    alterEntry d source (AccountFrm.setMetaData { key := o.key, value := o.value, version := 1 })
    return {}

def updateSigners (signers : List Signer) (frm : AccountFrm) : AccountFrm :=
  signers.foldl (fun frm s => frm.updateSigner s.address s.weight) frm

def updateTypeThresholds (typeThresholds : List OperationTypeThreshold) (frm : AccountFrm) : AccountFrm :=
  typeThresholds.foldl (fun frm t => frm.updateTypeThreshold t.type t.threshold) frm

def setSignerWeight (o : OperationSetSignerWeight) (frm : AccountFrm) : AccountFrm :=
  updateSigners o.signers (if o.masterWeight ≥ 0 then frm.setProtoMasterWeight o.masterWeight else frm)

def setThreshold (o : OperationSetThreshold) (frm : AccountFrm) : AccountFrm :=
  updateTypeThresholds o.typeThresholds (if o.txThreshold ≥ 0 then frm.setProtoTxThreshold o.txThreshold else frm)

def setPrivilege (o : OperationSetPrivilege) (frm : AccountFrm) : AccountFrm :=
  let masterWeight := Strings.stoi64 o.masterWeight
  let txThreshold := Strings.stoi64 o.txThreshold
  let frm := if o.masterWeight != "" && masterWeight ≥ 0 then frm.setProtoMasterWeight masterWeight else frm
  let frm := updateSigners o.signers frm
  let frm := if o.txThreshold != "" && txThreshold ≥ 0 then frm.setProtoTxThreshold txThreshold else frm
  updateTypeThresholds o.typeThresholds frm

/-! ### `PAY_COIN` -/

/-- The part of `PayCoin` that moves the coins, once the destination is there: its state after that. -/
def transferCoin (d : ℕ) (source dest : Address) (src : AccountFrm) (amount : Int64) :
    LedgerM (Result × AccountFrm) := do
  match safeIntSub src.balance amount with
  | none =>
    return (.error .mathOverflow
      (s!"PayCoin overflow: source account({src.info.address}), balance({src.balance.toInt}), " ++
        s!"payment amount:({amount.toInt}) "), src)
  | some srcBalance =>
    alterEntry d source (setBalance srcBalance)
    let dst ← deref d dest
    match safeIntAdd dst.balance amount with
    | none =>
      return (.error .mathOverflow
        (s!"PayCoin overflowed: dest account({dst.info.address}), balance({dst.balance.toInt}), " ++
          s!"payment amount:({amount.toInt}) "), dst)
    | some destBalance =>
      alterEntry d dest (setBalance destBalance)
      return ({}, dst)

/-- The rest of `PayCoin`, once the destination is there. -/
def sendCoin (tran : Transaction) (d index : ℕ) (source : Address) (src : AccountFrm) (o : OperationPayCoin) :
    LedgerM Result := do
  let (r, dst) ← transferCoin d source o.destAddress src o.amount
  if r.code != .success then
    return r
  callContract w execute tran index dst.info.payload o.input o.destAddress src.info.address {} o.amount

def payCoin (tran : Transaction) (d index : ℕ) (source : Address) (src : AccountFrm) (o : OperationPayCoin) :
    LedgerM Result := do
  let reserveCoin := w.fees.baseReserve
  match safeIntAdd o.amount reserveCoin with
  | none =>
    return .error .mathOverflow (s!"PayCoin overflow: account({src.info.address}) , amount({o.amount.toInt}), " ++
        s!"reserve_coin:({reserveCoin.toInt}) ")
  | some minBalance =>
    if src.balance < minBalance then
      return .error .accountLowReserve
        (s!"Account({src.info.address})'s balance({src.balance.toInt}) - base_reserve({reserveCoin.toInt}) " ++
          s!"is not enough for payment ({o.amount.toInt}) ")
    match ← getEntry w d o.destAddress with
    | some _ => sendCoin w execute tran d index source src o
    | none =>
      if o.amount < reserveCoin then
        return .error .accountInitLowReserve
          (s!"Account({o.destAddress})'s init balance({o.amount.toInt}) is not enough for " ++
            s!"reserve({reserveCoin.toInt})")
      addEntry d o.destAddress (creatAccountFrm o.destAddress 0)
      sendCoin w execute tran d index source src o

/-- `CheckSignature`: the error, if there is one. -/
def checkSignature (txEnv : TransactionEnv) (d : ℕ) (op : Operation) : LedgerM Result := do
  let source := sourceAddress txEnv.transaction op
  match ← getEntry w d source with
  | none => return .error .accountNotExist s!"Source account({source}) is not exist"
  | some src =>
    if !TransactionFrm.signerHashPriv (w.validSignature txEnv) src op.type then
      return .error .invalidSignature "Failed to check operation's signature."
    return {}

/-- `CheckSignature`, where it is called for. -/
def checkSignatureIf (needed : Bool) (txEnv : TransactionEnv) (d : ℕ) (op : Operation) : LedgerM Result :=
  if needed then checkSignature w txEnv d op else return {}

/-- A change of the source account that cannot fail. -/
def change (d : ℕ) (source : Address) (f : AccountFrm → AccountFrm) : LedgerM Result := do
  alterEntry d source f
  return {}

def apply (tran : Transaction) (d index : ℕ) (op : Operation) : LedgerM Result := do
  let source := sourceAddress tran op
  match ← getEntry w d source with
  | none => return .error .accountNotExist s!"Source address({source}) is not exist"
  | some src =>
    match op.type with
    | .unknown | .log | .intMinSentinel | .intMaxSentinel => return {}
    | .createAccount => createAccount w execute tran d index source src op.createAccount
    | .payAsset => payAsset w execute tran d index source src op.payAsset
    | .issueAsset => issueAsset w d source src op.issueAsset
    | .setMetadata => setMetaData w d source src op.setMetadata
    | .setSignerWeight => change d source (setSignerWeight op.setSignerWeight)
    | .setThreshold => change d source (setThreshold op.setThreshold)
    | .payCoin => payCoin w execute tran d index source src op.payCoin
    | .setPrivilege => change d source (setPrivilege op.setPrivilege)
    | .other n => return .error .invalidParameter s!"type({n.toInt}) not supported"

end OperationFrm
end OpenSesame
