import OpenSesame.Ledger.LedgerContext

/-! # `OperationFrm::CheckValid`: what is checked of an operation before it is applied -/

namespace OpenSesame
open Protocol General Strings

def Result.set (code : ErrorCode) (desc : String) (r : Result) : Result :=
  { r with code := code, desc := desc }

/-- The error of the first check that fails; `rest` where none does. -/
def firstError (checks : List (Bool × Result)) (rest : Result := {}) : Result :=
  match checks.find? (·.1) with
  | some c => c.2
  | none => rest

namespace OperationFrm
variable (w : World)

def isReservedAddress (addr : Address) : Bool :=
  addr == contractDposAddress || addr == reservedAddress4 || addr == reservedAddress5 ||
    addr == reservedAddress6 || addr == reservedAddress7 || addr == reservedAddress8

def reservedAddrAvailable (src dest : Address) : Bool :=
  !(isReservedAddress dest && src != reservedCreatorAddress && (w.db.accountFromDB dest).isNone)

def sourceCodeCheck (code : String) (stackSize : ℕ) : Result :=
  if w.checkVersionGt1001 && decide (stackSize > contractMaxRecursiveDepth) then
    .error .contractTooManyRecursion "Too many recursion."
  else
    match w.jslint code with
    | some desc => .error .contractSyntaxError desc
    | none => {}

/-! ### Signers, thresholds and metadata -/

/-- A number the source prints with `%u`. -/
def unsigned (n : Int) : ℕ := (n % 2 ^ 32).toNat

def weightInvalid (weight : Int64) : Bool := weight < 0 || weight > uint32Max

/-- The texts and the strictness in which the checks of a list of signers differ. -/
structure SignerCheck where
  weightDesc : Int64 → String
  equalDesc : Address → String
  invalidDesc : Address → String
  distinct : Bool

/-- The loop over the signers; `seen` is `duplicate_set`. -/
def checkSigners (c : SignerCheck) (self : Address) : List Address → List Signer → Result
  | _, [] => {}
  | seen, signer :: l =>
    firstError [(weightInvalid signer.weight, .error .weightNotValid (c.weightDesc signer.weight)),
        (signer.address == self, .error .invalidAddress (c.equalDesc signer.address)),
        (!w.isAddressValid signer.address, .error .invalidAddress (c.invalidDesc signer.address)),
        (c.distinct && seen.contains signer.address,
          .error .invalidParameter s!"Signer address({signer.address}) duplicated")]
      (checkSigners c self (signer.address :: seen) l)

/-- The signers of `CREATE_ACCOUNT` up to version 1000. -/
def createAccountSigners : SignerCheck where
  weightDesc n := s!"Signer weight({n.toInt}) is larger than 4294967295 or less than 0"
  equalDesc a := s!"Signer address({a}) can't be equal to the source address"
  invalidDesc a := s!"Signer address({a}) is not valid"
  distinct := true

/-- The signers of `SET_SIGNER_WEIGHT`: one may be listed twice. -/
def setSignerWeightSigners : SignerCheck :=
  { createAccountSigners with distinct := false }

/-- The signers of `SET_PRIVILEGE`. -/
def setPrivilegeSigners : SignerCheck where
  weightDesc n := s!"Signer weight({n.toInt}) is larger than 4294967295 or less 0"
  equalDesc a := s!"The signer address({a}) can't be equal to the source address"
  invalidDesc a := s!"Signer address({a}) is invalid"
  distinct := true

/-- The texts, the code and the strictness in which the checks of a list of type thresholds differ. -/
structure ThresholdCheck where
  unsupported : ErrorCode
  unsupportedDesc : ℕ → String
  lowDesc : Int → Int64 → String
  distinct : Bool

/-- The loop over the type thresholds; `seen` is `duplicate_type`. -/
def checkTypeThresholds (c : ThresholdCheck) : List OperationType → List OperationTypeThreshold → Result
  | _, [] => {}
  | seen, t :: l =>
    firstError
      [(t.type.toInt > 100 || t.type.toInt ≤ 0, .error c.unsupported (c.unsupportedDesc (unsigned t.type.toInt))),
        (t.threshold < 0, .error .thresholdNotValid (c.lowDesc t.type.toInt t.threshold)),
        (c.distinct && seen.contains t.type,
          .error .invalidParameter s!"Operation type({unsigned t.type.toInt}) duplicated")]
      (checkTypeThresholds c (t.type :: seen) l)

/-- The type thresholds of `CREATE_ACCOUNT` up to version 1000. -/
def createAccountThresholds : ThresholdCheck where
  unsupported := .invalidParameter
  unsupportedDesc n := s!"Operation type({n}) not supported"
  lowDesc t n := s!"Operation type({t}) (threshold: {n.toInt}) is less than 0"
  distinct := true

/-- The type thresholds of `CREATE_ACCOUNT` after version 1000 and of `SET_PRIVILEGE`. -/
def strictThresholds : ThresholdCheck where
  unsupported := .invalidParameter
  unsupportedDesc n := s!"Operation type({n}) is not supported"
  lowDesc t n := s!"Operation type({t}) threshold({n.toInt}) is less than 0"
  distinct := true

/-- The type thresholds of `SET_THRESHOLD`: a type may be listed twice. -/
def setThresholdThresholds : ThresholdCheck where
  unsupported := .thresholdNotValid
  unsupportedDesc n := s!"Operation type({n}) not supported"
  lowDesc t n := s!"Operation type({t}) threshold({n.toInt}) is less than 0"
  distinct := false

def keyInvalid (key : String) : Bool :=
  size key == 0 || size key > metadataKeyMaxSize

def keyDesc (key : String) : String :=
  s!"Length of the key should be between [1, {General.metadataKeyMaxSize}]. key={key},key.length={Strings.size key}"

/-- The loop over the metadata of a new account: it goes on after an error, and a later error replaces it. -/
def checkMetadatas (metadatas : List KeyPair) (r : Result) : Result :=
  metadatas.foldl (fun r kp =>
      let r := if keyInvalid kp.key then r.set .invalidParameter (keyDesc kp.key) else r
      if size kp.value > metadataMaxValueSize then
        r.set .invalidParameter (s!"Length of the value should be between [1, {General.metadataMaxValueSize}]." ++
            s!"key={kp.key},value.length={Strings.size kp.value}")
      else r) r

/-! ### `CREATE_ACCOUNT` -/

/-- Whether the privilege is of the one form that is allowed. -/
def privForm (priv : AccountPrivilege) (masterWeight : Int64) : Bool :=
  priv.masterWeight == masterWeight && priv.signers.length == 0 && priv.threshold.txThreshold == 1 &&
    priv.threshold.typeThresholds.length == 0

/-- The checks of a script, once the type thresholds gave `r`. -/
def checkContract (o : OperationCreateAccount) (priv : AccountPrivilege) (formDesc : String) (stackSize : ℕ)
    (r : Result) : Result :=
  if size o.payload > contractCodeLimit then
    r.set .invalidParameter s!"Contract payload size({Strings.size o.payload}) > limit({General.contractCodeLimit})"
  else if !privForm priv 0 then r.set .invalidParameter formDesc
  else checkMetadatas o.metadatas (sourceCodeCheck w o.payload stackSize)

/-- `CREATE_ACCOUNT` up to version 1000. -/
def checkCreateAccount (o : OperationCreateAccount) (source : Address) (stackSize : ℕ) : Result :=
  let priv := o.priv.getD {}
  let r := checkTypeThresholds createAccountThresholds [] priv.threshold.typeThresholds
  firstError
    [(!w.isAddressValid o.destAddress, .error .invalidAddress s!"Dest account address({o.destAddress}) invalid."),
      (!reservedAddrAvailable w source o.destAddress,
        .error .invalidAddress s!"Dest account address({o.destAddress}) invalid."),
      (o.priv.isNone, .error .invalidParameter s!"Dest account address({o.destAddress}) has no priv object"),
      (weightInvalid priv.masterWeight, .error .weightNotValid
          s!"Master weight({priv.masterWeight.toInt}) is larger than 4294967295 or less than 0"),
      ((checkSigners w createAccountSigners o.destAddress [] priv.signers).code != .success,
        checkSigners w createAccountSigners o.destAddress [] priv.signers),
      (priv.thresholds.isNone,
        .error .invalidParameter s!"dest account address({o.destAddress}) has no threshold object"),
      (priv.threshold.txThreshold < 0,
        .error .thresholdNotValid s!"Low threshold({priv.threshold.txThreshold.toInt}) is less than 0")]
    (if o.payload != "" then
      checkContract w o priv
        "Contract account 'priv' configuraion must be(\x7bmaster_weight:0, thresholds:\x7btx_threshold:1\x7d\x7d)"
        stackSize r
    else checkMetadatas o.metadatas r)

def checkCreateAccountGt1000 (o : OperationCreateAccount) (stackSize : ℕ) : Result :=
  let priv := o.priv.getD {}
  let isCreateContract := o.payload != ""
  let unimportantAddress := o.destAddress != w.getContractValidatorAddress && o.destAddress != w.getContractFeeAddress
  let r := checkTypeThresholds strictThresholds [] priv.threshold.typeThresholds
  firstError [(isCreateContract && o.destAddress != "" && unimportantAddress,
        .error .invalidAddress s!"The dest address({o.destAddress}) must be empty when create contract account"),
      (!isCreateContract && !w.isAddressValid o.destAddress,
        .error .invalidAddress s!"Dest account address({o.destAddress}) invalid"),
      (o.priv.isNone, .error .invalidParameter s!"Dest account address({o.destAddress}) has no priv object"),
      (weightInvalid priv.masterWeight, .error .weightNotValid
          s!"Master weight({priv.masterWeight.toInt}) is larger than 4294967295 or less than 0"),
      (priv.thresholds.isNone,
        .error .invalidParameter s!"dest account address({o.destAddress}) has no threshold object"),
      (priv.threshold.txThreshold < 0,
        .error .thresholdNotValid s!"Low threshold({priv.threshold.txThreshold.toInt}) is less than 0")]
    (if isCreateContract then
      checkContract w o priv
        "Contract account 'priv' configuration must be(\x7bmaster_weight:0, thresholds:\x7btx_threshold:1\x7d\x7d)"
        stackSize r
    else if !privForm priv 1 then
      r.set .invalidParameter
        "Common account 'priv' configuration must be(\x7bmaster_weight:1, thresholds:\x7btx_threshold:1\x7d\x7d)"
    else checkMetadatas o.metadatas r)

/-! ### The other operations -/

/-- `PAY_ASSET`; the asset is only checked if there is one. -/
def checkPayAsset (o : OperationPayAsset) (source : Address) : Result :=
  let key := o.paid.assetKey
  firstError [(o.asset.isSome && key.type != 0, .error .assetInvalid "payAsset asset type must be 0"),
      (o.asset.isSome && o.paid.amount ≤ 0, .error .assetInvalid "Amount should be greater than 0"),
      (o.asset.isSome && (size key.code == 0 || size key.code > assetCodeMaxSize),
        .error .assetInvalid "asset code length should be between (0,64]"),
      (o.asset.isSome && !w.isAddressValid key.issuer,
        .error .assetInvalid "asset issuer should be a valid account address"),
      (source == o.destAddress, .error .accountSourcedestEqual s!"Source address({source}) is equal to dest address"),
      (!w.isAddressValid o.destAddress, .error .invalidAddress "Dest address should be a valid account address")]

def checkIssueAsset (o : OperationIssueAsset) : Result :=
  let trimCode := trim o.code
  firstError [(o.amount ≤ 0, .error .assetInvalid "Amount should be greater than 0"),
      (size trimCode == 0 || size trimCode > assetCodeMaxSize || size trimCode != size o.code,
        .error .assetInvalid "Asset code length should be between (0,64]")]

def checkSetMetadata (o : OperationSetMetadata) : Result :=
  firstError [(keyInvalid o.key, .error .invalidParameter (keyDesc o.key)), (size o.value > metadataMaxValueSize,
        .error .invalidParameter (s!"Length of the value should be between [0, {General.metadataMaxValueSize}]. " ++
            s!"key={o.key},value.length={Strings.size o.value}"))]

def checkSetSignerWeight (o : OperationSetSignerWeight) (source : Address) : Result :=
  firstError [(o.masterWeight < -1 || o.masterWeight > uint32Max, .error .weightNotValid
          s!"Master weight({o.masterWeight.toInt}) is larger than 4294967295 or less than -1")]
    (checkSigners w setSignerWeightSigners source [] o.signers)

def checkSetThreshold (o : OperationSetThreshold) : Result :=
  firstError [(o.txThreshold < -1, .error .thresholdNotValid s!"Low threshold({o.txThreshold.toInt}) is less than -1")]
    (checkTypeThresholds setThresholdThresholds [] o.typeThresholds)

def checkPayCoin (o : OperationPayCoin) (source : Address) : Result :=
  firstError [(o.amount < 0, .error .invalidParameter "Amount should be greater than or equal to 0"),
      (source == o.destAddress, .error .accountSourcedestEqual s!"Source address({source}) is equal to dest address"),
      (!w.isAddressValid o.destAddress, .error .invalidAddress "Dest address should be a valid account address"),
      (!reservedAddrAvailable w source o.destAddress,
        .error .invalidAddress s!"Dest account address({o.destAddress}) invalid.")]

def checkLog (o : OperationLog) : Result :=
  firstError [(size o.topic == 0 || size o.topic > transactionLogTopicMaxSize, .error .invalidParameter
          s!"Log's parameter topic size should be between (0,{General.transactionLogTopicMaxSize}]"),
      (o.datas.any fun d => size d == 0 || size d > transactionLogDataMaxSize, .error .invalidParameter
          s!"Log's parameter data size should be between (0, {General.transactionLogDataMaxSize}]")]

/-- A text that is no number from 0 to `max`. -/
def numberInvalid (text : String) (max : Int64) : Bool :=
  match safeStoi64 text with
  | none => true
  | some n => n < 0 || n > max

def checkSetPrivilege (o : OperationSetPrivilege) (source : Address) : Result :=
  let signers := checkSigners w setPrivilegeSigners source [] o.signers
  firstError [(o.masterWeight != "" && numberInvalid o.masterWeight uint32Max, .error .weightNotValid
          s!"Parameter master_weight({o.masterWeight}) is larger than 4294967295 or less than -1"),
      (signers.code != .success, signers),
      (o.txThreshold != "" && numberInvalid o.txThreshold Int64.maxValue,
        .error .thresholdNotValid s!"Parameter tx_threshold({o.txThreshold}) is less 0")]
    (checkTypeThresholds strictThresholds [] o.typeThresholds)

def checkValid (op : Operation) (source : Address) (stackSize : ℕ) : Result :=
  firstError [(!w.isAddressValid source, .error .invalidAddress "Source address should be a valid account address."),
      (w.forbidAddrs.contains source, .error .invalidAddress "Source address should be a valid accout address.")]
    (match op.type with
    | .createAccount =>
      if w.checkVersionGt1000 then
        firstError [(!reservedAddrAvailable w source op.createAccount.destAddress,
            .error .invalidAddress s!"Dest account address({op.createAccount.destAddress}) invalid.")]
          (checkCreateAccountGt1000 w op.createAccount stackSize)
      else checkCreateAccount w op.createAccount source stackSize
    | .payAsset => checkPayAsset w op.payAsset source
    | .issueAsset => checkIssueAsset op.issueAsset
    | .setMetadata => checkSetMetadata op.setMetadata
    | .setSignerWeight => checkSetSignerWeight w op.setSignerWeight source
    | .setThreshold => checkSetThreshold op.setThreshold
    | .payCoin => checkPayCoin w op.payCoin source
    | .log => checkLog op.log
    | .setPrivilege => checkSetPrivilege w op.setPrivilege source
    | .intMinSentinel | .intMaxSentinel => {}
    | .unknown | .other _ => .error .invalidParameter s!"Operation type({op.type.toInt}) invalid")

end OperationFrm
end OpenSesame
