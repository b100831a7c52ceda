import OpenSesame.Utils.Crypto

/-! # `proto/chain.proto` and `proto/common.proto`: the messages of the ledger

An optional sub-message is an `Option`, read with its default where the source reads it without asking for its
presence. Texts are `String`s. Fields no modelled function reads are left out: the trie hashes of an account,
the properties of an asset and the trigger of a transaction. -/

namespace OpenSesame

abbrev Address := String

/-- A JSON value, for the voted settings and the results of contracts. -/
inductive Json where
  | null
  | bool (b : Bool)
  | num (n : Int64)
  | str (s : String)
  | arr (elements : List Json)
  | obj (members : List (String × Json))

namespace Protocol

inductive ErrorCode where
  | success | internalError | invalidParameter | alreadyExist | notExist | txTimeout | accessDenied | mathOverflow
  | exprConditionResultFalse | exprConditionSyntaxError
  | invalidPubkey | invalidPrikey | assetInvalid | invalidSignature | invalidAddress | missingOperations
  | tooManyOperations | badSequence | accountLowReserve | accountSourcedestEqual | accountDestExist
  | accountNotExist | accountAssetLowReserve | accountAssetAmountTooLarge | accountInitLowReserve
  | feeNotEnough | feeInvalid | outOfTxcache | weightNotValid | thresholdNotValid
  | invalidDataversion | txSizeTooBig
  | contractExecuteFail | contractSyntaxError | contractTooManyRecursion | contractTooManyTransactions
  | contractExecuteExpired | txInsertQueueFail
  deriving DecidableEq

/-- `Operation.Type`; the two sentinels are values of the generated C++ enumeration. -/
inductive OperationType where
  | unknown | createAccount | issueAsset | payAsset | setMetadata | setSignerWeight | setThreshold | payCoin
  | log | setPrivilege
  | intMinSentinel | intMaxSentinel
  | other (n : Int32)
  deriving DecidableEq

/-- The number a type is sent as. -/
def OperationType.toInt : OperationType → Int
  | .unknown => 0
  | .createAccount => 1
  | .issueAsset => 2
  | .payAsset => 3
  | .setMetadata => 4
  | .setSignerWeight => 5
  | .setThreshold => 6
  | .payCoin => 7
  | .log => 8
  | .setPrivilege => 9
  | .intMinSentinel => -2 ^ 31
  | .intMaxSentinel => 2 ^ 31 - 1
  | .other n => n.toInt

structure Signer where
  address : Address
  weight : Int64

structure OperationTypeThreshold where
  type : OperationType
  threshold : Int64

structure AccountThreshold where
  txThreshold : Int64 := 0
  typeThresholds : List OperationTypeThreshold := []

structure AccountPrivilege where
  masterWeight : Int64 := 0
  signers : List Signer := []
  thresholds : Option AccountThreshold := none

structure Contract where
  /-- `JAVASCRIPT` is 0. -/
  type : Int32 := 0
  payload : String := ""

structure Account where
  address : Address
  nonce : Int64 := 0
  priv : Option AccountPrivilege := none
  contract : Option Contract := none
  balance : Int64 := 0

structure AssetKey where
  issuer : Address := ""
  code : String := ""
  type : Int32 := 0
  deriving DecidableEq

structure Asset where
  key : Option AssetKey := none
  amount : Int64 := 0

structure KeyPair where
  key : String
  value : String
  version : Int64

structure OperationCreateAccount where
  destAddress : Address := ""
  contract : Option Contract := none
  priv : Option AccountPrivilege := none
  metadatas : List KeyPair := []
  initBalance : Int64 := 0
  initInput : String := ""

structure OperationIssueAsset where
  code : String := ""
  amount : Int64 := 0

structure OperationPayAsset where
  destAddress : Address := ""
  asset : Option Asset := none
  input : String := ""

structure OperationSetMetadata where
  key : String := ""
  value : String := ""
  version : Int64 := 0
  deleteFlag : Bool := false

structure OperationSetSignerWeight where
  masterWeight : Int64 := 0
  signers : List Signer := []

structure OperationSetThreshold where
  txThreshold : Int64 := 0
  typeThresholds : List OperationTypeThreshold := []

structure OperationPayCoin where
  destAddress : Address := ""
  amount : Int64 := 0
  input : String := ""

structure OperationLog where
  topic : String := ""
  datas : List String := []

structure OperationSetPrivilege where
  masterWeight : String := ""
  signers : List Signer := []
  txThreshold : String := ""
  typeThresholds : List OperationTypeThreshold := []

/-- An operation carries a sub-message for every type; `type` says which one is meant. -/
structure Operation where
  type : OperationType := .unknown
  sourceAddress : Address := ""
  metadata : String := ""
  createAccount : OperationCreateAccount := {}
  issueAsset : OperationIssueAsset := {}
  payAsset : OperationPayAsset := {}
  setMetadata : OperationSetMetadata := {}
  setSignerWeight : OperationSetSignerWeight := {}
  setThreshold : OperationSetThreshold := {}
  payCoin : OperationPayCoin := {}
  log : OperationLog := {}
  setPrivilege : OperationSetPrivilege := {}

structure Transaction where
  sourceAddress : Address
  nonce : Int64 := 0
  feeLimit : Int64 := 0
  gasPrice : Int64 := 0
  ceilLedgerSeq : Int64 := 0
  metadata : String := ""
  operations : List Operation := []
  chainId : Int64 := 0

structure Signature where
  publicKey : String
  signData : String

structure TransactionEnv where
  transaction : Transaction
  signatures : List Signature := []

structure ConsensusValueValidation where
  expireTxIds : List Int := []
  errorTxIds : List Int := []

/-- A proposed block: the fields the ledger reads. -/
structure ConsensusValue where
  txset : List TransactionEnv
  closeTime : Int64
  ledgerSeq : Int64
  validation : Option ConsensusValueValidation := none

structure Validator where
  address : Address
  pledgeCoinAmount : Int64

structure FeeConfig where
  gasPrice : Int64
  baseReserve : Int64

/-- The threshold settings of a privilege, or their defaults. -/
def AccountPrivilege.threshold (p : AccountPrivilege) : AccountThreshold :=
  p.thresholds.getD {}

/-- The privilege of an account, or its default. -/
def Account.privilege (a : Account) : AccountPrivilege :=
  a.priv.getD {}

/-- The contract code of an account; empty where it has none. -/
def Account.payload (a : Account) : String :=
  (a.contract.getD {}).payload

/-- The contract code an account is created with. -/
def OperationCreateAccount.payload (o : OperationCreateAccount) : String :=
  (o.contract.getD {}).payload

/-- The asset that is paid, or its default. -/
def OperationPayAsset.paid (o : OperationPayAsset) : Asset :=
  o.asset.getD {}

/-- The key of an asset, or its default. -/
def Asset.assetKey (a : Asset) : AssetKey :=
  a.key.getD {}

end Protocol

structure Result where
  code : Protocol.ErrorCode := .success
  desc : String := ""
  contractResult : Json := .null

/-- A result that carries a code and a description only. -/
def Result.error (code : Protocol.ErrorCode) (desc : String) : Result :=
  { code := code, desc := desc }

end OpenSesame
