import Mathlib.Data.Finset.Card
import OpenSesame.Ledger.Protocol

/-! # `proto/consensus.proto` and the checks of `consensus/bft.cpp` that read nothing but a message

The fields of a message are independent of its type: an envelope of type `COMMIT` may carry a `prepare` as
well. An envelope without `pbft` or `signature` is read as one with the default of that field, which is what
the generated getters return.

`Keys` is what the checks take from outside: `verify` is `PublicKey::Verify` on the serialized message, and
`encAddress` the address of the public key a text is decoded to, which other texts may be decoded to as well. -/

namespace OpenSesame
namespace Protocol

/-- `PbftMessageType`; the enumeration is open. -/
inductive PbftMessageType where
  | prePrepare | prepare | commit | viewChange | newView | viewChangeWithRawValue
  | other (n : Int32)
  deriving DecidableEq

structure PbftPrePrepare where
  viewNumber : Int64 := 0
  sequence : Int64 := 0
  replicaId : Int64 := 0
  value : String := ""
  valueDigest : String := ""
  deriving DecidableEq

structure PbftPrepare where
  viewNumber : Int64 := 0
  sequence : Int64 := 0
  replicaId : Int64 := 0
  valueDigest : String := ""
  deriving DecidableEq

structure PbftCommit where
  viewNumber : Int64 := 0
  sequence : Int64 := 0
  replicaId : Int64 := 0
  valueDigest : String := ""
  deriving DecidableEq

structure PbftViewChange where
  viewNumber : Int64 := 0
  sequence : Int64 := 0
  prepredValueDigest : String := ""
  replicaId : Int64 := 0
  deriving DecidableEq

mutual

structure PbftEnv where
  pbft : Pbft
  signature : Signature

structure Pbft where
  roundNumber : Int64 := 0
  type : PbftMessageType := .prePrepare
  prePrepare : Option PbftPrePrepare := none
  prepare : Option PbftPrepare := none
  commit : Option PbftCommit := none
  viewChange : Option PbftViewChange := none
  newView : Option PbftNewView := none
  viewChangeWithRawvalue : Option PbftViewChangeWithRawValue := none
  chainId : Int64 := 0

structure PbftNewView where
  viewNumber : Int64 := 0
  sequence : Int64 := 0
  replicaId : Int64 := 0
  viewChanges : List PbftEnv := []
  prePrepare : Option PbftEnv := none

structure PbftViewChangeWithRawValue where
  viewChangeEnv : Option PbftEnv := none
  preparedSet : Option PbftPreparedSet := none

structure PbftPreparedSet where
  prePrepare : Option PbftEnv := none
  prepare : List PbftEnv := []

end

/-! ### The getters, which return the default of an absent field -/

namespace Pbft
variable (p : Pbft)

def getPrePrepare : PbftPrePrepare := p.prePrepare.getD {}

def getPrepare : PbftPrepare := p.prepare.getD {}

def getCommit : PbftCommit := p.commit.getD {}

def getViewChange : PbftViewChange := p.viewChange.getD {}

def getNewView : PbftNewView := p.newView.getD {}

def getViewChangeWithRawvalue : PbftViewChangeWithRawValue := p.viewChangeWithRawvalue.getD {}

end Pbft

def PbftEnv.empty : PbftEnv := { pbft := {}, signature := { publicKey := "", signData := "" } }

def PbftViewChangeWithRawValue.getViewChangeEnv (v : PbftViewChangeWithRawValue) : PbftEnv :=
  v.viewChangeEnv.getD .empty

def PbftPreparedSet.getPrePrepare (s : PbftPreparedSet) : PbftEnv := s.prePrepare.getD .empty

end Protocol

open Protocol

/-- A proof as a text: one that is empty, one that is not a `PbftProof`, or one with these commits. -/
inductive ProofText where
  | empty
  | garbled
  | commits (l : List PbftEnv)

/-- `ValidatorMap`: the address of a validator to its replica id. -/
abbrev ValidatorMap := Std.TreeMap Address Int64

structure Keys where
  /-- `General::GetSelfChainId`. -/
  chainId : Int64
  /-- `GetEncAddress` of the key a text is decoded to. -/
  encAddress : String → Address
  verify : Protocol.Pbft → String → String → Bool

namespace Consensus

def getValidatorIndex (nodeAddress : Address) (validators : ValidatorMap) : Int64 :=
  validators[nodeAddress]?.getD (-1)

/-- The validators of a set, numbered in their order; `insert` keeps an entry that is there. -/
def validatorMap (validators : List Address) : ValidatorMap :=
  validators.zipIdx.foldl (fun m v => m.insertIfNew v.1 (Int64.ofNat v.2)) ∅

end Consensus

namespace Pbft

/-- `GetQuorumSize`. For an empty set the unsigned `size - 1` wraps, and so does `3 * fault_number + 1`. -/
def getQuorumSize (size : ℕ) : ℕ :=
  if size = 0 then 2 * ((2 ^ 64 - 1) / 3)
  else if size = 1 then 0
  else if size = 2 ∨ size = 3 then 1
  else
    let faultNumber := (size - 1) / 3
    if size = 3 * faultNumber + 1 then 2 * faultNumber
    else if size = 3 * faultNumber + 2 then 2 * faultNumber + 1
    else if size = 3 * faultNumber + 3 then 2 * faultNumber + 1
    else size

mutual

def checkMessageItem (k : Keys) (validators : ValidatorMap) : PbftEnv → Bool
  | ⟨pbft, sig⟩ =>
    let shouldReplicaId := Consensus.getValidatorIndex (k.encAddress sig.publicKey) validators
    pbft.chainId == k.chainId && !decide (shouldReplicaId < 0) &&
      checkReplicaId k validators pbft == some shouldReplicaId &&
      k.verify pbft sig.signData sig.publicKey

/-- The switch of `CheckMessageItem`: the replica id the message gives, if the message has what its type asks
for. -/
def checkReplicaId (k : Keys) (validators : ValidatorMap) : Protocol.Pbft → Option Int64
  | ⟨_, type, prePrepare, prepare, commit, viewChange, newView, raw, _⟩ =>
    match type with
    | .prePrepare => prePrepare.map (·.replicaId)
    | .prepare => prepare.map (·.replicaId)
    | .commit => commit.map (·.replicaId)
    | .viewChange => viewChange.map (·.replicaId)
    | .newView => newView.map (·.replicaId)
    | .viewChangeWithRawValue =>
      match raw with
      | none => none
      | some raw =>
        if checkViewChangeWithRawValue k validators raw then
          some raw.getViewChangeEnv.pbft.getViewChange.replicaId
        else none
    | .other _ => none

def checkViewChangeWithRawValue (k : Keys) (validators : ValidatorMap) : PbftViewChangeWithRawValue → Bool
  | ⟨none, _⟩ => false
  | ⟨some viewChangeEnv, none⟩ =>
    viewChangeEnv.pbft.type == .viewChange && checkMessageItem k validators viewChangeEnv &&
      viewChangeEnv.pbft.getViewChange.prepredValueDigest == ""
  | ⟨some _, some ⟨none, _⟩⟩ => false
  | ⟨some viewChangeEnv, some ⟨some prePrepareEnv, prepareEnvs⟩⟩ =>
    viewChangeEnv.pbft.type == .viewChange && checkMessageItem k validators viewChangeEnv &&
      checkMessageItem k validators prePrepareEnv &&
      checkPrepares k validators prePrepareEnv.pbft.getPrePrepare prepareEnvs &&
      !decide ((prepareEnvs.map fun e => e.pbft.getPrepare.replicaId).toFinset.card < getQuorumSize validators.size) &&
      viewChangeEnv.pbft.getViewChange.prepredValueDigest == prePrepareEnv.pbft.getPrePrepare.valueDigest

/-- The loop of `CheckViewChangeWithRawValue` over the prepared set. -/
def checkPrepares (k : Keys) (validators : ValidatorMap) (prePrepare : PbftPrePrepare) : List PbftEnv → Bool
  | [] => true
  | prepareEnv :: l =>
    checkMessageItem k validators prepareEnv && prepareEnv.pbft.getPrepare.viewNumber == prePrepare.viewNumber &&
      prepareEnv.pbft.getPrepare.sequence == prePrepare.sequence &&
      prepareEnv.pbft.getPrepare.valueDigest == prePrepare.valueDigest && checkPrepares k validators prePrepare l

end

/-- The loop of `CheckProof`: the validators that are left, if every commit passes. -/
def checkCommits (k : Keys) (hash : String) : List PbftEnv → ValidatorMap → Option ValidatorMap
  | [], validators => some validators
  | env :: l, validators =>
    let address := k.encAddress env.signature.publicKey
    if checkMessageItem k validators env && env.pbft.type == .commit && env.pbft.commit.isSome &&
        env.pbft.getCommit.valueDigest == hash && validators.contains address then
      checkCommits k hash l (validators.erase address)
    else none

def checkProof (k : Keys) (validators : List Address) (previousValueHash : String) (proof : ProofText) : Bool :=
  let validatorMap := Consensus.validatorMap validators
  let enough (commits : List PbftEnv) : Bool :=
    match checkCommits k previousValueHash commits validatorMap with
    | none => false
    | some rest => decide (validatorMap.size - rest.size ≥ getQuorumSize validatorMap.size + 1)
  match proof with
  | .garbled => false
  | .empty => enough []
  | .commits l => enough l

end Pbft
end OpenSesame
