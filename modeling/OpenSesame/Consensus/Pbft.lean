import OpenSesame.Consensus.Instance

/-! # `consensus/bft.cpp`: a replica

A replica is the state below, and each function of the source takes a state to the next one. What the source
gets from outside is an argument: the time, the result of `CheckValue`, and the messages. What it gives to the
outside is kept in the three logs at the end of the state, which no function reads back.

Left out: the storage (a replica that starts again is not modelled), the records of abnormal nodes, the timer
of the ledger and the texts of the log. -/

namespace OpenSesame
open Protocol

structure PbftNode extends Keys where
  crypto : String → String
  /-- `GetEncPublicKey` of `private_key_`. -/
  encPublicKey : String
  /-- `private_key_.Sign` of the serialized message. -/
  sign : Protocol.Pbft → String
  verify_sign : ∀ pbft, verify pbft (sign pbft) encPublicKey = true

/-- `ValidatorSet`: the addresses in their order. The size of a repeated field is an `int`. -/
@[ext]
structure ValidatorSet where
  addresses : List Address
  size_lt : addresses.length < 2 ^ 31

abbrev PbftInstanceMap := Std.TreeMap PbftInstanceIndex PbftInstance

/-- What `TryExecuteValue` hands to `OnValueCommited`, and the validators of the replica at that time. -/
structure Commited where
  requestSeq : Int64
  value : String
  proof : List PbftEnv
  validators : ValidatorMap

structure Pbft where
  isValidator : Bool := false
  replicaId : Int64 := -1
  validators : ValidatorMap := ∅
  instances : PbftInstanceMap := ∅
  viewNumber : Int64 := 0
  lastExeSeq : Int64 := 1
  viewActive : Bool := true
  vcInstances : Std.TreeMap Int64 PbftVcInstance := ∅
  outPbftInstances : PbftInstanceMap := ∅
  /-- The timers that run, with the view number and the prepared set they were started with. -/
  timers : Std.TreeMap ℕ (Int64 × PbftPreparedSet) := ∅
  nextTimer : ℕ := 1
  newViewRepondTimer : ℕ := 0
  /-- Every message given to `SendConsensusMessage`. -/
  sent : List PbftEnv := []
  /-- Every call of `OnValueCommited`. -/
  commited : List Commited := []
  /-- Every call of `OnViewChanged`. -/
  viewChanged : List String := []

namespace Pbft

def ckpInterval : Int64 := 10

/-- `view_number % size`, in unsigned arithmetic: the replica id of the primary. -/
def primaryOf (size : ℕ) (viewNumber : Int64) : Int64 := (viewNumber.toUInt64 % UInt64.ofNat size).toInt64

def primary (s : Pbft) (viewNumber : Int64) : Int64 := primaryOf s.validators.size viewNumber

def quorum (s : Pbft) : ℕ := getQuorumSize s.validators.size

def sendMessage (env : PbftEnv) (s : Pbft) : Pbft :=
  if s.isValidator then { s with sent := s.sent ++ [env] } else s

def put (i : PbftInstanceIndex) (inst : PbftInstance) (s : Pbft) : Pbft :=
  { s with instances := s.instances.insert i inst }

/-- A loop that erases the instances which do not pass. -/
def keep (p : PbftInstanceIndex → PbftInstance → Bool) (s : Pbft) : Pbft :=
  { s with instances := s.instances.filter p }

def putVc (viewNumber : Int64) (vc : PbftVcInstance) (s : Pbft) : Pbft :=
  { s with vcInstances := s.vcInstances.insert viewNumber vc }

def onViewChanged (lastConsValue : String) (s : Pbft) : Pbft :=
  { s with viewChanged := s.viewChanged ++ [lastConsValue] }

def inWaterMark (s : Pbft) (seq : Int64) : Bool :=
  decide (seq ≥ s.lastExeSeq) && decide (seq ≤ s.lastExeSeq + ckpInterval)

end Pbft

/-! ### The messages of a node -/

namespace PbftNode
variable (n : PbftNode)

def envelope (pbft : Protocol.Pbft) : PbftEnv :=
  { pbft := pbft, signature := { publicKey := n.encPublicKey, signData := n.sign pbft } }

def newPrePrepare (s : Pbft) (value : String) (sequence : Int64) : PbftEnv :=
  n.envelope
    { roundNumber := 1, type := .prePrepare, chainId := n.chainId
      prePrepare := some
        { viewNumber := s.viewNumber, replicaId := s.replicaId, sequence := sequence, value := value
          valueDigest := n.crypto value } }

def newPrepare (s : Pbft) (prePrepare : PbftPrePrepare) (roundNumber : Int64) : PbftEnv :=
  n.envelope
    { roundNumber := roundNumber, type := .prepare, chainId := n.chainId
      prepare := some
        { viewNumber := prePrepare.viewNumber, replicaId := s.replicaId, sequence := prePrepare.sequence
          valueDigest := prePrepare.valueDigest } }

def newCommit (s : Pbft) (prepare : PbftPrepare) (roundNumber : Int64) : PbftEnv :=
  n.envelope
    { roundNumber := roundNumber, type := .commit, chainId := n.chainId
      commit := some
        { viewNumber := prepare.viewNumber, replicaId := s.replicaId, sequence := prepare.sequence
          valueDigest := prepare.valueDigest } }

/-- The prepared set of an instance: the first envelope of its `PRE-PREPARE` buffer, and its `PREPARE` buffer. -/
def preparedSetOf (inst : PbftInstance) : PbftPreparedSet :=
  { prePrepare := (inst.msgBuf 0).head?, prepare := inst.msgBuf 1 }

def lastPrepared (s : Pbft) : Option PbftInstance :=
  (s.instances.toList.reverse.find? fun p =>
    decide (p.1.sequence > s.lastExeSeq) && p.2.phase == .prepared).map Prod.snd

/-- The prepared set `NewViewChangeRawValue` sends: the one it is given, or the one of the newest prepared
instance. -/
def preparedSetToSend (s : Pbft) (preparedSet : PbftPreparedSet) : Option PbftPreparedSet :=
  if preparedSet.prePrepare.isSome then some preparedSet else (lastPrepared s).map preparedSetOf

def newViewChangeRawValue (s : Pbft) (viewNumber : Int64) (preparedSet : PbftPreparedSet) : PbftEnv :=
  let set := preparedSetToSend s preparedSet
  let inner := n.envelope
    { roundNumber := 0, type := .viewChange, chainId := n.chainId
      viewChange := some
        { viewNumber := viewNumber, sequence := s.lastExeSeq, replicaId := s.replicaId
          prepredValueDigest := (set.map fun p => p.getPrePrepare.pbft.getPrePrepare.valueDigest).getD "" } }
  n.envelope
    { roundNumber := 0, type := .viewChangeWithRawValue, chainId := n.chainId
      viewChangeWithRawvalue := some { viewChangeEnv := some inner, preparedSet := set } }

def newNewView (s : Pbft) (vc : PbftVcInstance) : PbftEnv :=
  n.envelope
    { roundNumber := 0, type := .newView, chainId := n.chainId
      newView := some
        { viewNumber := vc.viewNumber, replicaId := s.replicaId, sequence := vc.seq
          viewChanges := vc.msgBuf.map fun env => env.pbft.getViewChangeWithRawvalue.getViewChangeEnv
          prePrepare := vc.prePreparedEnvSet.prePrepare } }

def incPeerMessageRound (message : PbftEnv) (roundNumber : UInt32) : PbftEnv :=
  n.envelope { message.pbft with roundNumber := roundNumber.toUInt64.toInt64, chainId := n.chainId }

end PbftNode

namespace Pbft
variable (n : PbftNode) (now : Int64)

/-- The loop of `TryExecuteValue` over the commit buffer: the first envelope of each public key. -/
def firstOfKey : List String → List PbftEnv → List PbftEnv
  | _, [] => []
  | commitNode, env :: l =>
    if env.signature.publicKey ∈ commitNode then firstOfKey commitNode l
    else env :: firstOfKey (env.signature.publicKey :: commitNode) l

/-- One round of the loop of `TryExecuteValue`, which executes the instance `i`. -/
def executeValue (i : PbftInstanceIndex) (inst : PbftInstance) (s : Pbft) : Pbft :=
  { s with
    lastExeSeq := s.lastExeSeq + 1
    commited := s.commited ++
      [{ requestSeq := i.sequence, value := inst.prePrepare.value, proof := firstOfKey [] (inst.msgBuf 2)
         validators := s.validators }]
    -- the instances of a checkpoint that is passed
    instances := s.instances.filter fun j _ => !decide (j.sequence ≤ i.sequence - ckpInterval / 2) }

/-- The loop of `TryExecuteValue`. An instance that is erased on the way has a sequence that is skipped. -/
def executeValues : List (PbftInstanceIndex × PbftInstance) → Pbft → Pbft
  | [], s => s
  | (i, inst) :: l, s =>
    if i.sequence ≤ s.lastExeSeq then executeValues l s
    else if i.sequence = s.lastExeSeq + 1 ∧ inst.phase.toNat ≥ 3 then executeValues l (executeValue i inst s)
    else s

def tryExecuteValue (s : Pbft) : Pbft := executeValues s.instances.toList s

/-! ### The three phases -/

def onPrePrepare (pbft : Protocol.Pbft) (i : PbftInstanceIndex) (inst : PbftInstance) (ret : CheckValueResult)
    (s : Pbft) : Pbft × Bool :=
  -- the primary only goes on if it is the only node
  if s.primary s.viewNumber = s.replicaId ∧ s.validators.size ≠ 1 then (s, true)
  else
    let prePrepare := pbft.getPrePrepare
    if prePrepare.valueDigest ≠ n.crypto prePrepare.value then (s, false)
    else if ret = .invalid then (s, false)
    else if inst.phase ≠ .none then
      if inst.prePrepare.value ≠ prePrepare.value then (s, false)
      else if ret ≠ .valid then (s, true)
      else (s.sendMessage (n.newPrepare s prePrepare pbft.roundNumber), true)
    else
      let s := s.put i
        { inst with phase := .prePrepared, phaseItem := 0, prePrepare := prePrepare, checkValueResult := ret }
      if ret ≠ .valid then (s, true) else (s.sendMessage (n.newPrepare s prePrepare 1), true)

def onPrepare (pbft : Protocol.Pbft) (i : PbftInstanceIndex) (inst : PbftInstance) (s : Pbft) : Pbft × Bool :=
  let prepare := pbft.getPrepare
  if inst.prePrepare.valueDigest ≠ prepare.valueDigest then (s, false)
  else
    let inst := inst.addPrepare prepare
    if inst.prepares.size ≥ s.quorum then
      let inst := inst.toPrepared
      if inst.checkValueResult = .valid then
        ((s.put i { inst with lastCommitSendTime := now }).sendMessage (n.newCommit s prepare pbft.roundNumber), true)
      else (s.put i inst, true)
    else (s.put i inst, true)

def onCommit (pbft : Protocol.Pbft) (i : PbftInstanceIndex) (inst : PbftInstance) (s : Pbft) : Pbft × Bool :=
  let commit := pbft.getCommit
  if inst.prePrepare.valueDigest ≠ commit.valueDigest then (s, false)
  else if inst.commits.contains commit.replicaId then (s, true)
  else
    let inst := inst.addCommit commit
    if inst.commits.size ≥ s.quorum + 1 ∧ inst.phase.toNat < 3 then
      ((s.put i (inst.toCommited now)).tryExecuteValue, true)
    else (s.put i inst, true)

def onMessage (pbft : Protocol.Pbft) (i : PbftInstanceIndex) (inst : PbftInstance) (ret : CheckValueResult)
    (s : Pbft) : Pbft × Bool :=
  match pbft.type with
  | .prePrepare => onPrePrepare n pbft i inst ret s
  | .prepare => onPrepare n now pbft i inst s
  | .commit => onCommit now pbft i inst s
  | _ => (s, false)

/-- The loop of `PbftInstance::Go`, for at most the given number of rounds. It ends too where the instance is
erased by the execution of a later one; the source then reads freed memory. -/
def goLoop (i : PbftInstanceIndex) (ret : CheckValueResult) : ℕ → Pbft → Bool → Pbft × Bool
  | 0, s, doret => (s, doret)
  | rounds + 1, s, doret =>
    match s.instances[i]? with
    | none => (s, doret)
    | some inst =>
      match (inst.msgBuf inst.phase.toNat)[inst.phaseItem]? with
      | none => (s, doret)
      | some env =>
        let inst := { inst with phaseItem := inst.phaseItem + 1 }
        let (s, doret) := onMessage n now env.pbft i inst ret (s.put i inst)
        goLoop i ret rounds s doret

/-- `PbftInstance::Go`. Every envelope of a buffer is met once, so that the rounds suffice. -/
def go (env : PbftEnv) (i : PbftInstanceIndex) (ret : CheckValueResult) (s : Pbft) : Pbft × Bool :=
  match s.instances[i]? with
  | none => (s, false)
  | some inst =>
    if (env.pbft.type.buffer.getD 0) < inst.phase.toNat then ((onMessage n now env.pbft i inst ret s).1, false)
    else goLoop n now i ret ((inst.msgBuf 0).length + (inst.msgBuf 1).length + (inst.msgBuf 2).length) s false

def tryDoTraceOut (i : PbftInstanceIndex) (inst : PbftInstance) (s : Pbft) : Pbft :=
  if inst.commits.size ≥ s.quorum + 1 ∧ i.sequence - s.lastExeSeq ≥ ckpInterval then
    { s with
      viewActive := true
      viewNumber := i.viewNumber
      lastExeSeq := i.sequence
      vcInstances := s.vcInstances.filter fun _ vc => vc.viewChangeMsg.isNone
      instances := s.instances.filter fun j _ => !decide (j.sequence ≤ i.sequence)
      outPbftInstances := ∅ }
  else s

def traceOutPbftCommit (env : PbftEnv) (s : Pbft) : Pbft × Bool :=
  let commit := env.pbft.getCommit
  let i : PbftInstanceIndex := ⟨commit.viewNumber, commit.sequence⟩
  match s.instances[i]? with
  | some inst => onCommit now env.pbft i inst s
  | none =>
    let inst := (s.outPbftInstances[i]?).getD
      { PbftInstance.new now with prePrepare := { valueDigest := commit.valueDigest } }
    if inst.prePrepare.valueDigest ≠ commit.valueDigest then (s, false)
    else
      let inst := inst.addCommit commit
      (tryDoTraceOut i inst { s with outPbftInstances := s.outPbftInstances.insert i inst }, true)

def indexOf (pbft : Protocol.Pbft) : Option PbftInstanceIndex :=
  match pbft.type with
  | .prePrepare => some ⟨pbft.getPrePrepare.viewNumber, pbft.getPrePrepare.sequence⟩
  | .prepare => some ⟨pbft.getPrepare.viewNumber, pbft.getPrepare.sequence⟩
  | .commit => some ⟨pbft.getCommit.viewNumber, pbft.getCommit.sequence⟩
  | _ => none

/-- The instance `i`, made if it is not there; the instances of its sequence in lower views are erased then. -/
def createInstance (i : PbftInstanceIndex) (s : Pbft) : Pbft :=
  if s.instances.contains i then s
  else (s.put i (.new now)).keep fun j _ => !(decide (j.viewNumber < i.viewNumber) && j.sequence == i.sequence)

def createInstanceIfNotExist (env : PbftEnv) (s : Pbft) : Pbft × Option PbftInstanceIndex :=
  match indexOf env.pbft with
  | none => (s, none)
  | some i =>
    if !s.inWaterMark i.sequence || s.viewNumber != i.viewNumber then
      if i.sequence > s.lastExeSeq ∧ env.pbft.type = .commit then ((traceOutPbftCommit now env s).1, none)
      else (s, none)
    else if !s.viewActive then (s, none)
    else if i.sequence ≤ s.lastExeSeq then (s, none)
    else
      let s := s.createInstance now i
      match s.instances[i]? with
      | none => (s, none)
      | some inst => (s.put i (inst.push (env.pbft.type.buffer.getD 0) env), some i)

/-! ### View change -/

def clearViewChanges (s : Pbft) : Pbft :=
  { s with vcInstances := s.vcInstances.filter fun _ vc =>
      !(vc.endTime == 0 || decide (vc.viewNumber < s.viewNumber - 5)) }

/-- The loops that keep an instance in a new view: one that is committed, or prepared and not executed. -/
def survives (s : Pbft) (i : PbftInstanceIndex) (inst : PbftInstance) : Bool :=
  inst.phase == .commited || inst.phase == .prepared && decide (i.sequence > s.lastExeSeq)

def enterView (viewNumber : Int64) (s : Pbft) : Pbft :=
  { s.keep s.survives with viewNumber := viewNumber, viewActive := true }

def changeComplete (viewNumber : Int64) (s : Pbft) : Pbft :=
  match s.vcInstances[viewNumber]? with
  | none => s
  | some vc => s.putVc viewNumber { vc with endTime := now }

def processQuorumViewChange (vc : PbftVcInstance) (s : Pbft) : Pbft :=
  if s.primary vc.viewNumber ≠ s.replicaId then
    { s with
      timers := s.timers.insert s.nextTimer (vc.viewNumber, vc.prePreparedEnvSet)
      newViewRepondTimer := s.nextTimer
      nextTimer := s.nextTimer + 1 }
  else
    let msg := n.newNewView s vc
    let lastConsValue := vc.prePreparedEnvSet.getPrePrepare.pbft.getPrePrepare.value
    let vc := { vc with lastNewviewTime := now, newview := msg, endTime := now }
    let s := (s.sendMessage msg).enterView vc.viewNumber
    ((s.putVc vc.viewNumber vc).clearViewChanges).onViewChanged lastConsValue

/-- `OnViewChangeWithRawValue`, where a message is added to its view change. -/
def addViewChange (env : PbftEnv) (s : Pbft) (vc : PbftVcInstance) : PbftVcInstance :=
  let raw := env.pbft.getViewChangeWithRawvalue
  let viewChange := raw.getViewChangeEnv.pbft.getViewChange
  -- the own message, to be sent again
  let vc := if viewChange.replicaId = s.replicaId ∧ vc.viewChangeMsg.isNone then
    { vc with viewChangeMsg := some env } else vc
  let vc := if vc.viewchanges.contains viewChange.replicaId then vc else
    { vc with
      msgBuf := vc.msgBuf ++ [env]
      viewchanges := vc.viewchanges.insertIfNew viewChange.replicaId viewChange }
  match raw.preparedSet with
  | none => vc
  | some set =>
    let msgSeq := set.getPrePrepare.pbft.getPrePrepare.sequence
    let lastSeq := vc.prePreparedEnvSet.getPrePrepare.pbft.getPrePrepare.sequence
    if msgSeq > lastSeq ∧ msgSeq > s.lastExeSeq then { vc with prePreparedEnvSet := set } else vc

def onViewChangeWithRawValue (env : PbftEnv) (s : Pbft) : Pbft × Bool :=
  let viewChange := env.pbft.getViewChangeWithRawvalue.getViewChangeEnv.pbft.getViewChange
  if viewChange.viewNumber = s.viewNumber then (s, true)
  else if viewChange.viewNumber < s.viewNumber then (s, false)
  else
    let vc := addViewChange env s ((s.vcInstances[viewChange.viewNumber]?).getD
      { viewNumber := viewChange.viewNumber, seq := viewChange.sequence, lastProposeTime := now })
    let s := s.putVc viewChange.viewNumber vc
    if vc.viewchanges.size > s.quorum ∧ vc.endTime = 0 then (s.processQuorumViewChange n now vc, true)
    else (s, true)

/-- The loop of `OnNewView` over the view changes: the ids it collects, if it ends without an error. -/
def newViewReplicas (env : PbftEnv) (s : Pbft) (viewNumber : Int64) : List PbftEnv → Option (List Int64)
  | [] => some []
  | viewChangeEnv :: l =>
    -- the envelope that is checked is the one of the `NEW-VIEW` message
    if checkMessageItem n.toKeys s.validators env then
      if viewNumber = viewChangeEnv.pbft.getViewChange.viewNumber then
        (newViewReplicas env s viewNumber l).map (viewChangeEnv.pbft.getViewChange.replicaId :: ·)
      else none
    else none

def onNewView (env : PbftEnv) (s : Pbft) : Pbft × Bool :=
  let newView := env.pbft.getNewView
  if newView.viewNumber = s.viewNumber then (s, true)
  else if newView.viewNumber < s.viewNumber then (s, false)
  else
    let s := { s with timers := s.timers.erase s.newViewRepondTimer }
    if s.primary newView.viewNumber = s.replicaId then (s, true)
    else
      match newViewReplicas n env s newView.viewNumber newView.viewChanges with
      | none => (s, false)
      | some replicaSet =>
        if replicaSet.toFinset.card ≤ s.quorum then (s, false)
        else
          let s := (s.enterView newView.viewNumber).changeComplete now newView.viewNumber
          (s.clearViewChanges.onViewChanged "", true)

/-! ### The entry points -/

/-- `OnRecv`, with the result of `CheckValue` for the value of a `PRE-PREPARE`. -/
def onRecv (env : PbftEnv) (checkValue : CheckValueResult) (s : Pbft) : Pbft × Bool :=
  if checkMessageItem n.toKeys s.validators env then
    match env.pbft.type with
    | .prePrepare | .prepare | .commit =>
      let ret := if env.pbft.type = .prePrepare then checkValue else .valid
      match s.createInstanceIfNotExist now env with
      | (s, some i) => go n now env i ret s
      | (s, none) => (s, false)
    | .viewChangeWithRawValue => onViewChangeWithRawValue n now env s
    | .newView => onNewView n now env s
    | _ => (s, false)
  else (s, false)

/-- The loop of `Request` that erases the uncommitted instances. -/
def dropUncommited (s : Pbft) : Pbft :=
  s.keep fun i inst => !(decide (i.sequence > s.lastExeSeq) && decide (inst.phase.toNat < 3))

def requestInstance (env : PbftEnv) : PbftInstance :=
  { PbftInstance.new now with
    prePrepareMsg := some env, phase := .prePrepared, prePrepare := env.pbft.getPrePrepare }.push 0 env

def request (value : String) (s : Pbft) : Pbft × Bool :=
  -- the source divides by zero
  if s.validators.size = 0 then (s, false)
  else if s.primary s.viewNumber ≠ s.replicaId then (s, false)
  else if !s.viewActive then (s, false)
  else
    let s := s.dropUncommited
    let env := n.newPrePrepare s value (s.lastExeSeq + 1)
    ((s.put ⟨s.viewNumber, s.lastExeSeq + 1⟩ (requestInstance now env)).sendMessage env, true)

def onTxTimeout (s : Pbft) : Pbft :=
  if s.isValidator then
    let s := { s with viewActive := false }
    s.sendMessage (n.newViewChangeRawValue s (s.viewNumber + 1) {})
  else s

/-- The callback of the timer that waits for a `NEW-VIEW`. -/
def onRespondTimer (timer : ℕ) (s : Pbft) : Pbft :=
  match s.timers[timer]? with
  | none => s
  | some (data, set) =>
    let s := { s with timers := s.timers.erase timer }
    if s.viewActive then s else s.sendMessage (n.newViewChangeRawValue s (data + 1) set)

/-- The first loop of `OnTimer`, for one instance. -/
def onTimerInstance (i : PbftInstanceIndex) (s : Pbft) : Pbft :=
  match s.instances[i]? with
  | none => s
  | some inst =>
    let expired := inst.isExpire now && !inst.haveSendViewchange
    let s := if expired then s.onTxTimeout n else s
    let inst := { inst with haveSendViewchange := inst.haveSendViewchange || expired }
    let s := s.put i inst
    match inst.prePrepareMsg with
    | none => s
    | some msg =>
      if inst.needSendAgain now && s.viewActive then
        let round := inst.prePrepareRound + 1
        (s.sendMessage (n.incPeerMessageRound msg round)).put i
          { inst with prePrepareRound := round, lastProposeTime := now }
      else s

/-- `OnTimer`, where the commit message of the last prepared instance is sent again. -/
def onTimerCommit (s : Pbft) : Pbft :=
  match s.instances.toList.reverse.find? fun p => decide (p.2.phase.toNat ≥ 2) with
  | none => s
  | some (i, inst) =>
    if inst.checkValueResult = .valid ∧ inst.needSendCommitAgain now then
      match inst.prepares.toList with
      | [] => s
      | (_, prepare) :: _ =>
        let round := inst.commitRound + 1
        (s.sendMessage (n.newCommit s prepare round.toUInt64.toInt64)).put i
          { inst with commitRound := round, lastCommitSendTime := now }
    else s

/-- The second loop of `OnTimer`, for one view change. -/
def onTimerViewChange (viewNumber : Int64) (s : Pbft) : Pbft :=
  match s.vcInstances[viewNumber]? with
  | none => s
  | some vc =>
    match vc.viewChangeMsg with
    | none => s
    | some msg =>
      if vc.needSendAgain now then
        let round := vc.viewChangeRound + 1
        (s.sendMessage (n.incPeerMessageRound msg round)).putVc viewNumber
          { vc with viewChangeRound := round, lastProposeTime := now }
      else s

/-- `OnTimer`, where the last `NEW-VIEW` message is sent again. -/
def onTimerNewView (s : Pbft) : Pbft :=
  match s.vcInstances.toList.reverse.find? fun p =>
      p.2.needSendNewViewAgain now && s.primary p.2.viewNumber == s.replicaId with
  | none => s
  | some (viewNumber, vc) =>
    let round := vc.newViewRound + 1
    (s.sendMessage (n.incPeerMessageRound vc.newview round)).putVc viewNumber
      { vc with newViewRound := round, lastNewviewTime := now }

def onTimer (s : Pbft) : Pbft :=
  let s := s.instances.keys.foldl (fun s i => s.onTimerInstance n now i) s
  let s := s.onTimerCommit n now
  let s := s.vcInstances.keys.foldl (fun s v => s.onTimerViewChange n now v) s
  s.onTimerNewView n now

def clearNotCommitedInstance (s : Pbft) : Pbft :=
  s.keep fun _ inst => !decide (inst.phase.toNat < 3)

/-- `Consensus::UpdateValidators`. -/
def setValidators (validators : ValidatorSet) (s : Pbft) : Pbft :=
  let nodeAddress := n.encAddress n.encPublicKey
  let map := Consensus.validatorMap validators.addresses
  let isValidator := validators.addresses.contains nodeAddress
  { s with
    validators := map
    isValidator := isValidator
    replicaId := if isValidator then Consensus.getValidatorIndex nodeAddress map else -1 }

def validatorChanged (validators : ValidatorSet) (s : Pbft) : Bool :=
  validators.addresses.length != s.validators.size ||
    validators.addresses.zipIdx.any fun v => s.validators[v.1]? != some (Int64.ofNat v.2)

/-- The new view number and sequence `UpdateValidators` takes from a proof; `-1` stands for none. -/
def fromProof (proof : ProofText) (s : Pbft) : Int64 × Int64 :=
  match proof with
  | .commits (env :: _) =>
    let commit := env.pbft.getCommit
    (if commit.viewNumber ≥ s.viewNumber then commit.viewNumber + 1 else -1,
      if commit.sequence > s.lastExeSeq then commit.sequence else -1)
  | .empty => (0, -1)
  | _ => (-1, -1)

/-- The first part of `UpdateValidators`: the new validators and the new sequence. -/
def adoptValidators (validators : ValidatorSet) (newSeq : Int64) (s : Pbft) : Pbft :=
  let s := if s.validatorChanged validators then (s.setValidators n validators).clearNotCommitedInstance else s
  if newSeq > 0 then { s with lastExeSeq := newSeq } else s

/-- The second part of `UpdateValidators`: the new view. -/
def adoptView (newViewNumber : Int64) (s : Pbft) : Pbft :=
  let viewNumber := if newViewNumber > 0 then newViewNumber else s.viewNumber
  { s.clearNotCommitedInstance with viewNumber := viewNumber, viewActive := true }.clearViewChanges

def updateValidators (validators : ValidatorSet) (proof : ProofText) (s : Pbft) : Pbft :=
  match proof with
  | .garbled => s
  | _ =>
    let (newViewNumber, newSeq) := s.fromProof proof
    let s := s.adoptValidators n validators newSeq
    if newViewNumber > 0 ∨ newSeq > 0 then s.adoptView newViewNumber else s

inductive Event where
  | recv (env : PbftEnv) (checkValue : CheckValueResult)
  | request (value : String)
  | timer
  | txTimeout
  | respondTimer (timer : ℕ)
  | updateValidators (validators : ValidatorSet) (proof : ProofText)

def step (s : Pbft) : Int64 × Event → Pbft
  | (now, .recv env checkValue) => (onRecv n now env checkValue s).1
  | (now, .request value) => (request n now value s).1
  | (now, .timer) => onTimer n now s
  | (_, .txTimeout) => onTxTimeout n s
  | (_, .respondTimer timer) => onRespondTimer n timer s
  | (_, .updateValidators validators proof) => updateValidators n validators proof s

def run (events : List (Int64 × Event)) : Pbft := events.foldl (step n) {}

end Pbft
end OpenSesame
