import OpenSesame.Consensus.Message

/-! # `consensus/bft_instance.cpp`: the instances of a replica

A time is a reading of the clock in microseconds. `msgBuf` is indexed by the number of a phase, which is the
number of the message type that phase waits for. -/

namespace OpenSesame
open Protocol

/-- `Consensus::CheckValueResult`. -/
inductive CheckValueResult where
  | valid | mayvalid | invalid
  deriving DecidableEq

/-- `PbftInstancePhase`. -/
inductive PbftInstancePhase where
  | none | prePrepared | prepared | commited
  deriving DecidableEq

def PbftInstancePhase.toNat : PbftInstancePhase → ℕ
  | .none => 0
  | .prePrepared => 1
  | .prepared => 2
  | .commited => 3

def Protocol.PbftMessageType.buffer : PbftMessageType → Option ℕ
  | .prePrepare => some 0
  | .prepare => some 1
  | .commit => some 2
  | _ => Option.none

@[ext]
structure PbftInstanceIndex where
  viewNumber : Int64
  sequence : Int64
  deriving DecidableEq

namespace PbftInstanceIndex

/-- `operator <`: by view, then by sequence. -/
instance : Ord PbftInstanceIndex where
  compare := compareLex (compareOn viewNumber) (compareOn sequence)

instance : Std.TransOrd PbftInstanceIndex :=
  inferInstanceAs (Std.TransCmp (compareLex (compareOn viewNumber) (compareOn sequence)))

theorem compare_eq {i j : PbftInstanceIndex} : compare i j = .eq ↔ i = j := by
  change compareLex (compareOn viewNumber) (compareOn sequence) i j = .eq ↔ _
  rw [compareLex_eq_eq]
  simp only [compareOn, Std.LawfulEqOrd.compare_eq_iff_eq]
  exact ⟨fun h => PbftInstanceIndex.ext h.1 h.2, by rintro rfl; exact ⟨rfl, rfl⟩⟩

instance : Std.LawfulEqOrd PbftInstanceIndex where
  eq_of_compare := compare_eq.mp

end PbftInstanceIndex

structure PbftInstance where
  phase : PbftInstancePhase := .none
  phaseItem : ℕ := 0
  prePrepare : PbftPrePrepare := {}
  prepares : Std.TreeMap Int64 PbftPrepare := ∅
  commits : Std.TreeMap Int64 PbftCommit := ∅
  msgBuf : ℕ → List PbftEnv := fun _ => []
  prePrepareMsg : Option PbftEnv := .none
  startTime : Int64
  endTime : Int64 := 0
  lastProposeTime : Int64
  lastCommitSendTime : Int64 := 0
  haveSendViewchange : Bool := false
  prePrepareRound : UInt32 := 1
  commitRound : UInt32 := 1
  checkValueResult : CheckValueResult := .valid

namespace PbftInstance
variable (inst : PbftInstance) (now : Int64)

def new : PbftInstance := { startTime := now, lastProposeTime := now }

def push (t : ℕ) (env : PbftEnv) : PbftInstance :=
  { inst with msgBuf := Function.update inst.msgBuf t (inst.msgBuf t ++ [env]) }

/-- `prepares_.insert`, which keeps an entry that is there. -/
def addPrepare (prepare : PbftPrepare) : PbftInstance :=
  { inst with prepares := inst.prepares.insertIfNew prepare.replicaId prepare }

def addCommit (commit : PbftCommit) : PbftInstance :=
  { inst with commits := inst.commits.insertIfNew commit.replicaId commit }

def toPrepared : PbftInstance :=
  if inst.phase.toNat < 2 then { inst with phase := .prepared, phaseItem := 0 } else inst

def toCommited : PbftInstance :=
  { inst with phase := .commited, phaseItem := 0, endTime := now }

def isExpire : Bool := decide (now - inst.startTime ≥ 30000000) && decide (inst.phase.toNat < 3)

def needSendAgain : Bool := decide (now - inst.lastProposeTime ≥ 30000000 / 4) && decide (inst.phase.toNat < 3)

def needSendCommitAgain : Bool :=
  inst.lastCommitSendTime != 0 && decide (now - inst.lastCommitSendTime ≥ 15000000) && decide (inst.phase.toNat ≥ 2)

end PbftInstance

structure PbftVcInstance where
  viewChangeMsg : Option PbftEnv := none
  viewNumber : Int64
  seq : Int64
  viewchanges : Std.TreeMap Int64 PbftViewChange := ∅
  prePreparedEnvSet : PbftPreparedSet := {}
  viewChangeRound : UInt32 := 0
  msgBuf : List PbftEnv := []
  lastProposeTime : Int64
  endTime : Int64 := 0
  lastNewviewTime : Int64 := 0
  newview : PbftEnv := .empty
  newViewRound : UInt32 := 1

namespace PbftVcInstance
variable (vc : PbftVcInstance) (now : Int64)

def needSendAgain : Bool := decide (now - vc.lastProposeTime > 60000000) && vc.endTime == 0

/-- `IsInitialized` of a message without required fields holds always. -/
def needSendNewViewAgain : Bool := decide (now - vc.lastNewviewTime > 15000000) && decide (vc.endTime > 0)

end PbftVcInstance
end OpenSesame
