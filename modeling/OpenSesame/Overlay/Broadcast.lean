import Mathlib.Data.Finset.Lattice.Basic
import Mathlib.Data.Finset.SDiff
import Mathlib.Data.Int.Order.Basic

/-! # `overlay/broadcast.cpp`

The clock, in microseconds, and the active peers are arguments. `send` also gives the peers the message is sent to. -/

namespace OpenSesame

structure BroadcastRecord where
  type : ℤ
  timeStamp : ℤ
  peers : Finset ℤ

/-- `Broadcast`: the records by the hash of their message, and the hashes by the time stamp of their record. -/
structure Broadcast where
  records : Std.TreeMap String BroadcastRecord compare := ∅
  recordsCouple : Std.TreeMap ℤ String compare := ∅

namespace Broadcast

/-- A new record under its hash, and the hash under the time stamp. -/
def put (hash : String) (record : BroadcastRecord) (b : Broadcast) : Broadcast :=
  { records := b.records.insert hash record
    recordsCouple := b.recordsCouple.insert record.timeStamp hash }

variable (crypto : String → String) (now : ℤ)

def add (type : ℤ) (data : String) (peerId : ℤ) (b : Broadcast) : Bool × Broadcast :=
  let hash := crypto data
  match b.records[hash]? with
  | none => (true, b.put hash ⟨type, now, {peerId}⟩)
  | some record =>
    (false, { b with records := b.records.insert hash { record with peers := insert peerId record.peers } })

def send (type : ℤ) (data : String) (active : Finset ℤ) (b : Broadcast) : Finset ℤ × Broadcast :=
  let hash := crypto data
  match b.records[hash]? with
  | none => (active, b.put hash ⟨type, now, insert 0 active⟩)
  | some record =>
    (active \ record.peers, { b with records := b.records.insert hash { record with peers := record.peers ∪ active } })

/-- 3600 seconds. -/
def leeway : ℤ := 3600 * 1000000

def maxSize : ℕ := 1000 * 1000

/-- One round of the loops of `OnTimer`: the record of an entry goes, then the entry. -/
def drop (b : Broadcast) (entry : ℤ × String) : Broadcast :=
  { records := b.records.erase entry.2, recordsCouple := b.recordsCouple.erase entry.1 }

def onTimer (b : Broadcast) : Broadcast :=
  let b := (b.recordsCouple.toList.takeWhile fun e => e.1 + leeway < now).foldl drop b
  if b.recordsCouple.size > maxSize then (b.recordsCouple.toList.take (maxSize / 2)).foldl drop b else b

inductive Call where
  | add (type : ℤ) (data : String) (peerId : ℤ)
  | send (type : ℤ) (data : String) (active : Finset ℤ)
  | onTimer

def step (b : Broadcast) : ℤ × Call → Broadcast
  | (now, .add type data peerId) => (add crypto now type data peerId b).2
  | (now, .send type data active) => (send crypto now type data active b).2
  | (now, .onTimer) => onTimer now b

/-- The state after a sequence of calls with their times. -/
def run (calls : List (ℤ × Call)) : Broadcast := calls.foldl (step crypto) {}

end Broadcast
end OpenSesame
