import OpenSesame.Theorems.Consensus.Certificate
import OpenSesame.Theorems.Consensus.Run

/-! # The view changes of an honest replica

`NewViewChangeRawValue` sends the whole `PREPARE` buffer of an instance, and the first envelope of
its `PRE-PREPARE` buffer. -/

namespace OpenSesame
open PbftNode Option
open Protocol
namespace Pbft

variable {n : PbftNode} {D : PbftEnv → Prop} {s : Pbft}

variable {inst : PbftInstance}

theorem lastPrepared_spec (h : lastPrepared s = some inst) :
    ∃ i : PbftInstanceIndex, s.instances[i]? = some inst ∧ inst.phase = .prepared := by
  obtain ⟨⟨i, inst'⟩, hfind, rfl⟩ := map_eq_some_iff.mp h
  have hp := List.find?_some hfind
  have hmem := List.mem_reverse.mp (List.mem_of_find?_eq_some hfind)
  rw [Bool.and_eq_true, beq_iff_eq] at hp
  exact ⟨i, Table.mem_toList.mp hmem, hp.2⟩

variable {i : PbftInstanceIndex} {validators : ValidatorMap}

theorem InstanceShape.prePrepare_index
    (h : InstanceShape n D validators i inst) {env : PbftEnv} (henv : env ∈ inst.msgBuf 0) :
    env.pbft.getPrePrepare.viewNumber = i.viewNumber ∧ env.pbft.getPrePrepare.sequence = i.sequence := by
  obtain ⟨hbuffer, hindex, -⟩ := h.filed 0 env henv
  cases htype : env.pbft.type <;> rw [htype] at hbuffer <;> simp [Protocol.PbftMessageType.buffer] at hbuffer
  simp only [indexOf, htype, some.injEq] at hindex
  subst hindex
  exact ⟨rfl, rfl⟩

theorem InstanceShape.prepare_index
    (h : InstanceShape n D validators i inst) {env : PbftEnv} (henv : env ∈ inst.msgBuf 1) :
    env.pbft.getPrepare.viewNumber = i.viewNumber ∧ env.pbft.getPrepare.sequence = i.sequence := by
  obtain ⟨hbuffer, hindex, -⟩ := h.filed 1 env henv
  cases htype : env.pbft.type <;> rw [htype] at hbuffer <;> simp [Protocol.PbftMessageType.buffer] at hbuffer
  simp only [indexOf, htype, some.injEq] at hindex
  subst hindex
  exact ⟨rfl, rfl⟩

theorem InstanceShape.prepares_card (h : InstanceShape n D validators i inst) :
    inst.prepares.size ≤ ((inst.msgBuf 1).map fun e => e.pbft.getPrepare.replicaId).toFinset.card := by
  rw [← Table.card_keys]
  refine Finset.card_le_card fun id hid => ?_
  obtain ⟨prepare, hget⟩ := Table.mem_keys.mp (List.mem_toFinset.mp hid)
  obtain ⟨-, env, henv, rfl, hid⟩ := h.prepares id prepare hget
  exact List.mem_toFinset.mpr (List.mem_map.mpr ⟨env, henv, hid⟩)

/-! ### What is accepted -/

/-- Every message in the `PREPARE` buffer of the newest prepared instance has the digest of the first message in
its `PRE-PREPARE` buffer. -/
def Unanimous (s : Pbft) : Prop :=
  ∀ inst, lastPrepared s = some inst → ∀ first, (inst.msgBuf 0).head? = some first →
    ∀ env ∈ inst.msgBuf 1, env.pbft.getPrepare.valueDigest = first.pbft.getPrePrepare.valueDigest

def innerViewChange (n : PbftNode) (s : Pbft) (v : Int64) (set : Option PbftPreparedSet) : PbftEnv :=
  n.envelope
    { roundNumber := 0, type := .viewChange, chainId := n.chainId
      viewChange := some
        { viewNumber := v, sequence := s.lastExeSeq, replicaId := s.replicaId
          prepredValueDigest := (set.map fun p => p.getPrePrepare.pbft.getPrePrepare.valueDigest).getD "" } }

variable {v : Int64}

theorem check_newViewChange {set : PbftPreparedSet} (h : Shape n D s) (hid : 0 ≤ s.replicaId) :
    checkMessageItem n.toKeys s.validators (n.newViewChangeRawValue s v set) = true ↔
      checkViewChangeWithRawValue n.toKeys s.validators
        ⟨some (innerViewChange n s v (preparedSetToSend s set)), preparedSetToSend s set⟩ = true := by
  constructor
  · intro hcheck
    obtain ⟨-, id, hreplica, -⟩ := checkMessageItem_iff.mp hcheck
    obtain ⟨raw, hraw, haccepted, -⟩ := (checkReplicaId_raw rfl).mp hreplica
    cases hraw
    exact haccepted
  · intro haccepted
    exact check_envelope (h.self hid) hid rfl ((checkReplicaId_raw rfl).mpr ⟨_, rfl, haccepted, rfl⟩)

theorem check_innerViewChange {set : Option PbftPreparedSet} (h : Shape n D s) (hid : 0 ≤ s.replicaId) :
    checkMessageItem n.toKeys s.validators (innerViewChange n s v set) = true :=
  check_envelope (h.self hid) hid rfl rfl

theorem check_preparedSet {first : PbftEnv}
    (h : Shape n D s) (hid : 0 ≤ s.replicaId) (hi : s.instances[i]? = some inst) (hphase : inst.phase = .prepared)
    (hfirst : (inst.msgBuf 0).head? = some first) :
    checkViewChangeWithRawValue n.toKeys s.validators
        ⟨some (innerViewChange n s v (some ⟨some first, inst.msgBuf 1⟩)), some ⟨some first, inst.msgBuf 1⟩⟩ = true ↔
      ∀ env ∈ inst.msgBuf 1, env.pbft.getPrepare.valueDigest = first.pbft.getPrePrepare.valueDigest := by
  have hinst := h.instances i inst hi
  have hchecked := hinst.checked (by rw [hphase]; decide)
  have hmem : first ∈ inst.msgBuf 0 := List.mem_of_mem_head? hfirst
  rw [checkViewChange_iff, checkPrepares_iff]
  constructor
  · rintro ⟨-, -, -, hprepares, -⟩ env henv
    exact (hprepares env henv).2.2.2
  · intro hdigest
    refine ⟨rfl, check_innerViewChange h hid, hchecked 0 first hmem, fun env henv => ?_, ?_, rfl⟩
    · obtain ⟨hview, hseq⟩ := hinst.prepare_index henv
      obtain ⟨hview', hseq'⟩ := hinst.prePrepare_index hmem
      exact ⟨hchecked 1 env henv, hview.trans hview'.symm, hseq.trans hseq'.symm, hdigest env henv⟩
    · exact (hinst.prepared (by rw [hphase]; rfl)).trans hinst.prepares_card

/-- A view change that a validator builds from its instances passes the check of every node with the same
validators if and only if the messages of its newest prepared instance have one digest. -/
theorem viewChange_accepted (n : PbftNode) (events : List (Int64 × Event)) (h : Meets n (fun s _ => Roomy s) events)
    (hvalidator : (run n events).isValidator = true) (v : Int64) (set : PbftPreparedSet)
    (hset : set.prePrepare = none) (m : PbftNode) (hkeys : m.toKeys = n.toKeys) (t : Pbft)
    (hvalidators : t.validators = (run n events).validators) :
    checkMessageItem m.toKeys t.validators (n.newViewChangeRawValue (run n events) v set) = true ↔
      Unanimous (run n events) := by
  have hs := shape_run h
  have hid := hs.ranked hvalidator
  have hsend : preparedSetToSend (run n events) set = (lastPrepared (run n events)).map preparedSetOf := by
    rw [preparedSetToSend, hset]
    rfl
  rw [hkeys, hvalidators, check_newViewChange hs hid, hsend]
  unfold Unanimous
  cases hlast : lastPrepared (run n events) with
  | none =>
    -- nothing is prepared, and the message says so
    refine ⟨fun _ _ => by rintro ⟨⟩, fun _ => ?_⟩
    simp only [map_none, checkViewChangeWithRawValue, Bool.and_eq_true, beq_iff_eq]
    exact ⟨⟨rfl, check_innerViewChange hs hid⟩, rfl⟩
  | some inst =>
    obtain ⟨i, hi, hphase⟩ := lastPrepared_spec hlast
    have hopened := (hs.instances i inst hi).opened (by rw [hphase]; rintro ⟨⟩)
    obtain ⟨first, hfirst⟩ : ∃ first, (inst.msgBuf 0).head? = some first := ⟨_, List.head?_eq_some_head hopened.1⟩
    rw [map_some, preparedSetOf, hfirst, check_preparedSet hs hid hi hphase hfirst]
    constructor
    · rintro hdigest inst' hinst' first' hfirst'
      cases hinst'
      obtain rfl := some.inj (hfirst.symm.trans hfirst')
      exact hdigest
    · intro hall
      exact hall inst rfl first hfirst

/-- The second validator prepares a value, and the fourth one has sent a `PREPARE` for another digest before. -/
def strayPrepare : List (Int64 × Event) :=
  [fourArrive, prePrepareArrives "x", prepareArrives "d" 3 "#y", prepareArrives "b" 1 "#x", prepareArrives "c" 2 "#x",
    (1, .txTimeout)]

/-- The view change that the second validator sends then is refused by the third. -/
theorem viewChange_refused : ∃ env ∈ (run (plainNode "b") strayPrepare).sent, env.pbft.type = .viewChangeWithRawValue ∧
      checkMessageItem plainKeys (run (plainNode "c") [fourArrive]).validators env = false := by
  decide +kernel

/-- The same without the message of the fourth validator. -/
def noStrayPrepare : List (Int64 × Event) :=
  [fourArrive, prePrepareArrives "x", prepareArrives "b" 1 "#x", prepareArrives "c" 2 "#x"]

theorem viewChange_accepted_third : Unanimous (run (plainNode "b") noStrayPrepare) ∧
      checkMessageItem plainKeys (run (plainNode "c") [fourArrive]).validators
        ((plainNode "b").newViewChangeRawValue (run (plainNode "b") noStrayPrepare) 1 {}) = true := by
  have hcheck : checkMessageItem plainKeys (run (plainNode "b") noStrayPrepare).validators
      ((plainNode "b").newViewChangeRawValue (run (plainNode "b") noStrayPrepare) 1 {}) = true := by
    decide +kernel
  refine ⟨?_, by decide +kernel⟩
  exact (viewChange_accepted (plainNode "b") noStrayPrepare (meets_of_get (by decide +kernel)) (by decide +kernel) 1 {}
    rfl (plainNode "c") rfl _ rfl).mp hcheck

end Pbft
end OpenSesame
