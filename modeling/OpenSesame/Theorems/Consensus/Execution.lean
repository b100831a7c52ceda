import OpenSesame.Theorems.Consensus.Proof
import OpenSesame.Theorems.Consensus.Run

/-! # What a replica executes

An instance is executed when enough validators have committed it, and in the order of the sequences. -/

namespace OpenSesame
open Table
open Protocol
namespace Pbft

variable {n : PbftNode} {D : PbftEnv → Prop} {T : Rules} {s t : Pbft} {i : PbftInstanceIndex}
  {inst inst' : PbftInstance} {Q : ValidatorMap → PbftInstanceIndex → PbftInstance → Prop} {E : Commited → Prop}

/-! ### From the instances to what is executed -/

structure Local (n : PbftNode) (D : PbftEnv → Prop) (T : Rules)
    (Q : ValidatorMap → PbftInstanceIndex → PbftInstance → Prop) (E : Commited → Prop) : Prop where
  start : ∀ validators i inst, inst.commits = ∅ → inst.msgBuf 2 = [] → inst.phase ≠ .commited → Q validators i inst
  advance : ∀ s i inst inst', InstanceShape n D s.validators i inst → Q s.validators i inst →
    Advance n D T s i inst inst' → Q s.validators i inst'
  execute : ∀ validators i inst, (∃ l, Consensus.validatorMap l = validators) → InstanceShape n D validators i inst →
    Q validators i inst → inst.phase = .commited →
    E ⟨i.sequence, inst.prePrepare.value, firstOfKey [] (inst.msgBuf 2), validators⟩

/-- A replica whose waiting instances have `Q`, and which has executed nothing but `E`, in order. -/
structure Executes (n : PbftNode) (D : PbftEnv → Prop)
    (Q : ValidatorMap → PbftInstanceIndex → PbftInstance → Prop) (E : Commited → Prop) (s : Pbft) : Prop where
  shape : Shape n D s
  waiting : ∀ (i : PbftInstanceIndex) inst, s.instances[i]? = some inst → s.lastExeSeq < i.sequence →
    Q s.validators i inst
  executed : ∀ c ∈ s.commited, c.requestSeq ≤ s.lastExeSeq ∧ E c
  ordered : s.commited.Pairwise fun c c' => c.requestSeq < c'.requestSeq

theorem Executes.shrink (h : Executes n D Q E s) (hshape : Shape n D t) (hvalidators : t.validators = s.validators)
    (hcommited : t.commited = s.commited) (hlast : s.lastExeSeq ≤ t.lastExeSeq)
    (hsub : ∀ (i : PbftInstanceIndex) inst, t.instances[i]? = some inst → s.instances[i]? = some inst) :
    Executes n D Q E t where
  shape := hshape
  waiting i inst hi hlt := by
    rw [hvalidators]
    exact h.waiting i inst (hsub i inst hi) (Int64.lt_of_le_of_lt hlast hlt)
  executed c hc := by
    obtain ⟨hle, hE⟩ := h.executed c (hcommited ▸ hc)
    exact ⟨Int64.le_trans hle hlast, hE⟩
  ordered := hcommited ▸ h.ordered

theorem Executes.put (h : Executes n D Q E s) (hshape : Shape n D (s.put i inst))
    (hQ : s.lastExeSeq < i.sequence → Q s.validators i inst) : Executes n D Q E (s.put i inst) where
  shape := hshape
  waiting j instj hj hlt := by
    rcases insert_eq_some hj with ⟨rfl, rfl⟩ | ⟨-, hj⟩
    · exact hQ hlt
    · exact h.waiting j instj hj hlt
  executed := h.executed
  ordered := h.ordered

theorem Executes.execute (h : Executes n D Q E s) (L : Local n D T Q E) (hi : s.instances[i]? = some inst)
    (hphase : inst.phase = .commited) (hlast : s.lastExeSeq < i.sequence) (hnext : i.sequence = s.lastExeSeq + 1) :
    Executes n D Q E (executeValue i inst s) := by
  have hlast' : (executeValue i inst s).lastExeSeq = i.sequence := hnext.symm
  refine ⟨h.shape.execute hlast hnext, ?_, ?_, ?_⟩
  · intro j instj hj hlt
    rw [hlast'] at hlt
    exact h.waiting j instj (filter_eq_some.mp hj).1 (Int64.lt_trans hlast hlt)
  · intro c hc
    rw [hlast']
    rcases List.mem_append.mp hc with hc | hc
    · obtain ⟨hle, hE⟩ := h.executed c hc
      exact ⟨Int64.le_of_lt (Int64.lt_of_le_of_lt hle hlast), hE⟩
    · obtain rfl := List.mem_singleton.mp hc
      have hE := L.execute s.validators i inst h.shape.listed (h.shape.instances i inst hi) (h.waiting i inst hi hlast) hphase
      exact ⟨Int64.le_refl _, hE⟩
  · refine List.pairwise_append.mpr ⟨h.ordered, List.pairwise_singleton .., ?_⟩
    intro c hc c' hc'
    obtain rfl := List.mem_singleton.mp hc'
    exact Int64.lt_of_le_of_lt (h.executed c hc).1 hlast

theorem Local.advances (L : Local n D T Q E) (hinst : InstanceShape n D s.validators i inst)
    (hQ : Q s.validators i inst) (ha : Relation.ReflTransGen (Advance n D T s i) inst inst') :
    Q s.validators i inst' := by
  induction ha with
  | refl => exact hQ
  | tail hbefore ha ih => exact L.advance s i _ _ (hinst.advances hbefore).1 ih ha

theorem Executes.move (h : Executes n D Q E s) (L : Local n D T Q E) (hst : Move n D T s t) : Executes n D Q E t := by
  have hshape := h.shape.move hst
  cases hst with
  | side hside =>
    exact h.shrink hshape hside.validators hside.commited (hside.lastExeSeq ▸ Int64.le_refl _)
      (by rw [hside.instances]; exact fun _ _ => id)
  | change hi ha => exact h.put hshape fun hlt => L.advances (h.shape.instances _ _ hi) (h.waiting _ _ hi hlt) ha
  | send => exact h.shrink hshape rfl rfl (Int64.le_refl _) fun _ _ => id
  | create => exact h.put hshape fun _ => L.start _ _ _ rfl rfl nofun
  | forget => exact h.shrink hshape rfl rfl (Int64.le_refl _) fun _ _ hi => (filter_eq_some.mp hi).1
  | execute hi hphase hlast hnext => exact h.execute L hi hphase hlast hnext
  | enter => exact h.shrink hshape rfl rfl (Int64.le_refl _) fun _ _ hi => (filter_eq_some.mp hi).1
  | catchUp hlast => exact h.shrink hshape rfl rfl (Int64.le_of_lt hlast) fun _ _ hi => (filter_eq_some.mp hi).1

theorem Local.keeps (L : Local n D T Q E) : Keeps n D T (Executes n D Q E) where
  shape _ h := h.shape
  move _ _ h hst := h.move L hst

/-! ### `Request` and `UpdateValidators` -/

variable {env : PbftEnv}

theorem Executes.sendMessage (h : Executes n D Q E s) : Executes n D Q E (s.sendMessage env) := by
  refine h.shrink h.shape.sendMessage ?_ ?_ ?_ ?_ <;> unfold Pbft.sendMessage <;> split
  all_goals first | rfl | exact Int64.le_refl _ | exact fun _ _ => id

theorem Executes.request {now : Int64} {value : String} (h : Executes n D Q E s) (L : Local n D T Q E) :
    Executes n D Q E (Pbft.request n now value s).1 := by
  rcases request_cases n now value s with hsame | ⟨hsize, hprimary, -, hrequest⟩
  · rw [hsame]
    exact h
  · have hdrop : Executes n D Q E s.dropUncommited :=
      h.shrink h.shape.keep rfl rfl (Int64.le_refl _) fun _ _ hi => (filter_eq_some.mp hi).1
    have hshape : Shape n D (requested n now value s) := h.shape.requested hsize hprimary
    rw [hrequest]
    exact (hdrop.put hshape fun _ => L.start _ _ _ rfl rfl nofun).sendMessage

/-- No instance waits, committed, for its execution. -/
def NothingWaits (s : Pbft) : Prop :=
  ∀ (i : PbftInstanceIndex) inst, s.instances[i]? = some inst → s.lastExeSeq < i.sequence → inst.phase ≠ .commited

theorem phase_commited (h : 3 ≤ inst.phase.toNat) : inst.phase = .commited := by
  cases hp : inst.phase with
  | commited => rfl
  | _ =>
    rw [hp] at h
    exact absurd h (by decide)

theorem Executes.adoptValidators {validators : ValidatorSet} {proof : ProofText} (h : Executes n D Q E s)
    (hwaits : s.validatorChanged validators = true → NothingWaits s) :
    Executes n D Q E (s.adoptValidators n validators (s.fromProof proof).2) := by
  obtain ⟨-, hcommited, -⟩ := adoptValidators_frame (n := n) (s := s) validators (s.fromProof proof).2
  have hlast := adoptValidators_lastExeSeq (n := n) (s := s) validators proof
  refine ⟨h.shape.adoptValidators (fromProof_spec proof s).2, ?_, ?_, hcommited ▸ h.ordered⟩
  · intro i inst hi hlt
    have hlt := Int64.lt_of_le_of_lt hlast hlt
    by_cases hchanged : s.validatorChanged validators = true
    · exact absurd (phase_commited (adoptValidators_changed hchanged hi))
        (hwaits hchanged i inst (adoptValidators_sub hi) hlt)
    · rw [adoptValidators_validators hchanged]
      exact h.waiting i inst (adoptValidators_sub hi) hlt
  · intro c hc
    obtain ⟨hle, hE⟩ := h.executed c (hcommited ▸ hc)
    exact ⟨Int64.le_trans hle hlast, hE⟩

theorem Executes.updateValidators {validators : ValidatorSet} {proof : ProofText} (h : Executes n D Q E s)
    (hwaits : s.validatorChanged validators = true → NothingWaits s) :
    Executes n D Q E (s.updateValidators n validators proof) := by
  have hadopted : Executes n D Q E (s.adoptValidators n validators (s.fromProof proof).2) := h.adoptValidators hwaits
  rcases updateValidators_cases n validators proof s with hu | ⟨-, hu⟩ | ⟨-, hu⟩
  · rw [hu]
    exact h
  · rw [hu]
    exact hadopted
  · rw [hu]
    exact hadopted.shrink hadopted.shape.adoptView rfl rfl (Int64.le_refl _) fun _ _ hi => (clear_getElem.mp hi).1

theorem executes_start : Executes n D Q E {} where
  shape := shape_start
  waiting := nofun
  executed := nofun
  ordered := .nil

/-! ### The commits behind an execution -/

/-- The commits counted in an instance are those of validators, and enough once it is committed. -/
structure Decided (n : PbftNode) (D : PbftEnv → Prop) (validators : ValidatorMap) (i : PbftInstanceIndex)
    (inst : PbftInstance) : Prop where
  enough : inst.phase = .commited → getQuorumSize validators.size + 1 ≤ inst.commits.size
  backed : ∀ (id : Int64) commit, inst.commits[id]? = some commit → ∃ env, D env ∧ env.pbft.type = .commit ∧
    indexOf env.pbft = some i ∧ env.pbft.getCommit = commit ∧ checkMessageItem n.toKeys validators env = true

/-- Enough validators have signed a `COMMIT` for what was executed, among the messages `D`. -/
def Supported (n : PbftNode) (D : PbftEnv → Prop) (c : Commited) : Prop :=
  ∃ S : Finset Int64, getQuorumSize c.validators.size + 1 ≤ S.card ∧ ∀ id ∈ S, ∃ env, D env ∧
    env.pbft.type = .commit ∧ env.pbft.getCommit.valueDigest = n.crypto c.value ∧
    env.pbft.getCommit.sequence = c.requestSeq ∧ SignedBy n.toKeys c.validators id env

theorem Decided.advance (h : Decided n D s.validators i inst) (ha : Advance n D T s i inst inst') :
    Decided n D s.validators i inst' := by
  cases ha with
  | quiet hs =>
    refine ⟨?_, ?_⟩
    · rw [hs.phase, hs.commits]
      exact h.enough
    · rw [hs.commits]
      exact h.backed
  | push => exact ⟨h.enough, h.backed⟩
  | prePrepare => exact ⟨by rintro ⟨⟩, h.backed⟩
  | prepare => exact ⟨h.enough, h.backed⟩
  | prepared hphase =>
    rw [PbftInstance.toPrepared, if_pos (by omega)]
    exact ⟨by rintro ⟨⟩, h.backed⟩
  | @commit env _ hD hcheck htype hindex =>
    refine ⟨fun hcommited => (h.enough hcommited).trans Std.TreeMap.size_le_size_insertIfNew, ?_⟩
    intro id commit hid
    rcases insertIfNew_eq_some hid with ⟨rfl, rfl⟩ | hid
    · exact ⟨env, hD, htype, hindex, rfl, hcheck⟩
    · exact h.backed id commit hid
  | commited _ hquorum => exact ⟨fun _ => hquorum, h.backed⟩

variable {validators : ValidatorMap}

theorem commit_of_check {k : Keys} (h : checkMessageItem k validators env = true) (htype : env.pbft.type = .commit) :
    (∃ commit, env.pbft.commit = some commit) ∧ SignedBy k validators env.pbft.getCommit.replicaId env := by
  obtain ⟨id, hid, hsigned⟩ := signedBy_of_check h
  simp only [replicaIdOf, htype, Option.map_eq_some_iff] at hid
  obtain ⟨commit, hcommit, rfl⟩ := hid
  refine ⟨⟨commit, hcommit⟩, ?_⟩
  rw [Protocol.Pbft.getCommit, hcommit]
  exact hsigned

theorem commit_index (htype : env.pbft.type = .commit) (hindex : indexOf env.pbft = some i) :
    i = ⟨env.pbft.getCommit.viewNumber, env.pbft.getCommit.sequence⟩ := by
  simp only [indexOf, htype, Option.some.injEq] at hindex
  exact hindex.symm

theorem type_of_buffer_two {type : Protocol.PbftMessageType} (h : type.buffer = some 2) : type = .commit := by
  cases type with
  | commit => rfl
  | _ => cases h

theorem InstanceShape.commit_type
    (h : InstanceShape n D validators i inst) (henv : env ∈ inst.msgBuf 2) : env.pbft.type = .commit :=
  type_of_buffer_two (h.filed 2 env henv).1

theorem InstanceShape.digest (h : InstanceShape n D validators i inst)
    (hphase : inst.phase = .commited) : inst.prePrepare.valueDigest = n.crypto inst.prePrepare.value :=
  (h.opened (by rw [hphase]; exact nofun)).2

theorem Decided.supported (h : Decided n D validators i inst)
    (hinst : InstanceShape n D validators i inst) (hphase : inst.phase = .commited) (proof : List PbftEnv) :
    Supported n D ⟨i.sequence, inst.prePrepare.value, proof, validators⟩ := by
  refine ⟨inst.commits.keys.toFinset, ?_, ?_⟩
  · rw [card_keys]
    exact h.enough hphase
  · intro id hid
    obtain ⟨commit, hget⟩ := mem_keys.mp (List.mem_toFinset.mp hid)
    obtain ⟨hdigest, hreplica⟩ := hinst.commits id commit hget
    obtain ⟨env, hD, htype, hindex, rfl, hcheck⟩ := h.backed id commit hget
    refine ⟨env, hD, htype, hdigest.trans (hinst.digest hphase), ?_, hreplica ▸ (commit_of_check hcheck htype).2⟩
    rw [commit_index htype hindex]

theorem local_decided : Local n D T (Decided n D) (Supported n D) where
  start validators i inst hcommits _ hphase := by
    refine ⟨fun hcommited => absurd hcommited hphase, fun id commit hid => ?_⟩
    rw [hcommits] at hid
    cases hid
  advance _ _ _ _ _ h ha := h.advance ha
  execute _ _ _ _ hinst h hphase := h.supported hinst hphase _

/-! ### Runs -/

/-- The condition on a step: no wrap of the water mark; no change of the validators while an instance waits. -/
def KeepsDecided (s : Pbft) : Event → Prop
  | .updateValidators validators _ => Roomy s ∧ (s.validatorChanged validators = true → NothingWaits s)
  | _ => Roomy s

theorem KeepsDecided.roomy {e : Event} (h : KeepsDecided s e) : Roomy s := by
  cases e with
  | updateValidators => exact h.1
  | _ => exact h

theorem Supported.mono {D' : PbftEnv → Prop} {c : Commited} (h : Supported n D c) (hD : ∀ env, D env → D' env) :
    Supported n D' c := by
  obtain ⟨S, hcard, hS⟩ := h
  refine ⟨S, hcard, fun id hid => ?_⟩
  obtain ⟨env, henv, hrest⟩ := hS id hid
  exact ⟨env, hD env henv, hrest⟩

theorem Decided.mono {D' : PbftEnv → Prop} (h : Decided n D validators i inst)
    (hD : ∀ env, D env → D' env) : Decided n D' validators i inst := by
  refine ⟨h.enough, fun id commit hid => ?_⟩
  obtain ⟨env, henv, hrest⟩ := h.backed id commit hid
  exact ⟨env, hD env henv, hrest⟩

theorem decided_run {events : List (Int64 × Event)} (h : Meets n KeepsDecided events) :
    Executes n (Delivered events) (Decided n (Delivered events)) (Supported n (Delivered events)) (run n events) := by
  refine run_induction (P := fun events s =>
    Executes n (Delivered events) (Decided n (Delivered events)) (Supported n (Delivered events)) s)
    executes_start ?_ h
  rintro events ⟨now, e⟩ s hs hstep
  have hmono : ∀ env, Delivered events env → Delivered (events ++ [(now, e)]) env := fun _ => Delivered.mono
  have hs : Executes n (Delivered (events ++ [(now, e)])) (Decided n (Delivered (events ++ [(now, e)])))
      (Supported n (Delivered (events ++ [(now, e)]))) s :=
    ⟨hs.shape.mono hmono, fun i inst hi hlt => (hs.waiting i inst hi hlt).mono hmono,
      fun c hc => ⟨(hs.executed c hc).1, (hs.executed c hc).2.mono hmono⟩, hs.ordered⟩
  have L : Local n (Delivered (events ++ [(now, e)])) .any _ _ := local_decided
  refine L.keeps.step hs hstep.roomy (fun _ _ => delivered_last) (fun _ _ _ _ => Keeps.allowed_any)
    (fun _ _ => hs.request L) ?_
  rintro validators proof rfl
  exact hs.updateValidators hstep.2

/-- Whatever a replica executes has `COMMIT` messages for the hash of its value, signed by more validators than the
quorum size, and the sequences increase, if the validators change only when nothing waits to be executed. -/
theorem execution_backed (n : PbftNode) (events : List (Int64 × Event)) (h : Meets n KeepsDecided events) :
    (∀ c ∈ (run n events).commited, Supported n (Delivered events) c) ∧
      (run n events).commited.Pairwise fun c c' => c.requestSeq < c'.requestSeq :=
  ⟨fun c hc => ((decided_run h).executed c hc).2, (decided_run h).ordered⟩

/-! ### Fixed runs -/

/-- A replica gets to know a validator who is the only one. -/
def soleArrives (a : Address) : Int64 × Event := (1, .updateValidators ⟨[a], by simp⟩ .empty)

/-- The three messages of a validator who is the only one. -/
def phasesArrive (a : Address) (sequence : Int64) (value : String) : List (Int64 × Event) :=
  [(1, .recv (signedAs a
      { type := .prePrepare
        prePrepare := some { sequence := sequence, value := value, valueDigest := "#" ++ value } }) .valid),
    (1, .recv (signedAs a
      { type := .prepare, prepare := some { sequence := sequence, valueDigest := "#" ++ value } }) .valid),
    (1, .recv (signedAs a
      { type := .commit, commit := some { sequence := sequence, valueDigest := "#" ++ value } }) .valid)]

/-- The sequence 3 is committed, the validator changes, and then the sequence 2 is committed. -/
def changedBetween : List (Int64 × Event) :=
  soleArrives "a" :: phasesArrive "a" 3 "y" ++ soleArrives "b" :: phasesArrive "b" 2 "x"

/-- The value of the sequence 3 is executed without a `COMMIT` of the validator. -/
theorem execution_unbacked :
    ∃ c ∈ (run (plainNode "c") changedBetween).commited, ¬Supported (plainNode "c") (Delivered changedBetween) c := by
  obtain ⟨c, hc, hseq, hvalidators⟩ : ∃ c ∈ (run (plainNode "c") changedBetween).commited,
      c.requestSeq = 3 ∧ c.validators["a"]? = none := by decide +kernel
  refine ⟨c, hc, ?_⟩
  rintro ⟨S, hcard, hS⟩
  obtain ⟨id, hid⟩ := Finset.card_pos.mp (Nat.lt_of_lt_of_le (Nat.succ_pos _) hcard)
  obtain ⟨env, ⟨now, checkValue, henv⟩, htype, -, hsequence, hsigned⟩ := hS id hid
  -- the only `COMMIT` for this sequence is one of the first validator
  have hall : ∀ e ∈ changedBetween, ∀ env checkValue, e.2 = .recv env checkValue → env.pbft.type = .commit →
      env.pbft.getCommit.sequence = 3 → env.signature.publicKey = "a" := by
    simp [changedBetween, soleArrives, phasesArrive, signedAs, Protocol.Pbft.getCommit]
  have hkey := hall _ henv env checkValue rfl htype (hsequence.trans hseq)
  have hmember := hsigned.member
  rw [hkey] at hmember
  cases hvalidators.symm.trans hmember

def plainExecution : List (Int64 × Event) := soleArrives "a" :: phasesArrive "a" 2 "x"

theorem plainExecution_keepsDecided : Meets (plainNode "c") KeepsDecided plainExecution := by
  refine (((meets_nil.concat (e := soleArrives "a") ?_).concat ?_).concat ?_).concat ?_
  · exact ⟨by decide +kernel, fun _ => nofun⟩
  all_goals change Roomy _; decide +kernel

theorem execution_backed_sole :
    ∃ c ∈ (run (plainNode "c") plainExecution).commited, c.requestSeq = 2 ∧ c.value = "x" ∧
      Supported (plainNode "c") (Delivered plainExecution) c := by
  obtain ⟨c, hc, hseq, hvalue⟩ : ∃ c ∈ (run (plainNode "c") plainExecution).commited,
      c.requestSeq = 2 ∧ c.value = "x" := by decide +kernel
  exact ⟨c, hc, hseq, hvalue, (execution_backed (plainNode "c") plainExecution plainExecution_keepsDecided).1 c hc⟩

end Pbft
end OpenSesame
