import OpenSesame.Theorems.Consensus.Handlers

/-! # Runs of a replica

`Request` and `UpdateValidators` erase instances whatever has happened in them, so they are no moves
and are treated here. -/

namespace OpenSesame
open Consensus List Int64
open Protocol
namespace Pbft

variable {n : PbftNode} {D : PbftEnv → Prop} {T : Rules} {s : Pbft}

theorem check_envelope {pbft : Protocol.Pbft} {validators : ValidatorMap} {id : Int64}
    (hself : validators[n.encAddress n.encPublicKey]? = some id) (hid : 0 ≤ id) (hchain : pbft.chainId = n.chainId)
    (hreplica : checkReplicaId n.toKeys validators pbft = some id) :
    checkMessageItem n.toKeys validators (n.envelope pbft) = true :=
  checkMessageItem_iff.mpr ⟨hchain, id, hreplica, hself, hid, n.verify_sign pbft⟩

theorem primaryOf_nonneg {size : ℕ} (h : size < 2 ^ 31) (h0 : size ≠ 0) (v : Int64) : 0 ≤ primaryOf size v := by
  have hmod : (v.toUInt64 % UInt64.ofNat size).toNat < 2 ^ 31 := by
    rw [UInt64.toNat_mod, UInt64.toNat_ofNat', Nat.mod_eq_of_lt (by omega : size < 2 ^ 64)]
    exact (Nat.mod_lt _ (Nat.pos_of_ne_zero h0)).trans h
  rw [le_iff_toInt_le, toInt_zero, primaryOf, ← toInt_toBitVec, BitVec.toInt_eq_toNat_of_lt]
  · exact Int.natCast_nonneg _
  · change 2 * (v.toUInt64 % UInt64.ofNat size).toNat < 2 ^ 64
    omega

/-! ### `Request` -/

def requested (n : PbftNode) (now : Int64) (value : String) (s : Pbft) : Pbft :=
  s.dropUncommited.put ⟨s.viewNumber, s.lastExeSeq + 1⟩
    (requestInstance now (n.newPrePrepare s value (s.lastExeSeq + 1)))

theorem request_cases (n : PbftNode) (now : Int64) (value : String) (s : Pbft) :
    (request n now value s).1 = s ∨ s.validators.size ≠ 0 ∧ s.primary s.viewNumber = s.replicaId ∧
      s.viewActive = true ∧ (request n now value s).1 =
        (requested n now value s).sendMessage (n.newPrePrepare s value (s.lastExeSeq + 1)) := by
  unfold request
  split_ifs with hsize hprimary hactive
  · exact .inl rfl
  · exact .inl rfl
  · exact .inl rfl
  · exact .inr ⟨hsize, not_not.mp hprimary, by simpa using hactive, rfl⟩

variable {now : Int64} {value : String}

theorem InstanceShape.request (h : Shape n D s) (hid : 0 ≤ s.replicaId) :
    InstanceShape n D s.validators ⟨s.viewNumber, s.lastExeSeq + 1⟩
      (requestInstance now (n.newPrePrepare s value (s.lastExeSeq + 1))) where
  filed t env henv := by
    rcases mem_push henv with henv | ⟨rfl, rfl⟩
    · cases henv
    · exact ⟨rfl, rfl, nofun⟩
  checked _ t env henv := by
    rcases mem_push henv with henv | ⟨rfl, rfl⟩
    · cases henv
    · exact check_envelope (h.self hid) hid rfl rfl
  fresh := nofun
  opened _ := ⟨ne_nil_of_mem mem_push_self, rfl⟩
  prepares := nofun
  prepared := nofun
  commits := nofun
  backed := nofun
  stored msg hmsg := by
    cases hmsg
    exact nofun

theorem near_succ (last : Int64) : (last + 1).toInt ≤ last.toInt + 10 := by
  have h1 : (1 : Int64).toInt = 1 := rfl
  have := last.toInt_lt
  have := last.le_toInt
  rw [toInt_add, h1]
  rcases SafeInt.bmod_cases (z := last.toInt + 1) (by omega) (by omega) with h | ⟨hlow, h⟩ | ⟨hhigh, h⟩ <;> omega

variable {env : PbftEnv}

theorem Shape.sendMessage (h : Shape n D s) : Shape n D (s.sendMessage env) := by
  unfold Pbft.sendMessage
  split
  · exact h.send
  · exact h

theorem Shape.requested (h : Shape n D s) (hsize : s.validators.size ≠ 0)
    (hprimary : s.primary s.viewNumber = s.replicaId) : Shape n D (requested n now value s) := by
  have hid : 0 ≤ s.replicaId := hprimary ▸ primaryOf_nonneg h.sized hsize s.viewNumber
  have hinst : InstanceShape n D s.validators ⟨s.viewNumber, s.lastExeSeq + 1⟩
      (requestInstance now (n.newPrePrepare s value (s.lastExeSeq + 1))) := .request h hid
  have hkept : Shape n D s.dropUncommited := h.keep
  exact hkept.put hinst (near_succ s.lastExeSeq) fun hview => absurd rfl hview

theorem Shape.request (h : Shape n D s) : Shape n D (Pbft.request n now value s).1 := by
  rcases request_cases n now value s with hsame | ⟨hsize, hprimary, -, hrequest⟩
  · rw [hsame]
    exact h
  · rw [hrequest]
    exact (h.requested hsize hprimary).sendMessage

/-! ### `UpdateValidators` -/

variable {i : PbftInstanceIndex} {inst : PbftInstance}

theorem InstanceShape.commited {validators validators' : ValidatorMap} (h : InstanceShape n D validators i inst)
    (hphase : 3 ≤ inst.phase.toNat) : InstanceShape n D validators' i inst :=
  { h with
    checked := fun h3 => absurd h3 (Nat.not_lt.mpr hphase)
    prepared := fun h2 => absurd hphase (by omega)
    backed := fun h3 => absurd h3 (Nat.not_lt.mpr hphase) }

theorem clear_getElem :
    s.clearNotCommitedInstance.instances[i]? = some inst ↔ s.instances[i]? = some inst ∧ 3 ≤ inst.phase.toNat := by
  rw [clearNotCommitedInstance, keep, Table.filter_eq_some, Bool.not_eq_true', decide_eq_false_iff_not, Nat.not_lt]

theorem size_validatorMap_le (l : List Address) : (validatorMap l).size ≤ l.length := by
  induction l using reverseRecOn with
  | nil => exact Nat.le_refl 0
  | append_singleton l a ih =>
    rw [validatorMap_concat, length_append, length_singleton]
    exact Std.TreeMap.size_insertIfNew_le.trans (Nat.add_le_add_right ih 1)

theorem validatorMap_nonneg {l : List Address} (h : l.length < 2 ^ 31) {a : Address} {id : Int64}
    (hget : (validatorMap l)[a]? = some id) : 0 ≤ id := by
  induction l using reverseRecOn with
  | nil => cases hget
  | append_singleton l b ih =>
    rw [length_append, length_singleton] at h
    rw [validatorMap_concat] at hget
    rcases Table.insertIfNew_eq_some hget with ⟨-, rfl⟩ | hget
    · rw [le_iff_toInt_le, toInt_ofNat_of_lt (by omega)]
      exact Int.natCast_nonneg _
    · exact ih (by omega) hget

theorem getValidatorIndex_validatorMap_nonneg (validators : ValidatorSet) {a : Address} (h : a ∈ validators.addresses) :
    0 ≤ getValidatorIndex a (validatorMap validators.addresses) := by
  obtain ⟨id, hget⟩ := Option.isSome_iff_exists.mp (Std.TreeMap.mem_iff_isSome_getElem?.mp (mem_validatorMap.mpr h))
  rw [getValidatorIndex, hget]
  exact validatorMap_nonneg validators.size_lt hget

variable {validators : ValidatorSet}

theorem Shape.setValidators (h : Shape n D s) : Shape n D (s.setValidators n validators).clearNotCommitedInstance where
  started := h.started
  sized := (size_validatorMap_le _).trans_lt validators.size_lt
  listed := ⟨validators.addresses, rfl⟩
  ranked hvalidator := by
    change validators.addresses.contains (n.encAddress n.encPublicKey) = true at hvalidator
    change 0 ≤ if validators.addresses.contains (n.encAddress n.encPublicKey) = true then _ else _
    rw [if_pos hvalidator]
    exact getValidatorIndex_validatorMap_nonneg validators (contains_iff_mem.mp hvalidator)
  self hid := by
    -- the id is not negative, so the node is one of the validators
    change 0 ≤ if validators.addresses.contains (n.encAddress n.encPublicKey) = true then _ else _ at hid
    change _ = some (if validators.addresses.contains (n.encAddress n.encPublicKey) = true then _ else _)
    by_cases hmem : validators.addresses.contains (n.encAddress n.encPublicKey) = true
    · rw [if_pos hmem]
      have hmap := mem_validatorMap.mpr (contains_iff_mem.mp hmem)
      obtain ⟨id, hget⟩ := Option.isSome_iff_exists.mp (Std.TreeMap.mem_iff_isSome_getElem?.mp hmap)
      simp only [getValidatorIndex]
      change (validatorMap validators.addresses)[_]? = _
      rw [hget]
      rfl
    · rw [if_neg hmem] at hid
      exact absurd hid (by decide)
  instances i inst hi := by
    obtain ⟨hi, hphase⟩ := clear_getElem.mp hi
    exact (h.instances i inst hi).commited hphase
  near i inst hi := h.near i inst (clear_getElem.mp hi).1
  older i inst hi := h.older i inst (clear_getElem.mp hi).1
  viewChanges := h.viewChanges

theorem lt_of_succ_pos {v w : Int64} (hle : v ≤ w) (hpos : w + 1 > 0) : v < w + 1 := by
  have h1 : (1 : Int64).toInt = 1 := rfl
  have := w.toInt_lt
  have := w.le_toInt
  rw [gt_iff_lt, lt_iff_toInt_lt, toInt_zero, toInt_add, h1] at hpos
  rw [le_iff_toInt_le] at hle
  rw [lt_iff_toInt_lt, toInt_add, h1]
  rcases SafeInt.bmod_cases (z := w.toInt + 1) (by omega) (by omega) with h | ⟨hlow, h⟩ | ⟨hhigh, h⟩ <;> omega

theorem fromProof_spec (proof : ProofText) (s : Pbft) :
    ((s.fromProof proof).1 > 0 → s.viewNumber < (s.fromProof proof).1) ∧
      ((s.fromProof proof).2 > 0 → s.lastExeSeq < (s.fromProof proof).2) := by
  unfold fromProof
  split
  · dsimp only
    constructor
    · intro hpos
      split_ifs at hpos ⊢ with hview
      · exact lt_of_succ_pos hview hpos
      · exact absurd hpos (by decide)
    · intro hpos
      split_ifs at hpos ⊢ with hsequence
      · exact hsequence
      · exact absurd hpos (by decide)
  · exact ⟨fun h => absurd h (by decide), fun h => absurd h (by decide)⟩
  · exact ⟨fun h => absurd h (by decide), fun h => absurd h (by decide)⟩

variable {newSeq : Int64}

theorem Shape.adoptValidators (h : Shape n D s)
    (hseq : newSeq > 0 → s.lastExeSeq < newSeq) : Shape n D (s.adoptValidators n validators newSeq) := by
  have hlater : ∀ {t : Pbft}, Shape n D t → t.lastExeSeq = s.lastExeSeq → newSeq > 0 →
      Shape n D { t with lastExeSeq := newSeq } := by
    intro t ht hlast hpos
    have hlt := hseq hpos
    rw [← hlast] at hlt
    refine { ht with started := Int64.le_trans ht.started (Int64.le_of_lt hlt), near := fun i inst hi => ?_ }
    have hnear := ht.near i inst hi
    rw [lt_iff_toInt_lt] at hlt
    change _ ≤ newSeq.toInt + 10
    omega
  simp only [Pbft.adoptValidators]
  split_ifs with hpos hchanged hchanged
  · exact hlater h.setValidators rfl hpos
  · exact hlater h rfl hpos
  · exact h.setValidators
  · exact h

theorem adoptValidators_sub (hi : (s.adoptValidators n validators newSeq).instances[i]? = some inst) :
    s.instances[i]? = some inst := by
  simp only [adoptValidators] at hi
  split_ifs at hi
  · exact (clear_getElem.mp hi).1
  · exact hi
  · exact (clear_getElem.mp hi).1
  · exact hi

theorem adoptValidators_kept (hi : s.instances[i]? = some inst) (hphase : 3 ≤ inst.phase.toNat) :
    (s.adoptValidators n validators newSeq).instances[i]? = some inst := by
  simp only [adoptValidators]
  split_ifs
  · exact clear_getElem.mpr ⟨hi, hphase⟩
  · exact hi
  · exact clear_getElem.mpr ⟨hi, hphase⟩
  · exact hi

theorem adoptValidators_frame (validators : ValidatorSet) (newSeq : Int64) :
    (s.adoptValidators n validators newSeq).sent = s.sent ∧
      (s.adoptValidators n validators newSeq).commited = s.commited ∧
      (s.adoptValidators n validators newSeq).viewNumber = s.viewNumber ∧
      (s.adoptValidators n validators newSeq).lastExeSeq = if newSeq > 0 then newSeq else s.lastExeSeq := by
  simp only [adoptValidators]
  split_ifs <;> exact ⟨rfl, rfl, rfl, rfl⟩

theorem adoptValidators_validators (hvalidators : ¬s.validatorChanged validators = true) :
    (s.adoptValidators n validators newSeq).validators = s.validators := by
  simp only [adoptValidators, if_neg hvalidators]
  split_ifs <;> rfl

theorem adoptValidators_changed (hvalidators : s.validatorChanged validators = true)
    (hi : (s.adoptValidators n validators newSeq).instances[i]? = some inst) : 3 ≤ inst.phase.toNat := by
  simp only [adoptValidators, if_pos hvalidators] at hi
  split_ifs at hi
  · exact (clear_getElem.mp hi).2
  · exact (clear_getElem.mp hi).2

theorem adoptValidators_same (hvalidators : s.validatorChanged validators = false) (hseq : ¬newSeq > 0) :
    s.adoptValidators n validators newSeq = s := by
  simp [adoptValidators, hvalidators, hseq]

theorem adoptValidators_lastExeSeq (validators : ValidatorSet) (proof : ProofText) :
    s.lastExeSeq ≤ (s.adoptValidators n validators (s.fromProof proof).2).lastExeSeq := by
  rw [(adoptValidators_frame validators _).2.2.2]
  split_ifs with hpos
  · exact Int64.le_of_lt ((fromProof_spec proof s).2 hpos)
  · exact Int64.le_refl _

theorem Shape.clearNotCommited (h : Shape n D s) : Shape n D s.clearNotCommitedInstance := h.keep

theorem Shape.adoptView {newViewNumber : Int64} (h : Shape n D s) : Shape n D (s.adoptView newViewNumber) :=
  { h.clearNotCommited with
    older := fun _ _ hi _ => (Nat.le_succ 2).trans (clear_getElem.mp hi).2
    viewChanges := fun v vc hv => h.viewChanges v vc (Table.filter_eq_some.mp hv).1 }

theorem updateValidators_cases (n : PbftNode) (validators : ValidatorSet) (proof : ProofText) (s : Pbft) :
    s.updateValidators n validators proof = s ∨ ¬((s.fromProof proof).1 > 0 ∨ (s.fromProof proof).2 > 0) ∧
        s.updateValidators n validators proof = s.adoptValidators n validators (s.fromProof proof).2 ∨
      ((s.fromProof proof).1 > 0 ∨ (s.fromProof proof).2 > 0) ∧ s.updateValidators n validators proof =
        (s.adoptValidators n validators (s.fromProof proof).2).adoptView (s.fromProof proof).1 := by
  unfold updateValidators
  split
  · exact .inl rfl
  · dsimp only
    split
    · exact .inr (.inr ⟨‹_›, rfl⟩)
    · exact .inr (.inl ⟨‹_›, rfl⟩)

theorem Shape.updateValidators {proof : ProofText} (h : Shape n D s) :
    Shape n D (s.updateValidators n validators proof) := by
  have hadopted : Shape n D (s.adoptValidators n validators (s.fromProof proof).2) :=
    h.adoptValidators (fromProof_spec proof s).2
  rcases updateValidators_cases n validators proof s with hu | ⟨-, hu⟩ | ⟨-, hu⟩
  · rw [hu]
    exact h
  · rw [hu]
    exact hadopted
  · rw [hu]
    exact hadopted.adoptView

/-! ### Runs -/

def Delivered (events : List (Int64 × Event)) (env : PbftEnv) : Prop :=
  ∃ now checkValue, (now, Event.recv env checkValue) ∈ events

/-- Every step of a run meets `C`, as a condition on the replica before the step and the event. -/
def Meets (n : PbftNode) (C : Pbft → Event → Prop) (events : List (Int64 × Event)) : Prop :=
  ∀ before e after, events = before ++ e :: after → C (run n before) e.2

def Roomy (s : Pbft) : Prop := s.lastExeSeq.toInt + 10 < 2 ^ 63

instance (s : Pbft) : Decidable (Roomy s) := inferInstanceAs (Decidable (_ < _))

theorem lt_succ_of_roomy (h : Roomy s) : s.lastExeSeq < s.lastExeSeq + 1 := by
  have h1 : (1 : Int64).toInt = 1 := rfl
  have := s.lastExeSeq.le_toInt
  unfold Roomy at h
  rw [lt_iff_toInt_lt, toInt_add, h1]
  rcases SafeInt.bmod_cases (z := s.lastExeSeq.toInt + 1) (by omega) (by omega) with
    h | ⟨hlow, h⟩ | ⟨hhigh, h⟩ <;> omega

theorem run_concat (n : PbftNode) (events : List (Int64 × Event)) (e : Int64 × Event) :
    run n (events ++ [e]) = step n (run n events) e := foldl_concat ..

variable {events : List (Int64 × Event)}

theorem Meets.mono {C C' : Pbft → Event → Prop} (h : Meets n C events)
    (hC : ∀ s e, C s e → C' s e) : Meets n C' events :=
  fun before e after heq => hC _ _ (h before e after heq)

variable {C : Pbft → Event → Prop}

theorem meets_nil : Meets n C [] := by
  intro before e after heq
  cases before <;> cases heq

theorem Meets.concat {e : Int64 × Event}
    (h : Meets n C events) (he : C (run n events) e.2) : Meets n C (events ++ [e]) := by
  intro before e' after heq
  rcases eq_nil_or_concat after with rfl | ⟨after', a, rfl⟩
  · obtain ⟨rfl, hlast⟩ := append_inj' heq rfl
    obtain rfl := singleton_inj.mp hlast
    exact he
  · rw [concat_eq_append, ← cons_append, ← append_assoc] at heq
    exact h before e' after' (append_inj' heq rfl).1

theorem meets_of_get (h : ∀ k : Fin events.length, C (run n (events.take k)) (events.get k).2) : Meets n C events := by
  rintro before e after rfl
  have hk := h ⟨before.length, by simp⟩
  simpa using hk

theorem run_induction {P : List (Int64 × Event) → Pbft → Prop} (hstart : P [] {})
    (hstep : ∀ events e s, P events s → C s e.2 → P (events ++ [e]) (step n s e))
    (h : Meets n C events) : P events (run n events) := by
  induction events using reverseRecOn with
  | nil => exact hstart
  | append_singleton events e ih =>
    rw [run_concat]
    refine hstep events e _ (ih fun before e' after heq => ?_) (h events e [] rfl)
    exact h before e' (after ++ [e]) (by rw [heq, append_assoc, cons_append])

variable {e : Event}

theorem Keeps.step {I : Pbft → Prop} (K : Keeps n D T I) (h : I s) (hroomy : Roomy s)
    (hD : ∀ env checkValue, e = .recv env checkValue → D env)
    (hT : ∀ env checkValue, e = .recv env checkValue → checkMessageItem n.toKeys s.validators env = true →
      Keeps.Allowed T s env)
    (hrequest : ∀ value, e = .request value → I (Pbft.request n now value s).1)
    (hupdate : ∀ validators proof, e = .updateValidators validators proof → I (s.updateValidators n validators proof)) :
    I (step n s (now, e)) := by
  cases e with
  | recv env checkValue => exact K.onRecv h hroomy (hD env checkValue rfl) (hT env checkValue rfl)
  | request value => exact hrequest value rfl
  | timer => exact K.rests.onTimer h
  | txTimeout => exact K.rests.onTxTimeout h
  | respondTimer timer => exact K.rests.onRespondTimer h
  | updateValidators validators proof => exact hupdate validators proof rfl

theorem shape_start : Shape n D {} where
  started := by decide
  sized := by decide
  listed := ⟨[], rfl⟩
  ranked := nofun
  self h := absurd h (by decide)
  instances := nofun
  near := nofun
  older := nofun
  viewChanges := nofun

theorem Delivered.mono {e : Int64 × Event} (h : Delivered events env) : Delivered (events ++ [e]) env := by
  obtain ⟨now, checkValue, hmem⟩ := h
  exact ⟨now, checkValue, mem_append_left _ hmem⟩

theorem delivered_last
    {checkValue : CheckValueResult} (h : e = .recv env checkValue) : Delivered (events ++ [(now, e)]) env :=
  ⟨now, checkValue, mem_append_right _ (mem_singleton.mpr (Prod.ext rfl h.symm))⟩

theorem Shape.step (h : Shape n D s) (hroomy : Roomy s)
    (hD : ∀ env checkValue, e = .recv env checkValue → D env) : Shape n D (Pbft.step n s (now, e)) :=
  Keeps.of_shape.step h hroomy hD (fun _ _ _ _ => Keeps.allowed_any) (fun _ _ => h.request) fun _ _ _ => h.updateValidators

theorem shape_run (h : Meets n (fun s _ => Roomy s) events) : Shape n (Delivered events) (run n events) := by
  refine run_induction (P := fun events s => Shape n (Delivered events) s) shape_start ?_ h
  rintro events ⟨now, e⟩ s hs hroomy
  have hs : Shape n (Delivered (events ++ [(now, e)])) s := hs.mono fun _ => Delivered.mono
  exact hs.step hroomy fun _ _ => delivered_last

theorem four_size_lt : ["a", "b", "c", "d"].length < 2 ^ 31 := by decide

/-- A replica gets to know four validators, of which it may be one. -/
def fourArrive : Int64 × Event := (1, .updateValidators ⟨["a", "b", "c", "d"], four_size_lt⟩ .empty)

/-- The `PRE-PREPARE` of the first validator arrives, for the view 0 and the sequence 2. -/
def prePrepareArrives (value : String) : Int64 × Event :=
  (1, .recv (signedAs "a"
    { type := .prePrepare
      prePrepare := some
        { viewNumber := 0, sequence := 2, replicaId := 0, value := value, valueDigest := "#" ++ value } }) .valid)

/-- A `PREPARE` of the validator `a` arrives, for the view 0 and the sequence 2. -/
def prepareArrives (a : Address) (replicaId : Int64) (digest : String) : Int64 × Event :=
  (1, .recv (signedAs a
    { type := .prepare
      prepare := some { viewNumber := 0, sequence := 2, replicaId := replicaId, valueDigest := digest } }) .valid)

end Pbft
end OpenSesame
