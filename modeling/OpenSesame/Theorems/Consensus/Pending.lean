import OpenSesame.Theorems.Consensus.Agreement
import OpenSesame.Theorems.Consensus.Opening

/-! # What waits to be executed

`TryExecuteValue` goes through the instances by view and then by sequence, and stops at the first
one that it can not execute. -/

namespace OpenSesame
open Pbft Table
open Protocol (PbftEnv)

theorem PbftInstanceIndex.compare_lt {i j : PbftInstanceIndex} :
    compare i j = .lt ↔ i.viewNumber < j.viewNumber ∨ i.viewNumber = j.viewNumber ∧ i.sequence < j.sequence := by
  change compareLex (compareOn viewNumber) (compareOn sequence) i j = .lt ↔ _
  simp [compareLex, compareOn, Ordering.then_eq_lt, Std.compare_eq_lt]

namespace Pbft
variable {n : PbftNode} {now : Int64} {ret : CheckValueResult} {s t : Pbft} {i : PbftInstanceIndex}
  {inst inst' : PbftInstance} {pbft : Protocol.Pbft} {env : PbftEnv}

def Idle (s : Pbft) : Prop :=
  ∀ (i : PbftInstanceIndex) inst, s.instances[i]? = some inst → inst.phase = .commited →
    i.sequence.toInt ≠ s.lastExeSeq.toInt + 1

/-- The instances that are not executed have their sequences in the order of their views. -/
def InOrder (s : Pbft) : Prop :=
  ∀ (i : PbftInstanceIndex) inst (j : PbftInstanceIndex) inst', s.instances[i]? = some inst →
    s.instances[j]? = some inst' → s.lastExeSeq < i.sequence → s.lastExeSeq < j.sequence →
    i.viewNumber < j.viewNumber → i.sequence < j.sequence

/-- The instance `i` is in the order of the instances that are not executed. -/
def Fits (s : Pbft) (i : PbftInstanceIndex) : Prop :=
  ∀ p ∈ s.instances.toList, s.lastExeSeq < p.1.sequence → (p.1.viewNumber < i.viewNumber → p.1.sequence ≤ i.sequence) ∧
      (i.viewNumber < p.1.viewNumber → i.sequence < p.1.sequence)

/-- No committed instance has the sequence after `sequence`. -/
def Clear (s : Pbft) (sequence : Int64) : Prop :=
  ∀ p ∈ s.instances.toList, p.2.phase = .commited → p.1.sequence.toInt ≠ sequence.toInt + 1

/-- An instance that a message or a request makes is in order, and a proof does not jump to a sequence before a
committed instance. Messages that are refused, or whose instance is there, are free. -/
def Orderly (n : PbftNode) (s : Pbft) : Event → Prop
  | .recv env _ => Roomy s ∧ (checkMessageItem n.toKeys s.validators env = true →
      ∀ i ∈ (indexOf env.pbft).toList, s.Joins i → s.instances.contains i = false → s.Fits i)
  | .request _ => Roomy s ∧ (s.validators.size ≠ 0 → s.primary s.viewNumber = s.replicaId → s.viewActive = true →
      s.Fits ⟨s.viewNumber, s.lastExeSeq + 1⟩)
  | .updateValidators _ proof => Roomy s ∧ ((s.fromProof proof).2 > 0 → s.Clear (s.fromProof proof).2)
  | _ => Roomy s

instance (s : Pbft) (i : PbftInstanceIndex) : Decidable (s.Fits i) :=
  inferInstanceAs (Decidable (∀ p ∈ s.instances.toList, _ → _))

instance (s : Pbft) (sequence : Int64) : Decidable (s.Clear sequence) :=
  inferInstanceAs (Decidable (∀ p ∈ s.instances.toList, _ → _))

instance (n : PbftNode) (s : Pbft) : (e : Event) → Decidable (Orderly n s e)
  | .recv _ _ => inferInstanceAs (Decidable (_ ∧ (_ → _)))
  | .request _ => inferInstanceAs (Decidable (_ ∧ (_ → _)))
  | .updateValidators _ _ => inferInstanceAs (Decidable (_ ∧ (_ → _)))
  | .timer => inferInstanceAs (Decidable (Roomy s))
  | .txTimeout => inferInstanceAs (Decidable (Roomy s))
  | .respondTimer _ => inferInstanceAs (Decidable (Roomy s))

theorem Orderly.roomy {e : Event} (h : Orderly n s e) : Roomy s := by
  cases e with
  | recv => exact h.1
  | request => exact h.1
  | updateValidators => exact h.1
  | _ => exact h

/-! ### Execution -/

theorem lt_of_next {last seq : Int64} (h : seq.toInt = last.toInt + 1) : last < seq := by
  rw [Int64.lt_iff_toInt_lt]
  omega

theorem idle_executeValues {l : List (PbftInstanceIndex × PbftInstance)}
    (hall : ∀ (i : PbftInstanceIndex) inst, s.instances[i]? = some inst → s.lastExeSeq < i.sequence → (i, inst) ∈ l)
    (hsorted : l.Pairwise fun a b => s.lastExeSeq < a.1.sequence → s.lastExeSeq < b.1.sequence →
      a.1.sequence < b.1.sequence) : Idle (executeValues l s) := by
  induction l generalizing s with
  | nil =>
    intro i inst hi _ hnext
    cases hall i inst hi (lt_of_next hnext)
  | cons p l ih =>
    obtain ⟨i, inst⟩ := p
    obtain ⟨hfirst, hrest⟩ := List.pairwise_cons.mp hsorted
    simp only [executeValues]
    split_ifs with hle hready
    · refine ih (fun j inst' hj hlt => ?_) hrest
      rcases List.mem_cons.mp (hall j inst' hj hlt) with heq | hmem
      · cases heq
        exact absurd hle (Int64.not_le.mpr hlt)
      · exact hmem
    · -- the head is executed, and its sequence is the last one
      have hlast : (executeValue i inst s).lastExeSeq = i.sequence := hready.1.symm
      have hlt : s.lastExeSeq < i.sequence := Int64.not_le.mp hle
      refine ih (fun j inst' hj hlt' => ?_) (hrest.imp fun {a b} hab ha hb => ?_)
      · rw [hlast] at hlt'
        rcases List.mem_cons.mp (hall j inst' (filter_eq_some.mp hj).1 (Int64.lt_trans hlt hlt')) with heq | hmem
        · cases heq
          exact absurd hlt' (Int64.lt_irrefl)
        · exact hmem
      · rw [hlast] at ha hb
        exact hab (Int64.lt_trans hlt ha) (Int64.lt_trans hlt hb)
    · -- the loop stops at the head, and no other instance has the next sequence
      intro j inst' hj hphase hnext
      have hlt : s.lastExeSeq < i.sequence := Int64.not_le.mp hle
      rcases List.mem_cons.mp (hall j inst' hj (lt_of_next hnext)) with heq | hmem
      · cases heq
        refine hready ⟨?_, by rw [hphase]; exact Nat.le_refl 3⟩
        rw [← Int64.toInt_inj, hnext, SafeInt.toInt_add_one]
        intro hmax
        rw [hmax] at hlt
        exact Int64.not_lt.mpr (Int64.le_maxValue i.sequence) hlt
      · have hmore : i.sequence < j.sequence := hfirst (j, inst') hmem hlt (lt_of_next hnext)
        rw [Int64.lt_iff_toInt_lt] at hlt hmore
        omega

theorem idle_tryExecuteValue (h : InOrder s) : Idle s.tryExecuteValue := by
  refine idle_executeValues (fun i inst hi _ => mem_toList.mpr hi) ?_
  refine Std.TreeMap.ordered_keys_toList.imp_of_mem fun {a b} ha hb hlt hseq hseq' => ?_
  rcases PbftInstanceIndex.compare_lt.mp hlt with hview | ⟨-, hsequence⟩
  · exact h a.1 a.2 b.1 b.2 (mem_toList.mp ha) (mem_toList.mp hb) hseq hseq' hview
  · exact hsequence

/-! ### One message -/

structure Ready (s : Pbft) : Prop where
  inOrder : InOrder s
  idle : Idle s

theorem InOrder.sub (h : InOrder s) (hlast : s.lastExeSeq ≤ t.lastExeSeq)
    (hsub : ∀ (i : PbftInstanceIndex) inst', t.instances[i]? = some inst' → ∃ inst, s.instances[i]? = some inst) :
    InOrder t := by
  intro i inst j inst' hi hj hlt hlt' hview
  obtain ⟨_, hi⟩ := hsub i inst hi
  obtain ⟨_, hj⟩ := hsub j inst' hj
  exact h i _ j _ hi hj (Int64.lt_of_le_of_lt hlast hlt) (Int64.lt_of_le_of_lt hlast hlt') hview

theorem Ready.calm (h : Ready s) (hst : Calm s t) : Ready t where
  inOrder := by
    refine h.inOrder.sub (by rw [hst.lastExeSeq]; exact Int64.le_refl _) fun i inst' hi' => ?_
    obtain ⟨inst, hi, -⟩ := hst.instances i inst' hi'
    exact ⟨inst, hi⟩
  idle i inst' hi' hphase := by
    obtain ⟨inst, hi, hmoved⟩ := hst.instances i inst' hi'
    rw [hst.lastExeSeq]
    exact h.idle i inst hi (hmoved.phase.symm.trans hphase)

theorem InOrder.put (h : InOrder s) (hi : s.instances[i]? = some inst) : InOrder (s.put i inst') := by
  refine h.sub (Int64.le_refl _) fun j inst'' hj => ?_
  rcases insert_eq_some hj with ⟨rfl, -⟩ | ⟨-, hj⟩
  · exact ⟨inst, hi⟩
  · exact ⟨inst'', hj⟩

theorem Ready.put (h : Ready s) (hi : s.instances[i]? = some inst)
    (hphase : inst'.phase = .commited → inst.phase = .commited) : Ready (s.put i inst') where
  inOrder := h.inOrder.put hi
  idle j inst'' hj hcommited := by
    rcases insert_eq_some hj with ⟨rfl, rfl⟩ | ⟨-, hj⟩
    · exact h.idle j inst hi (hphase hcommited)
    · exact h.idle j inst'' hj hcommited

theorem Ready.onPrePrepare (h : Ready s) (hi : s.instances[i]? = some inst) :
    Ready (Pbft.onPrePrepare n pbft i inst ret s).1 := by
  have hput : Ready (s.put i { inst with
      phase := .prePrepared, phaseItem := 0, prePrepare := pbft.getPrePrepare, checkValueResult := ret }) :=
    h.put hi nofun
  simp only [Pbft.onPrePrepare]
  split_ifs
  · exact h
  · exact h
  · exact h
  · exact h
  · exact h
  · exact h.calm .sendMessage
  · exact hput
  · exact hput.calm .sendMessage

theorem Ready.onPrepare (h : Ready s) (hi : s.instances[i]? = some inst) :
    Ready (Pbft.onPrepare n now pbft i inst s).1 := by
  have hphase : (inst.addPrepare pbft.getPrepare).toPrepared.phase = .commited → inst.phase = .commited := by
    intro hcommited
    rcases PbftInstance.toPrepared_phase (inst.addPrepare pbft.getPrepare) with ⟨hsame, -⟩ | ⟨-, hprepared, -⟩
    · exact hsame.symm.trans hcommited
    · exact absurd (hprepared.symm.trans hcommited) nofun
  simp only [Pbft.onPrepare]
  split_ifs
  · exact h
  · have hput : Ready (s.put i { (inst.addPrepare pbft.getPrepare).toPrepared with lastCommitSendTime := now }) :=
      h.put hi hphase
    exact hput.calm .sendMessage
  · exact h.put hi hphase
  · exact h.put hi id

theorem Ready.onCommit (h : Ready s) (hi : s.instances[i]? = some inst) :
    Ready (Pbft.onCommit now pbft i inst s).1 := by
  simp only [Pbft.onCommit]
  split_ifs
  · exact h
  · exact h
  · have hput : InOrder (s.put i ((inst.addCommit pbft.getCommit).toCommited now)) := h.inOrder.put hi
    refine ⟨hput.sub (lastExeSeq_le_executeValues _ _) fun j inst' hj => ?_, idle_tryExecuteValue hput⟩
    exact ⟨inst', (executeValues_frame _ _).2.2.2 j inst' hj⟩
  · exact h.put hi id

theorem Ready.onMessage (h : Ready s) (hi : s.instances[i]? = some inst) :
    Ready (Pbft.onMessage n now pbft i inst ret s).1 := by
  unfold Pbft.onMessage
  split
  · exact h.onPrePrepare hi
  · exact h.onPrepare hi
  · exact h.onCommit hi
  · exact h

theorem Ready.goLoop {rounds : ℕ} {doret : Bool} (h : Ready s) : Ready (goLoop n now i ret rounds s doret).1 := by
  induction rounds generalizing s doret with
  | zero => exact h
  | succ rounds ih =>
    simp only [goLoop]
    split
    · exact h
    · rename_i inst hi
      split
      · exact h
      · have hmeet : Ready (s.put i inst.meet) := h.put hi id
        exact ih (hmeet.onMessage put_getElem)

theorem Ready.go (h : Ready s) : Ready (Pbft.go n now env i ret s).1 := by
  unfold Pbft.go
  split
  · exact h
  · rename_i inst hi
    split
    · exact h.onMessage hi
    · exact h.goLoop

theorem Ready.filed (h : Ready s) (horigin : s.instances[i]? = some inst ∨ s.instances[i]? = none ∧ inst = .new now)
    (hfits : s.instances[i]? = none → s.Fits i) : Ready (s.filed now i inst env) := by
  rcases horigin with hi | ⟨hnone, rfl⟩
  · have hsame : s.createInstance now i = s := by
      rw [createInstance, if_pos (Table.contains_iff.mpr ⟨inst, hi⟩)]
    unfold Pbft.filed
    rw [hsame]
    exact h.put hi id
  · have hfits := hfits hnone
    have hother : ∀ (j : PbftInstanceIndex) inst', j ≠ i → (s.filed now i (.new now) env).instances[j]? = some inst' →
        s.instances[j]? = some inst' ∧ (j.viewNumber < i.viewNumber → j.sequence ≠ i.sequence) := by
      intro j inst' hne hj
      refine ⟨filed_getElem hne hj, fun hview hsequence => ?_⟩
      have hj : (s.createInstance now i).instances[j]? = some inst' := (Table.insert_of_ne hne).symm.trans hj
      rw [createInstance, if_neg fun hc => by
        obtain ⟨_, hc⟩ := Table.contains_iff.mp hc
        cases hnone.symm.trans hc] at hj
      have hkept := (Table.filter_eq_some.mp hj).2
      simp [hview, hsequence] at hkept
    have hlast : (s.filed now i (.new now) env).lastExeSeq = s.lastExeSeq := by
      unfold Pbft.filed Pbft.createInstance
      split <;> rfl
    refine ⟨fun a inst b inst' ha hb hlt hlt' hview => ?_, fun a inst ha hphase => ?_⟩
    · rw [hlast] at hlt hlt'
      by_cases hai : a = i
      · by_cases hbi : b = i
        · rw [hai, hbi] at hview
          exact absurd hview Int64.lt_irrefl
        · exact hai ▸ (hfits (b, inst') (Table.mem_toList.mpr (hother b inst' hbi hb).1) hlt').2 (hai ▸ hview)
      · by_cases hbi : b = i
        · rw [hbi] at hview ⊢
          obtain ⟨ha, hne⟩ := hother a inst hai ha
          have hle := (hfits (a, inst) (Table.mem_toList.mpr ha) hlt).1 hview
          exact Int64.lt_of_le_of_ne hle (hne hview)
        · exact h.inOrder a inst b inst' (hother a inst hai ha).1 (hother b inst' hbi hb).1 hlt hlt' hview
    · rw [hlast]
      by_cases hai : a = i
      · rw [hai, Pbft.filed, put_getElem] at ha
        cases ha
        cases hphase
      · exact h.idle a inst (hother a inst hai ha).1 hphase

/-! ### Events -/

theorem Ready.onRecv {D : PbftEnv → Prop} {checkValue : CheckValueResult} (h : Ready s) (hshape : Shape n D s)
    (hcheck : checkMessageItem n.toKeys s.validators env = true) (hindex : indexOf env.pbft = some i)
    (hfits : s.Joins i → s.instances.contains i = false → s.Fits i) : Ready (onRecv n now env checkValue s).1 := by
  rcases onRecv_cases n now checkValue s hcheck hindex with hcalm | ⟨-, hlast, htraced⟩ |
    ⟨inst, ret, horigin, hjoins, hgo⟩
  · exact h.calm hcalm
  · rcases htraced with ⟨inst, hi, hcommit⟩ | ⟨hfar, -, hfilter⟩
    · rw [hcommit]
      exact h.onCommit hi
    · -- no instance is left
      have hnone := hshape.none_after_catchUp hlast hfar
      rw [← hfilter] at hnone
      exact ⟨fun a inst _ _ ha => absurd ha (hnone a inst), fun a inst ha => absurd ha (hnone a inst)⟩
  · rw [hgo]
    refine (h.filed horigin fun hnone => hfits hjoins ?_).go
    rw [Bool.eq_false_iff, Ne, Table.contains_iff]
    exact fun ⟨inst, hinst⟩ => nomatch hnone.symm.trans hinst

theorem Ready.request {value : String} (h : Ready s) (hroomy : Roomy s)
    (hfits : s.validators.size ≠ 0 → s.primary s.viewNumber = s.replicaId → s.viewActive = true →
      s.Fits ⟨s.viewNumber, s.lastExeSeq + 1⟩) : Ready (request n now value s).1 := by
  rcases request_cases n now value s with hsame | ⟨hsize, hprimary, hactive, hrequest⟩
  · rwa [hsame]
  have hfits := hfits hsize hprimary hactive
  rw [hrequest]
  refine Ready.calm (s := requested n now value s) ?_ .sendMessage
  have hnext : (s.lastExeSeq + 1).toInt = s.lastExeSeq.toInt + 1 := toInt_succ (lt_succ_of_roomy hroomy) rfl
  -- what is kept and not executed is committed, and does not have the next sequence
  have hother : ∀ (j : PbftInstanceIndex) inst', s.dropUncommited.instances[j]? = some inst' →
      s.instances[j]? = some inst' ∧ (s.lastExeSeq < j.sequence → j.sequence.toInt ≠ s.lastExeSeq.toInt + 1) := by
    intro j inst' hj
    obtain ⟨hj, hkept⟩ := filter_eq_some.mp hj
    refine ⟨hj, fun hlt => h.idle j inst' hj ?_⟩
    simp only [gt_iff_lt, Bool.not_eq_true', Bool.and_eq_false_iff, decide_eq_false_iff_not] at hkept
    have hphase : ¬inst'.phase.toNat < 3 := hkept.resolve_left fun hnot => hnot hlt
    revert hphase
    cases inst'.phase <;> simp [PbftInstancePhase.toNat]
  refine ⟨fun a inst b inst' ha hb hlt hlt' hview => ?_, fun a inst ha hphase => ?_⟩
  · change s.lastExeSeq < _ at hlt hlt'
    rcases insert_eq_some ha with ⟨rfl, -⟩ | ⟨-, ha⟩
    · rcases insert_eq_some hb with ⟨rfl, -⟩ | ⟨-, hb⟩
      · exact absurd hview Int64.lt_irrefl
      · exact (hfits (b, inst') (mem_toList.mpr (hother b inst' hb).1) hlt').2 hview
    · obtain ⟨ha, hne⟩ := hother a inst ha
      rcases insert_eq_some hb with ⟨rfl, -⟩ | ⟨-, hb⟩
      · have hle := (hfits (a, inst) (mem_toList.mpr ha) hlt).1 hview
        refine Int64.lt_of_le_of_ne hle fun heq => hne hlt ?_
        rw [heq]
        exact hnext
      · exact h.inOrder a inst b inst' ha (hother b inst' hb).1 hlt hlt' hview
  · rcases insert_eq_some ha with ⟨rfl, rfl⟩ | ⟨-, ha⟩
    · cases hphase
    · exact h.idle a inst (hother a inst ha).1 hphase

theorem updateValidators_lastExeSeq (n : PbftNode) (validators : ValidatorSet) (proof : ProofText) (s : Pbft) :
    (s.updateValidators n validators proof).lastExeSeq = s.lastExeSeq ∨
      (s.fromProof proof).2 > 0 ∧ (s.updateValidators n validators proof).lastExeSeq = (s.fromProof proof).2 := by
  have hcases : (s.adoptValidators n validators (s.fromProof proof).2).lastExeSeq = s.lastExeSeq ∨
      (s.fromProof proof).2 > 0 ∧
        (s.adoptValidators n validators (s.fromProof proof).2).lastExeSeq = (s.fromProof proof).2 := by
    rw [(adoptValidators_frame validators (s.fromProof proof).2).2.2.2]
    split_ifs with hpos
    · exact .inr ⟨hpos, rfl⟩
    · exact .inl rfl
  rcases updateValidators_cases n validators proof s with hu | ⟨-, hu⟩ | ⟨-, hu⟩
  · exact .inl (by rw [hu])
  · rw [hu]
    exact hcases
  · rw [hu]
    exact hcases

theorem Ready.updateValidators {validators : ValidatorSet} {proof : ProofText} (h : Ready s)
    (hclear : (s.fromProof proof).2 > 0 → s.Clear (s.fromProof proof).2) :
    Ready (s.updateValidators n validators proof) := by
  have hlast := updateValidators_lastExeSeq n validators proof s
  refine ⟨h.inOrder.sub ?_ fun i inst hi => ⟨inst, updateValidators_sub hi⟩, fun i inst hi hphase => ?_⟩
  · rcases hlast with hlast | ⟨hpos, hlast⟩
    · rw [hlast]
      exact Int64.le_refl _
    · rw [hlast]
      exact Int64.le_of_lt ((fromProof_spec proof s).2 hpos)
  · have hi := updateValidators_sub hi
    rcases hlast with hlast | ⟨hpos, hlast⟩
    · rw [hlast]
      exact h.idle i inst hi hphase
    · rw [hlast]
      exact hclear hpos (i, inst) (mem_toList.mpr hi) hphase

theorem Ready.step {D : PbftEnv → Prop} {e : Event} (h : Ready s) (hshape : Shape n D s) (horderly : Orderly n s e) :
    Ready (step n s (now, e)) := by
  rcases step_cases n s now e with hcalm | ⟨env, checkValue, i, rfl, hcheck, hindex⟩ | ⟨value, rfl⟩ |
    ⟨validators, proof, rfl⟩
  · exact h.calm hcalm
  · exact h.onRecv hshape hcheck hindex (horderly.2 hcheck i (by rw [hindex]; exact List.mem_singleton_self i))
  · exact h.request horderly.1 horderly.2
  · exact h.updateValidators horderly.2

theorem ready_start : Ready {} := by
  have hnone : ∀ (i : PbftInstanceIndex) inst, ({} : Pbft).instances[i]? ≠ some inst := nofun
  exact ⟨fun i inst _ _ hi => absurd hi (hnone i inst), fun i inst hi => absurd hi (hnone i inst)⟩

/-- In every run whose instances are in the order of their views, no committed instance is left that has the next
sequence. -/
theorem nothing_pending (n : PbftNode) (events : List (Int64 × Event)) (horderly : Meets n (Orderly n) events)
    (i : PbftInstanceIndex) (inst : PbftInstance) (hi : (run n events).instances[i]? = some inst)
    (hphase : inst.phase = .commited) : i.sequence.toInt ≠ (run n events).lastExeSeq.toInt + 1 := by
  have hready : Shape n (fun _ => True) (run n events) ∧ Ready (run n events) := by
    refine run_induction (P := fun _ s => Shape n (fun _ => True) s ∧ Ready s) ⟨shape_start, ready_start⟩ ?_ horderly
    rintro _ ⟨now, e⟩ s ⟨hshape, hready⟩ he
    exact ⟨hshape.step he.roomy fun _ _ _ => trivial, hready.step hshape he⟩
  exact hready.2.idle i inst hi hphase

end Pbft

/-! ### Fixed runs -/

namespace Network
open Interleave (eventsOf)

/-- A `PRE-PREPARE` of the second validator. -/
def proposal (view sequence : Int64) (value : String) : Protocol.Pbft :=
  { type := .prePrepare
    prePrepare := some
      { viewNumber := view, sequence := sequence, replicaId := 1, value := value, valueDigest := "#" ++ value } }

def preparation (view sequence id : Int64) (value : String) : Protocol.Pbft :=
  { type := .prepare
    prepare := some { viewNumber := view, sequence := sequence, replicaId := id, valueDigest := "#" ++ value } }

def vote (view sequence id : Int64) (value : String) : Protocol.Pbft :=
  { type := .commit
    commit := some { viewNumber := view, sequence := sequence, replicaId := id, valueDigest := "#" ++ value } }

/-- A value comes to the third and the fourth validator, which prepare it with the second one. -/
def prepared (view sequence : Int64) (value : String) : Schedule :=
  [comes "c" "b" (proposal view sequence value), comes "d" "b" (proposal view sequence value),
    comes "c" "c" (preparation view sequence 2 value), comes "c" "d" (preparation view sequence 3 value),
    comes "d" "c" (preparation view sequence 2 value), comes "d" "d" (preparation view sequence 3 value)]

/-- The votes of three validators come to one of them. -/
def voted (a : Address) (view sequence : Int64) (value : String) : Schedule :=
  [comes a "b" (vote view sequence 1 value), comes a "c" (vote view sequence 2 value),
    comes a "d" (vote view sequence 3 value)]

def plainViewChange (a : Address) (id : Int64) : PbftEnv :=
  signedAs a { type := .viewChange, viewChange := some { viewNumber := 1, sequence := 1, replicaId := id } }

def laterView : Schedule :=
  let newView : Protocol.Pbft :=
    { type := .newView
      newView := some
        { viewNumber := 1, replicaId := 1, sequence := 1
          viewChanges := [plainViewChange "b" 1, plainViewChange "c" 2, plainViewChange "d" 3] } }
  [("c", 1, .txTimeout), ("d", 1, .txTimeout), comes "c" "b" newView, comes "d" "b" newView]

/-- The second validator, which is not honest, has the sequence 3 committed in the view 0 and the sequence 2 in the
view 1. -/
def overtaken : Schedule :=
  [("a", fourArrive), ("c", fourArrive), ("d", fourArrive)] ++
    prepared 0 3 "y" ++ voted "c" 0 3 "y" ++ voted "d" 0 3 "y" ++ laterView ++ prepared 1 2 "x" ++ voted "c" 1 2 "x"

/-- One validator of four is not honest; after a `COMMIT`, an honest one has a committed instance with the next
sequence. -/
theorem pending_after_commit :
    ∃ N : Network, N.FewFaulty fourValidators ∧ ∃ schedule, N.Fixed fourValidators schedule ∧
      N.Unforgeable schedule ∧ ∃ a ∈ N.honest, ∃ before now env checkValue,
        schedule = before ++ [(a, now, .recv env checkValue)] ∧ env.pbft.type = .commit ∧
        ∃ (i : PbftInstanceIndex) (inst : PbftInstance), (N.replica schedule a).instances[i]? = some inst ∧
          inst.phase = .commited ∧ i.sequence.toInt = (N.replica schedule a).lastExeSeq.toInt + 1 := by
  have hleft : ((plain {"a", "c", "d"}).replica overtaken "c").instances[(⟨1, 2⟩ : PbftInstanceIndex)]?.map
      PbftInstance.phase = some .commited := by decide +kernel
  obtain ⟨inst, hi, hphase⟩ := Option.map_eq_some_iff.mp hleft
  refine ⟨plain {"a", "c", "d"}, by unfold FewFaulty; decide, overtaken, fixed_of_knowsFour (by decide +kernel),
    unforgeable_of_get (by decide +kernel), "c", by decide, overtaken.dropLast, 1, _, .valid, rfl, rfl,
    ⟨1, 2⟩, inst, hi, hphase, by decide +kernel⟩

end Network

namespace Pbft

/-- The messages of three validators for the sequence 2, in the order in which a validator needs them. -/
def executed : List (Int64 × Event) :=
  Interleave.eventsOf "c" ([("c", fourArrive)] ++ Network.prepared 0 2 "x" ++ Network.voted "c" 0 2 "x")

theorem nothing_pending_executed :
    Meets (plainNode "c") (Orderly (plainNode "c")) executed ∧ (run (plainNode "c") executed).lastExeSeq = 2 ∧
      ∀ (i : PbftInstanceIndex) inst, (run (plainNode "c") executed).instances[i]? = some inst →
        inst.phase = .commited → i.sequence.toInt ≠ (run (plainNode "c") executed).lastExeSeq.toInt + 1 := by
  have horderly : Meets (plainNode "c") (Orderly (plainNode "c")) executed := meets_of_get (by decide +kernel)
  exact ⟨horderly, by decide +kernel,
    fun i inst hi hphase => nothing_pending (plainNode "c") executed horderly i inst hi hphase⟩

end Pbft
end OpenSesame
