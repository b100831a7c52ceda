
import OpenSesame.Theorems.Consensus.Opening

/-! # The order in which the messages of an instance come

Messages that come before their phase wait in a buffer, which the loop of `PbftInstance::Go` goes
through when the phase begins; later ones are taken at once. -/

namespace OpenSesame
open Pbft Table PbftInstance List
open Protocol

/-! ### The phase that messages lead to -/

namespace Pbft

/-- The digest that a message of the three phases carries. -/
def digestOf (pbft : Protocol.Pbft) : String :=
  match pbft.type with
  | .prePrepare => pbft.getPrePrepare.valueDigest
  | .prepare => pbft.getPrepare.valueDigest
  | .commit => pbft.getCommit.valueDigest
  | _ => ""

/-- A message for the instance `i` with a digest, and with a value of that digest if it has one. -/
structure Concerns (n : PbftNode) (i : PbftInstanceIndex) (digest : String) (env : PbftEnv) : Prop where
  index : indexOf env.pbft = some i
  same : digestOf env.pbft = digest
  value : env.pbft.type = .prePrepare → n.crypto env.pbft.getPrePrepare.value = digest

def buffered (t : ℕ) (l : List PbftEnv) : List PbftEnv := l.filter fun env => env.pbft.type.buffer == some t

/-- The validators in a list of `PREPARE` messages. -/
def preparers (l : List PbftEnv) : Finset Int64 := (l.map fun env => env.pbft.getPrepare.replicaId).toFinset

/-- The validators in a list of `COMMIT` messages. -/
def committers (l : List PbftEnv) : Finset Int64 := (l.map fun env => env.pbft.getCommit.replicaId).toFinset

/-- The phase of an instance to which the messages `l` have come. -/
def phaseFor (quorum : ℕ) (l : List PbftEnv) : PbftInstancePhase :=
  if (buffered 0 l).isEmpty then .none
  else if (preparers (buffered 1 l)).card < quorum then .prePrepared
  else if (committers (buffered 2 l)).card < quorum + 1 then .prepared
  else .commited

theorem mem_buffered {t : ℕ} {l : List PbftEnv} {env : PbftEnv} :
    env ∈ buffered t l ↔ env ∈ l ∧ env.pbft.type.buffer = some t := by
  rw [buffered, mem_filter, beq_iff_eq]

variable {l l' : List PbftEnv}

theorem preparers_mono (h : ∀ env ∈ l, env ∈ l') : preparers l ⊆ preparers l' := by
  intro id hid
  simp only [preparers, mem_toFinset, mem_map] at hid ⊢
  obtain ⟨env, henv, rfl⟩ := hid
  exact ⟨env, h env henv, rfl⟩

theorem committers_mono (h : ∀ env ∈ l, env ∈ l') : committers l ⊆ committers l' := by
  intro id hid
  simp only [committers, mem_toFinset, mem_map] at hid ⊢
  obtain ⟨env, henv, rfl⟩ := hid
  exact ⟨env, h env henv, rfl⟩

theorem phaseFor_congr (h : ∀ env, env ∈ l ↔ env ∈ l') (quorum : ℕ) : phaseFor quorum l = phaseFor quorum l' := by
  have hbuffered : ∀ t env, env ∈ buffered t l ↔ env ∈ buffered t l' := by
    intro t env
    rw [mem_buffered, mem_buffered, h]
  have hempty : (buffered 0 l).isEmpty = (buffered 0 l').isEmpty := by
    rw [Bool.eq_iff_iff, List.isEmpty_iff, List.isEmpty_iff, eq_nil_iff_forall_not_mem, eq_nil_iff_forall_not_mem]
    exact forall_congr' fun env => not_congr (hbuffered 0 env)
  have hpreparers : preparers (buffered 1 l) = preparers (buffered 1 l') :=
    Finset.Subset.antisymm (preparers_mono fun env => (hbuffered 1 env).mp)
      (preparers_mono fun env => (hbuffered 1 env).mpr)
  have hcommitters : committers (buffered 2 l) = committers (buffered 2 l') :=
    Finset.Subset.antisymm (committers_mono fun env => (hbuffered 2 env).mp)
      (committers_mono fun env => (hbuffered 2 env).mpr)
  unfold phaseFor
  rw [hempty, hpreparers, hcommitters]

end Pbft

/-! ### What an instance has taken -/

namespace PbftInstance
open Pbft (Concerns preparers committers)
variable {c : Setting} {i : PbftInstanceIndex} {digest : String} {inst : PbftInstance} {env : PbftEnv} {t : ℕ}

inductive Taking (quorum : ℕ) (digest : String) (inst : PbftInstance) : Prop
  | none (hphase : inst.phase = .none) (hitem : inst.phaseItem = 0) (hprepares : inst.prepares.keys.toFinset = ∅)
      (hcommits : inst.commits.keys.toFinset = ∅)
  | prePrepared (hphase : inst.phase = .prePrepared) (hopened : inst.msgBuf 0 ≠ [])
      (hitem : inst.phaseItem ≤ (inst.msgBuf 1).length) (hdigest : inst.prePrepare.valueDigest = digest)
      (hprepares : inst.prepares.keys.toFinset = preparers ((inst.msgBuf 1).take inst.phaseItem))
      (hbelow : inst.prepares.size < quorum) (hcommits : inst.commits.keys.toFinset = ∅)
  | prepared (hphase : inst.phase = .prepared) (hopened : inst.msgBuf 0 ≠ [])
      (hitem : inst.phaseItem ≤ (inst.msgBuf 2).length) (hdigest : inst.prePrepare.valueDigest = digest)
      (hquorum : quorum ≤ (preparers (inst.msgBuf 1)).card)
      (hcommits : inst.commits.keys.toFinset = committers ((inst.msgBuf 2).take inst.phaseItem))
      (hbelow : inst.commits.size < quorum + 1)
  | commited (hphase : inst.phase = .commited) (hopened : inst.msgBuf 0 ≠ [])
      (hquorum : quorum ≤ (preparers (inst.msgBuf 1)).card)
      (hcommitted : quorum + 1 ≤ (committers (inst.msgBuf 2)).card)

theorem take_next {l : List PbftEnv} {k : ℕ} (h : l[k]? = some env) : l.take (k + 1) = l.take k ++ [env] := by
  rw [take_add_one, h]
  rfl

theorem preparers_concat (l : List PbftEnv) (env : PbftEnv) :
    preparers (l ++ [env]) = insert env.pbft.getPrepare.replicaId (preparers l) := by
  ext id
  simp only [preparers, map_append, toFinset_append, Finset.mem_union, Finset.mem_insert, map_cons,
    map_nil, toFinset_cons, toFinset_nil, insert_empty_eq, Finset.mem_singleton]
  exact or_comm

theorem committers_concat (l : List PbftEnv) (env : PbftEnv) :
    committers (l ++ [env]) = insert env.pbft.getCommit.replicaId (committers l) := by
  ext id
  simp only [committers, map_append, toFinset_append, Finset.mem_union, Finset.mem_insert, map_cons,
    map_nil, toFinset_cons, toFinset_nil, insert_empty_eq, Finset.mem_singleton]
  exact or_comm

theorem toPrepared_fields (inst : PbftInstance) :
    inst.toPrepared.prePrepare = inst.prePrepare ∧ inst.toPrepared.commits = inst.commits ∧
      inst.toPrepared.msgBuf = inst.msgBuf := by
  unfold toPrepared
  split <;> exact ⟨rfl, rfl, rfl⟩

theorem takePrepare_spec {prepare : Protocol.PbftPrepare} (h : inst.prePrepare.valueDigest = prepare.valueDigest)
    (hphase : inst.phase = .prePrepared) :
    (inst.addPrepare prepare).prepares.size < c.quorum ∧ inst.takePrepare c prepare = inst.addPrepare prepare ∨
      c.quorum ≤ (inst.addPrepare prepare).prepares.size ∧ (inst.takePrepare c prepare).phase = .prepared ∧
        (inst.takePrepare c prepare).phaseItem = 0 ∧ (inst.takePrepare c prepare).prePrepare = inst.prePrepare ∧
        (inst.takePrepare c prepare).commits = inst.commits := by
  have hmoved : (inst.addPrepare prepare).toPrepared =
      { inst.addPrepare prepare with phase := .prepared, phaseItem := 0 } := by
    rw [toPrepared, if_pos]
    change inst.phase.toNat < 2
    rw [hphase]
    exact Nat.lt_succ_self 1
  unfold takePrepare
  rw [if_neg (not_not.mpr h)]
  split_ifs with hlow hvalid
  · exact .inl ⟨hlow, rfl⟩
  · rw [hmoved]
    exact .inr ⟨Nat.not_lt.mp hlow, rfl, rfl, rfl, rfl⟩
  · rw [hmoved]
    exact .inr ⟨Nat.not_lt.mp hlow, rfl, rfl, rfl, rfl⟩

variable {quorum : ℕ}

theorem taking_take (hleads : c.leads = false) (hret : c.ret = .valid) (hquorum : c.quorum = quorum)
    (hpos : 1 ≤ quorum) (h : Taking quorum digest inst)
    (henv : (inst.msgBuf inst.phase.toNat)[inst.phaseItem]? = some env)
    (hbuffer : env.pbft.type.buffer = some inst.phase.toNat) (hconcerns : Concerns c.node i digest env) :
    Taking quorum digest (inst.meet.take c env.pbft) := by
  have hmem := List.mem_of_getElem? henv
  obtain ⟨hlt, -⟩ := List.getElem?_eq_some_iff.mp henv
  subst hquorum
  cases h with
  | none hphase hitem hprepares hcommits =>
    rw [hphase] at hbuffer hmem
    have htype := type_of_buffer (a := .prePrepare) hbuffer rfl
    have hdigest : env.pbft.getPrePrepare.valueDigest = digest := by
      rw [← hconcerns.same, Pbft.digestOf, htype]
    have htake : inst.meet.take c env.pbft = { inst.meet with
        phase := .prePrepared, phaseItem := 0, prePrepare := env.pbft.getPrePrepare, checkValueResult := c.ret } := by
      simp only [take, htype, takePrePrepare]
      rw [if_neg]
      simp [hleads, hret, hphase, hdigest, hconcerns.value htype]
    rw [htake]
    refine .prePrepared rfl (List.ne_nil_of_mem hmem) (Nat.zero_le _) hdigest ?_ ?_ hcommits
    · exact hprepares
    · change inst.prepares.size < c.quorum
      rw [← Table.card_keys, hprepares]
      exact hpos
  | prePrepared hphase hopened hitem hdigest hprepares hbelow hcommits =>
    simp only [hphase, PbftInstancePhase.toNat] at hbuffer hlt henv
    have htype := type_of_buffer (a := .prepare) hbuffer rfl
    have hsame : inst.meet.prePrepare.valueDigest = env.pbft.getPrepare.valueDigest := by
      change inst.prePrepare.valueDigest = _
      rw [hdigest, ← hconcerns.same, Pbft.digestOf, htype]
    have hkeys : (inst.meet.addPrepare env.pbft.getPrepare).prepares.keys.toFinset =
        preparers ((inst.msgBuf 1).take (inst.phaseItem + 1)) := by
      rw [take_next henv, preparers_concat, ← hprepares]
      exact Table.keys_insertIfNew
    simp only [take, htype]
    rcases takePrepare_spec (c := c) hsame hphase with ⟨hlow, htake⟩ | ⟨hhigh, hnext, hzero, hkept, hcommits'⟩
    · rw [htake]
      exact .prePrepared hphase hopened hlt hdigest hkeys hlow hcommits
    · refine .prepared hnext ?_ (by rw [hzero]; exact Nat.zero_le _) (by rw [hkept]; exact hdigest) ?_ ?_ ?_
      · rw [takePrepare_msgBuf]
        exact hopened
      · rw [takePrepare_msgBuf]
        refine hhigh.trans ?_
        rw [← Table.card_keys, hkeys]
        exact Finset.card_le_card (Pbft.preparers_mono fun _ => List.mem_of_mem_take)
      · rw [hzero, hcommits', List.take_zero]
        exact hcommits
      · rw [hcommits', ← Table.card_keys]
        change inst.commits.keys.toFinset.card < _
        rw [hcommits]
        exact Nat.succ_pos _
  | prepared hphase hopened hitem hdigest hq hcommits hbelow =>
    simp only [hphase, PbftInstancePhase.toNat] at hbuffer hlt henv
    have htype := type_of_buffer (a := .commit) hbuffer rfl
    have hsame : inst.meet.prePrepare.valueDigest = env.pbft.getCommit.valueDigest := by
      change inst.prePrepare.valueDigest = _
      rw [hdigest, ← hconcerns.same, Pbft.digestOf, htype]
    have hkeys : (inst.meet.addCommit env.pbft.getCommit).commits.keys.toFinset =
        committers ((inst.msgBuf 2).take (inst.phaseItem + 1)) := by
      rw [take_next henv, committers_concat, ← hcommits]
      exact Table.keys_insertIfNew
    simp only [take, htype, takeCommit]
    split_ifs with hknown hdone
    · -- a second message of the same validator
      have hcontains := hknown.resolve_left (not_not.mpr hsame)
      have hin : env.pbft.getCommit.replicaId ∈ inst.commits.keys.toFinset := by
        rw [List.mem_toFinset, Table.mem_keys]
        exact Table.contains_iff.mp hcontains
      refine .prepared hphase hopened hlt hdigest hq ?_ hbelow
      change inst.commits.keys.toFinset = committers ((inst.msgBuf 2).take (inst.phaseItem + 1))
      rw [take_next henv, committers_concat, ← hcommits, Finset.insert_eq_of_mem hin]
    · refine .commited rfl hopened hq ?_
      have hsize := hdone.1
      rw [ge_iff_le, ← Table.card_keys, hkeys] at hsize
      exact hsize.trans (Finset.card_le_card (Pbft.committers_mono fun _ => List.mem_of_mem_take))
    · refine .prepared hphase hopened hlt hdigest hq hkeys ?_
      have hlow : ¬((inst.meet.addCommit env.pbft.getCommit).commits.size ≥ c.quorum + 1) := fun hge =>
        hdone ⟨hge, by rw [meet_phase, hphase]; decide⟩
      exact Nat.lt_of_not_le hlow
  | commited hphase =>
    rw [hphase] at hbuffer
    exact absurd (Pbft.Keeps.buffer_lt hbuffer) (Nat.lt_irrefl 3)

/-- All messages in the buffers of an instance are for it, with one digest. -/
def Holding (c : Setting) (i : PbftInstanceIndex) (digest : String) (inst : PbftInstance) : Prop :=
  ∀ t, ∀ env ∈ inst.msgBuf t, env.pbft.type.buffer = some t ∧ Concerns c.node i digest env

theorem taking_takeAll {quorum rounds : ℕ} (hleads : c.leads = false) (hret : c.ret = .valid)
    (hquorum : c.quorum = quorum) (hpos : 1 ≤ quorum) (hholding : Holding c i digest inst)
    (h : Taking quorum digest inst) : Taking quorum digest (inst.takeAll c rounds) := by
  induction rounds generalizing inst with
  | zero => exact h
  | succ rounds ih =>
    simp only [takeAll]
    split
    · exact h
    · rename_i env henv
      obtain ⟨hbuffer, hconcerns⟩ := hholding _ env (mem_of_getElem? henv)
      refine ih ?_ (taking_take hleads hret hquorum hpos h henv hbuffer hconcerns)
      unfold Holding
      rw [take_msgBuf]
      exact hholding

/-! ### A message comes -/

theorem push_self : (inst.push t env).msgBuf t = inst.msgBuf t ++ [env] := by
  simp [push]

theorem push_other {t' : ℕ} (h : t' ≠ t) : (inst.push t env).msgBuf t' = inst.msgBuf t' := by
  simp [push, Function.update_of_ne h]

theorem push_opened (h : inst.msgBuf 0 ≠ []) : (inst.push t env).msgBuf 0 ≠ [] := by
  obtain ⟨env', henv'⟩ := exists_mem_of_ne_nil _ h
  exact ne_nil_of_mem (mem_push_of_mem henv')

theorem push_preparers : (preparers (inst.msgBuf 1)).card ≤ (preparers ((inst.push t env).msgBuf 1)).card :=
  Finset.card_le_card (preparers_mono fun _ => mem_push_of_mem)

theorem push_committers : (committers (inst.msgBuf 2)).card ≤ (committers ((inst.push t env).msgBuf 2)).card :=
  Finset.card_le_card (committers_mono fun _ => mem_push_of_mem)

theorem push_take {k t' : ℕ} (env : PbftEnv) (t : ℕ) (h : k ≤ (inst.msgBuf t').length) :
    k ≤ ((inst.push t env).msgBuf t').length ∧ ((inst.push t env).msgBuf t').take k = (inst.msgBuf t').take k := by
  by_cases ht : t' = t
  · rw [ht] at h ⊢
    rw [push_self, take_append_of_le_length h, length_append]
    exact ⟨Nat.le_add_right_of_le h, rfl⟩
  · rw [push_other ht]
    exact ⟨h, rfl⟩

theorem Taking.push (h : Taking quorum digest inst) : Taking quorum digest (inst.push t env) := by
  cases h with
  | none hphase hitem hprepares hcommits => exact .none hphase hitem hprepares hcommits
  | prePrepared hphase hopened hitem hdigest hprepares hbelow hcommits =>
    obtain ⟨hitem', htake⟩ := push_take env t hitem
    exact .prePrepared hphase (push_opened hopened) hitem' hdigest (hprepares.trans (congrArg _ htake.symm)) hbelow
      hcommits
  | prepared hphase hopened hitem hdigest hquorum hcommits hbelow =>
    obtain ⟨hitem', htake⟩ := push_take env t hitem
    exact .prepared hphase (push_opened hopened) hitem' hdigest (hquorum.trans push_preparers)
      (hcommits.trans (congrArg _ htake.symm)) hbelow
  | commited hphase hopened hquorum hcommitted =>
    exact .commited hphase (push_opened hopened) (hquorum.trans push_preparers) (hcommitted.trans push_committers)

theorem takePrePrepare_of_opened {prePrepare : Protocol.PbftPrePrepare} (h : inst.phase ≠ .none) :
    inst.takePrePrepare c prePrepare = inst := by
  rcases takePrePrepare_cases c prePrepare inst with hsame | ⟨hnone, -⟩
  · exact hsame
  · exact absurd hnone h

theorem takePrepare_fields (prepare : Protocol.PbftPrepare) (inst : PbftInstance) :
    (inst.takePrepare c prepare).prePrepare = inst.prePrepare ∧
      (inst.takePrepare c prepare).commits = inst.commits := by
  obtain ⟨hprePrepare, hcommits, -⟩ := toPrepared_fields (inst.addPrepare prepare)
  unfold takePrepare
  split_ifs
  · exact ⟨rfl, rfl⟩
  · exact ⟨rfl, rfl⟩
  · exact ⟨hprePrepare, hcommits⟩
  · exact ⟨hprePrepare, hcommits⟩

theorem taking_passed (h : Taking quorum digest inst) (hbuffer : env.pbft.type.buffer = some t)
    (hlt : t < inst.phase.toNat) : Taking quorum digest (inst.take c env.pbft) := by
  obtain ⟨hphase', hitem'⟩ := take_phase_of_lt (c := c) hbuffer hlt
  cases h with
  | none hphase =>
    rw [hphase] at hlt
    exact absurd hlt (Nat.not_lt_zero t)
  | prePrepared hphase hopened hitem hdigest hprepares hbelow hcommits =>
    obtain rfl : t = 0 := by
      rw [hphase] at hlt
      exact Nat.lt_one_iff.mp hlt
    have hsame : inst.take c env.pbft = inst := by
      simp only [take, type_of_buffer (a := .prePrepare) hbuffer rfl]
      exact takePrePrepare_of_opened (by rw [hphase]; rintro ⟨⟩)
    rw [hsame]
    exact .prePrepared hphase hopened hitem hdigest hprepares hbelow hcommits
  | prepared hphase hopened hitem hdigest hquorum hcommits hbelow =>
    have hfields : (inst.take c env.pbft).prePrepare = inst.prePrepare ∧
        (inst.take c env.pbft).commits = inst.commits := by
      rw [hphase] at hlt
      rcases Nat.le_one_iff_eq_zero_or_eq_one.mp (Nat.le_of_lt_succ hlt) with rfl | rfl
      · simp only [take, type_of_buffer (a := .prePrepare) hbuffer rfl]
        rw [takePrePrepare_of_opened (by rw [hphase]; rintro ⟨⟩)]
        exact ⟨rfl, rfl⟩
      · simp only [take, type_of_buffer (a := .prepare) hbuffer rfl]
        exact takePrepare_fields _ inst
    refine .prepared (hphase'.trans hphase) ?_ ?_ ?_ ?_ ?_ ?_
    · rwa [take_msgBuf]
    · rwa [take_msgBuf, hitem']
    · rwa [hfields.1]
    · rwa [take_msgBuf]
    · rwa [hfields.2, take_msgBuf, hitem']
    · rwa [hfields.2]
  | commited hphase hopened hquorum hcommitted =>
    refine .commited (hphase'.trans hphase) ?_ ?_ ?_
    · rwa [take_msgBuf]
    · rwa [take_msgBuf]
    · rwa [take_msgBuf]

@[simp] theorem go_msgBuf : (inst.go c env).msgBuf = inst.msgBuf := by
  unfold go
  split_ifs
  · exact take_msgBuf
  · exact takeAll_msgBuf

theorem taking_go (hleads : c.leads = false) (hret : c.ret = .valid) (hquorum : c.quorum = quorum)
    (hpos : 1 ≤ quorum) (hholding : Holding c i digest (inst.push t env)) (hbuffer : env.pbft.type.buffer = some t)
    (h : Taking quorum digest inst) : Taking quorum digest ((inst.push t env).go c env) := by
  simp only [go, hbuffer, Option.getD_some]
  split_ifs with hlt
  · exact taking_passed h.push hbuffer hlt
  · exact taking_takeAll hleads hret hquorum hpos hholding h.push

theorem phase_of_taking {l : List PbftEnv} (h : Taking quorum digest inst) (hmet : inst.Met)
    (hbuffers : ∀ t, inst.msgBuf t = buffered t l) : inst.phase = phaseFor quorum l := by
  unfold phaseFor
  rw [← hbuffers, ← hbuffers, ← hbuffers]
  unfold Met at hmet
  cases h with
  | none hphase hitem =>
    rw [hphase, hitem] at hmet
    have hnil : inst.msgBuf 0 = [] := eq_nil_of_length_eq_zero (Nat.le_zero.mp hmet)
    rw [hphase, hnil]
    rfl
  | prePrepared hphase hopened hitem hdigest hprepares hbelow =>
    rw [hphase] at hmet
    have hall : (inst.msgBuf 1).take inst.phaseItem = inst.msgBuf 1 := take_of_length_le hmet
    rw [← card_keys, hprepares, hall] at hbelow
    rw [if_neg (by rwa [List.isEmpty_iff]), if_pos hbelow, hphase]
  | prepared hphase hopened hitem hdigest hquorum hcommits hbelow =>
    rw [hphase] at hmet
    have hall : (inst.msgBuf 2).take inst.phaseItem = inst.msgBuf 2 := take_of_length_le hmet
    rw [← card_keys, hcommits, hall] at hbelow
    rw [if_neg (by rwa [List.isEmpty_iff]), if_neg (Nat.not_lt.mpr hquorum), if_pos hbelow, hphase]
  | commited hphase hopened hquorum hcommitted =>
    rw [if_neg (by rwa [List.isEmpty_iff]), if_neg (Nat.not_lt.mpr hquorum), if_neg (Nat.not_lt.mpr hcommitted), hphase]

end PbftInstance

/-! ### Messages come to a replica -/

namespace Pbft
variable {n : PbftNode} {now : Int64} {s t : Pbft} {i : PbftInstanceIndex} {digest : String} {inst : PbftInstance}
  {env : PbftEnv} {l : List PbftEnv}

/-- A message with a valid value is put into the buffer of its instance and given to `Go`. -/
def feed (n : PbftNode) (i : PbftInstanceIndex) (s : Pbft) (message : Int64 × PbftEnv) : Pbft :=
  match s.instances[i]? with
  | none => s
  | some inst =>
    (go n message.1 message.2 i .valid (s.put i (inst.push (message.2.pbft.type.buffer.getD 0) message.2))).1

structure Fed (n : PbftNode) (s : Pbft) (i : PbftInstanceIndex) (digest : String) (l : List PbftEnv) (t : Pbft) :
    Prop where
  validators : t.validators = s.validators
  replicaId : t.replicaId = s.replicaId
  viewNumber : t.viewNumber = s.viewNumber
  noneAhead : NoneAhead s i → NoneAhead t i
  own : ∀ inst, t.instances[i]? = some inst → inst.Met ∧ PbftInstance.Taking s.quorum digest inst ∧
    ∀ b, inst.msgBuf b = buffered b l
  gone : t.instances[i]? = none → phaseFor s.quorum l = .commited ∧ ¬NoneAhead s i

theorem buffered_concat {b b' : ℕ} (hbuffer : env.pbft.type.buffer = some b) :
    buffered b' (l ++ [env]) = if b' = b then buffered b' l ++ [env] else buffered b' l := by
  unfold buffered
  rw [filter_append]
  split_ifs with hb
  · rw [hb, filter_cons_of_pos (by simp [hbuffer]), filter_nil]
  · rw [filter_cons_of_neg (by simp [hbuffer, Ne.symm hb]), filter_nil, append_nil]

theorem phaseFor_concat {q : ℕ} (h : phaseFor q l = .commited) : phaseFor q (l ++ [env]) = .commited := by
  have hsub : ∀ b, ∀ e ∈ buffered b l, e ∈ buffered b (l ++ [env]) := by
    intro b e he
    rw [mem_buffered] at he ⊢
    exact ⟨mem_append_left _ he.1, he.2⟩
  unfold phaseFor at h ⊢
  split_ifs at h with hopened hpreparers hcommitters
  have hopened' : ¬(buffered 0 (l ++ [env])).isEmpty = true := by
    rw [List.isEmpty_iff] at hopened ⊢
    obtain ⟨e, he⟩ := exists_mem_of_ne_nil _ hopened
    exact ne_nil_of_mem (hsub 0 e he)
  have hmore := Finset.card_le_card (preparers_mono (hsub 1))
  have hmore' := Finset.card_le_card (committers_mono (hsub 2))
  rw [if_neg hopened', if_neg (by omega), if_neg (by omega)]

theorem one_le_getQuorumSize {size : ℕ} (h : 2 ≤ size) : 1 ≤ getQuorumSize size := by
  unfold getQuorumSize
  dsimp only
  split_ifs <;> omega

theorem Fed.feed (hsize : 2 ≤ s.validators.size) (hother : s.primary s.viewNumber ≠ s.replicaId)
    (hl : ∀ e ∈ l ++ [env], Concerns n i digest e) (h : Fed n s i digest l t) :
    Fed n s i digest (l ++ [env]) (Pbft.feed n i t (now, env)) := by
  have hconcerns := hl env (mem_append_right _ (mem_singleton_self env))
  obtain ⟨b, hbuffer⟩ := Keeps.buffer_of_indexOf hconcerns.index
  unfold Pbft.feed
  cases hi : t.instances[i]? with
  | none =>
    obtain ⟨hphase, hahead⟩ := h.gone hi
    exact ⟨h.validators, h.replicaId, h.viewNumber, h.noneAhead, fun inst hi' => absurd (hi.symm.trans hi') nofun,
      fun _ => ⟨phaseFor_concat hphase, hahead⟩⟩
  | some inst =>
    obtain ⟨hmet, htaking, hbuffers⟩ := h.own inst hi
    dsimp only
    rw [hbuffer, Option.getD_some]
    have hsetting : (t.put i (inst.push b env)).setting n now .valid = s.setting n now .valid := by
      have hprimary : t.primary t.viewNumber = s.primary s.viewNumber := by
        rw [primary, primary, h.validators, h.viewNumber]
      have hquorum : t.quorum = s.quorum := by rw [quorum, quorum, h.validators]
      change t.setting n now .valid = _
      unfold setting
      simp only [hprimary, hquorum, h.validators, h.replicaId]
    have hfollows : Follows t i ((inst.push b env).go (s.setting n now .valid) env)
        (go n now env i .valid (t.put i (inst.push b env))).1 := by
      rw [← hsetting]
      exact Follows.put.trans (follows_go put_getElem)
    have hpushed : ∀ b', (inst.push b env).msgBuf b' = buffered b' (l ++ [env]) := by
      intro b'
      rw [buffered_concat hbuffer]
      split_ifs with hb
      · rw [hb, push_self, hbuffers]
      · rw [push_other hb, hbuffers]
    have hholding : PbftInstance.Holding (s.setting n now .valid) i digest (inst.push b env) := by
      intro b' env' henv'
      rw [hpushed, mem_buffered] at henv'
      exact ⟨henv'.2, hl env' henv'.1⟩
    have hleads : (s.setting n now .valid).leads = false := by
      simp [setting, hother]
    have hpos : 1 ≤ s.quorum := one_le_getQuorumSize hsize
    have htaking' := taking_go hleads rfl rfl hpos hholding hbuffer htaking
    have hmet' : ((inst.push b env).go (s.setting n now .valid) env).Met := by
      refine met_go (fun b' env' henv' => ?_) hmet hbuffer hconcerns.index
      rw [hbuffers, mem_buffered] at henv'
      exact ⟨henv'.2, (hl env' (mem_append_left _ henv'.1)).index⟩
    have hbuffers' : ∀ b',
        ((inst.push b env).go (s.setting n now .valid) env).msgBuf b' = buffered b' (l ++ [env]) := by
      intro b'
      rw [go_msgBuf, hpushed]
    refine ⟨hfollows.validators.trans h.validators, hfollows.replicaId.trans h.replicaId,
      hfollows.viewNumber.trans h.viewNumber, fun hnone => hfollows.noneAhead (h.noneAhead hnone), ?_, ?_⟩
    · intro inst' hi'
      rw [hfollows.own inst' hi']
      exact ⟨hmet', htaking', hbuffers'⟩
    · intro hgone
      obtain ⟨hphase, hahead⟩ := hfollows.gone hgone
      refine ⟨?_, fun hnone => hahead (h.noneAhead hnone)⟩
      rw [← hphase]
      exact (phase_of_taking htaking' hmet' hbuffers').symm

/-- The instance `i` of the replica `t`, which was `s` before, is in a phase. It is gone only if it was committed and
an instance that is far ahead was executed with it. -/
structure Reached (s t : Pbft) (i : PbftInstanceIndex) (phase : PbftInstancePhase) : Prop where
  own : ∀ inst, t.instances[i]? = some inst → inst.phase = phase
  gone : t.instances[i]? = none → phase = .commited ∧ ¬NoneAhead s i

theorem reached_foldl (hsize : 2 ≤ s.validators.size) (hother : s.primary s.viewNumber ≠ s.replicaId)
    (hi : s.instances[i]? = some (.new now)) (messages : List (Int64 × PbftEnv))
    (hmessages : ∀ env ∈ messages.map Prod.snd, Concerns n i digest env) :
    Reached s (messages.foldl (feed n i) s) i (phaseFor s.quorum (messages.map Prod.snd)) := by
  have hfed : Fed n s i digest (messages.map Prod.snd) (messages.foldl (feed n i) s) := by
    induction messages using reverseRecOn with
    | nil =>
      refine ⟨rfl, rfl, rfl, id, fun inst hi' => ?_, fun hnone => absurd (hi.symm.trans hnone) nofun⟩
      obtain rfl := Option.some.inj (hi.symm.trans hi')
      exact ⟨Nat.le_refl 0, .none rfl rfl rfl rfl, fun _ => rfl⟩
    | append_singleton messages message ih =>
      rw [map_append] at hmessages ⊢
      rw [foldl_concat]
      exact Fed.feed hsize hother hmessages (ih fun env henv => hmessages env (mem_append_left _ henv))
  refine ⟨fun inst hinst => ?_, hfed.gone⟩
  obtain ⟨hmet, htaking, hbuffers⟩ := hfed.own inst hinst
  exact phase_of_taking htaking hmet hbuffers

/-- The messages of an instance, all with one digest and valid values, lead a replica that is not the primary to the
same phase in every order and with any repetition. -/
theorem same_phase_in_any_order (n : PbftNode) (s : Pbft) (i : PbftInstanceIndex) (now : Int64)
    (hi : s.instances[i]? = some (.new now)) (hsize : 2 ≤ s.validators.size)
    (hother : s.primary s.viewNumber ≠ s.replicaId) (digest : String) (messages messages' : List (Int64 × PbftEnv))
    (hmessages : ∀ env ∈ messages.map Prod.snd, Concerns n i digest env)
    (hsame : ∀ env, env ∈ messages'.map Prod.snd ↔ env ∈ messages.map Prod.snd) :
    Reached s (messages.foldl (feed n i) s) i (phaseFor s.quorum (messages.map Prod.snd)) ∧
      Reached s (messages'.foldl (feed n i) s) i (phaseFor s.quorum (messages.map Prod.snd)) := by
  refine ⟨reached_foldl hsize hother hi messages hmessages, ?_⟩
  rw [← phaseFor_congr hsame]
  exact reached_foldl hsize hother hi messages' fun env henv => hmessages env ((hsame env).mp henv)

/-- The third of four validators, with an instance to which nothing has come. -/
def waiting : Pbft := (run (plainNode "c") [fourArrive]).put ⟨0, 2⟩ (.new 1)

/-- The `PRE-PREPARE` of the first of four validators. -/
def opening : PbftEnv :=
  signedAs "a"
    { type := .prePrepare
      prePrepare := some { viewNumber := 0, sequence := 2, replicaId := 0, value := "x", valueDigest := "#x" } }

/-- A `PREPARE` for what the first of four validators has proposed. -/
def seconding (a : Address) (replicaId : Int64) : PbftEnv :=
  signedAs a
    { type := .prepare
      prepare := some { viewNumber := 0, sequence := 2, replicaId := replicaId, valueDigest := "#x" } }

theorem concerns_opening : Concerns (plainNode "c") ⟨0, 2⟩ "#x" opening := ⟨rfl, rfl, fun _ => by decide +kernel⟩

theorem concerns_seconding (a : Address) (replicaId : Int64) :
    Concerns (plainNode "c") ⟨0, 2⟩ "#x" (seconding a replicaId) := ⟨rfl, rfl, nofun⟩

theorem same_phase_in_any_order_waiting :
    Reached waiting ([(1, seconding "b" 1), (2, seconding "d" 3), (3, opening)].foldl
        (feed (plainNode "c") ⟨0, 2⟩) waiting) ⟨0, 2⟩ .prepared ∧
      Reached waiting ([(1, opening), (2, seconding "d" 3), (3, seconding "b" 1), (4, seconding "d" 3)].foldl
        (feed (plainNode "c") ⟨0, 2⟩) waiting) ⟨0, 2⟩ .prepared := by
  have hphase : phaseFor waiting.quorum [seconding "b" 1, seconding "d" 3, opening] = .prepared := by decide +kernel
  rw [← hphase]
  refine same_phase_in_any_order (plainNode "c") waiting ⟨0, 2⟩ 1 put_getElem (by decide +kernel)
    (by decide +kernel) "#x" [(1, seconding "b" 1), (2, seconding "d" 3), (3, opening)]
    [(1, opening), (2, seconding "d" 3), (3, seconding "b" 1), (4, seconding "d" 3)] ?_ ?_
  · intro env henv
    simp only [map_cons, map_nil, mem_cons, not_mem_nil, or_false] at henv
    rcases henv with rfl | rfl | rfl
    · exact concerns_seconding "b" 1
    · exact concerns_seconding "d" 3
    · exact concerns_opening
  · intro env
    simp only [map_cons, map_nil, mem_cons, not_mem_nil, or_false]
    tauto

end Pbft
end OpenSesame
