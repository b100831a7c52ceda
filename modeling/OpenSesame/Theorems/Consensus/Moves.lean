import Mathlib.Logic.Relation
import OpenSesame.Theorems.Consensus.Check
import OpenSesame.Utils.SafeInt

/-! # What a replica can do to its state

Everything `OnRecv`, `OnTimer`, `OnTxTimeout` and the timer of a view change do is a sequence of
moves. -/

namespace OpenSesame
open Table PbftInstance Int64
open Protocol
namespace Pbft

/-! ### Shape -/

structure InstanceShape (n : PbftNode) (D : PbftEnv → Prop) (validators : ValidatorMap) (i : PbftInstanceIndex)
    (inst : PbftInstance) : Prop where
  /-- An envelope is in the buffer of its type, in the instance of its view and sequence. -/
  filed : ∀ t, ∀ env ∈ inst.msgBuf t,
    env.pbft.type.buffer = some t ∧ indexOf env.pbft = some i ∧ (env.pbft.type = .commit → D env)
  checked : inst.phase.toNat < 3 → ∀ t, ∀ env ∈ inst.msgBuf t, checkMessageItem n.toKeys validators env = true
  fresh : inst.phase = .none → (∀ id : Int64, inst.prepares[id]? = none) ∧ ∀ id : Int64, inst.commits[id]? = none
  opened : inst.phase ≠ .none → inst.msgBuf 0 ≠ [] ∧ inst.prePrepare.valueDigest = n.crypto inst.prePrepare.value
  prepares : ∀ (id : Int64) prepare, inst.prepares[id]? = some prepare →
    prepare.valueDigest = inst.prePrepare.valueDigest ∧
      ∃ env ∈ inst.msgBuf 1, env.pbft.getPrepare = prepare ∧ prepare.replicaId = id
  prepared : inst.phase.toNat = 2 → getQuorumSize validators.size ≤ inst.prepares.size
  commits : ∀ (id : Int64) commit, inst.commits[id]? = some commit →
    commit.valueDigest = inst.prePrepare.valueDigest ∧ commit.replicaId = id
  backed : inst.phase.toNat < 3 → ∀ (id : Int64) commit, inst.commits[id]? = some commit → ∃ env, D env ∧
    env.pbft.type = .commit ∧ indexOf env.pbft = some i ∧ env.pbft.getCommit = commit ∧
      checkMessageItem n.toKeys validators env = true
  stored : ∀ msg, inst.prePrepareMsg = some msg → msg.pbft.type ≠ .commit

structure VcShape (v : Int64) (vc : PbftVcInstance) : Prop where
  viewNumber : vc.viewNumber = v
  viewChange : ∀ msg, vc.viewChangeMsg = some msg → msg.pbft.type ≠ .commit
  newView : vc.newview.pbft.type ≠ .commit

structure Shape (n : PbftNode) (D : PbftEnv → Prop) (s : Pbft) : Prop where
  started : 1 ≤ s.lastExeSeq
  sized : s.validators.size < 2 ^ 31
  listed : ∃ l, Consensus.validatorMap l = s.validators
  ranked : s.isValidator = true → 0 ≤ s.replicaId
  self : 0 ≤ s.replicaId → s.validators[n.encAddress n.encPublicKey]? = some s.replicaId
  instances : ∀ (i : PbftInstanceIndex) inst, s.instances[i]? = some inst → InstanceShape n D s.validators i inst
  near : ∀ (i : PbftInstanceIndex) inst, s.instances[i]? = some inst → i.sequence.toInt ≤ s.lastExeSeq.toInt + 10
  /-- Only what is prepared is kept when the view changes. -/
  older : ∀ (i : PbftInstanceIndex) inst, s.instances[i]? = some inst → i.viewNumber ≠ s.viewNumber → 2 ≤ inst.phase.toNat
  viewChanges : ∀ (v : Int64) vc, s.vcInstances[v]? = some vc → VcShape v vc

variable {i : PbftInstanceIndex} {inst : PbftInstance} {n : PbftNode}

theorem InstanceShape.mono {D D' : PbftEnv → Prop} {validators : ValidatorMap} (h : InstanceShape n D validators i inst)
    (hD : ∀ env, D env → D' env) : InstanceShape n D' validators i inst where
  filed t env henv := by
    obtain ⟨hbuffer, hindex, hdelivered⟩ := h.filed t env henv
    exact ⟨hbuffer, hindex, fun htype => hD env (hdelivered htype)⟩
  checked := h.checked
  fresh := h.fresh
  opened := h.opened
  prepares := h.prepares
  prepared := h.prepared
  commits := h.commits
  backed hphase id commit hcommit := by
    obtain ⟨env, hdelivered, hrest⟩ := h.backed hphase id commit hcommit
    exact ⟨env, hD env hdelivered, hrest⟩
  stored := h.stored

theorem Shape.mono {D D' : PbftEnv → Prop} {s : Pbft} (h : Shape n D s) (hD : ∀ env, D env → D' env) : Shape n D' s :=
  { h with instances := fun i inst hi => (h.instances i inst hi).mono hD }

/-! ### Moves -/

structure Similar (inst inst' : PbftInstance) : Prop where
  phase : inst'.phase = inst.phase
  prePrepare : inst'.prePrepare = inst.prePrepare
  prepares : inst'.prepares = inst.prepares
  commits : inst'.commits = inst.commits
  msgBuf : inst'.msgBuf = inst.msgBuf
  prePrepareMsg : inst'.prePrepareMsg = inst.prePrepareMsg
  checkValueResult : inst'.checkValueResult = inst.checkValueResult

/-- Which messages may come to an instance, besides what the replica asks for: a commit message that is counted and
not kept in the buffer, and a message that is kept. -/
structure Rules where
  traced : PbftEnv → Prop
  fits : PbftInstance → PbftEnv → Prop

def Rules.any : Rules := ⟨fun _ => True, fun _ _ => True⟩

inductive Advance (n : PbftNode) (D : PbftEnv → Prop) (T : Rules) (s : Pbft) (i : PbftInstanceIndex) :
    PbftInstance → PbftInstance → Prop
  | quiet {inst inst' : PbftInstance} (h : Similar inst inst') : Advance n D T s i inst inst'
  | push {inst : PbftInstance} {t : ℕ} {env : PbftEnv} (hcheck : checkMessageItem n.toKeys s.validators env = true)
      (hbuffer : env.pbft.type.buffer = some t) (hindex : indexOf env.pbft = some i) (hD : D env)
      (hview : i.viewNumber = s.viewNumber) (hfits : T.fits inst env) : Advance n D T s i inst (inst.push t env)
  | prePrepare {inst : PbftInstance} {env : PbftEnv} {ret : CheckValueResult} (hphase : inst.phase = .none)
      (henv : env ∈ inst.msgBuf 0)
      (hdigest : env.pbft.getPrePrepare.valueDigest = n.crypto env.pbft.getPrePrepare.value) :
      Advance n D T s i inst { inst with
          phase := .prePrepared, phaseItem := 0, prePrepare := env.pbft.getPrePrepare, checkValueResult := ret }
  | prepare {inst : PbftInstance} {env : PbftEnv} (hphase : 1 ≤ inst.phase.toNat) (henv : env ∈ inst.msgBuf 1)
      (hdigest : inst.prePrepare.valueDigest = env.pbft.getPrepare.valueDigest) :
      Advance n D T s i inst (inst.addPrepare env.pbft.getPrepare)
  | prepared {inst : PbftInstance} (hphase : inst.phase.toNat = 1) (hquorum : s.quorum ≤ inst.prepares.size) :
      Advance n D T s i inst inst.toPrepared
  | commit {inst : PbftInstance} {env : PbftEnv} (hphase : 2 ≤ inst.phase.toNat) (hD : D env)
      (hcheck : checkMessageItem n.toKeys s.validators env = true) (htype : env.pbft.type = .commit)
      (hindex : indexOf env.pbft = some i) (hplace : env ∈ inst.msgBuf 2 ∨ T.traced env)
      (hdigest : inst.prePrepare.valueDigest = env.pbft.getCommit.valueDigest) :
      Advance n D T s i inst (inst.addCommit env.pbft.getCommit)
  | commited {inst : PbftInstance} {now : Int64} (hphase : inst.phase.toNat = 2)
      (hquorum : s.quorum + 1 ≤ inst.commits.size) :
      Advance n D T s i inst (inst.toCommited now)

inductive Sends (n : PbftNode) (s : Pbft) : PbftEnv → Prop
  | other {env : PbftEnv} (h : env.pbft.type ≠ .commit) : Sends n s env
  | commit {i : PbftInstanceIndex} {inst : PbftInstance} {prepare : PbftPrepare} {round : Int64}
      (hi : s.instances[i]? = some inst) (hphase : 2 ≤ inst.phase.toNat) (hview : prepare.viewNumber = i.viewNumber)
      (hsequence : prepare.sequence = i.sequence)
      (hdigest : prepare.valueDigest = inst.prePrepare.valueDigest) : Sends n s (n.newCommit s prepare round)

structure Side (s t : Pbft) : Prop where
  isValidator : t.isValidator = s.isValidator
  replicaId : t.replicaId = s.replicaId
  validators : t.validators = s.validators
  instances : t.instances = s.instances
  viewNumber : t.viewNumber = s.viewNumber
  lastExeSeq : t.lastExeSeq = s.lastExeSeq
  sent : t.sent = s.sent
  commited : t.commited = s.commited
  viewChanges : (∀ (v : Int64) vc, s.vcInstances[v]? = some vc → VcShape v vc) →
    ∀ (v : Int64) vc, t.vcInstances[v]? = some vc → VcShape v vc

inductive Move (n : PbftNode) (D : PbftEnv → Prop) (T : Rules) : Pbft → Pbft → Prop
  | side {s t : Pbft} (h : Side s t) : Move n D T s t
  | change {s : Pbft} {i : PbftInstanceIndex} {inst inst' : PbftInstance} (hi : s.instances[i]? = some inst)
      (h : Relation.ReflTransGen (Advance n D T s i) inst inst') : Move n D T s (s.put i inst')
  | send {s : Pbft} {env : PbftEnv} (h : Sends n s env) : Move n D T s { s with sent := s.sent ++ [env] }
  | create {s : Pbft} {i : PbftInstanceIndex} {now : Int64} (hview : i.viewNumber = s.viewNumber)
      (hlast : s.lastExeSeq < i.sequence) (hnear : i.sequence ≤ s.lastExeSeq + ckpInterval)
      (hnew : s.instances[i]? = none) : Move n D T s (s.put i (.new now))
  | forget {s : Pbft} {p : PbftInstanceIndex → PbftInstance → Bool}
      (h : ∀ (i : PbftInstanceIndex) inst, s.instances[i]? = some inst → p i inst = false → i.viewNumber < s.viewNumber) :
      Move n D T s (s.keep p)
  | execute {s : Pbft} {i : PbftInstanceIndex} {inst : PbftInstance} (hi : s.instances[i]? = some inst)
      (hphase : inst.phase = .commited) (hlast : s.lastExeSeq < i.sequence) (hnext : i.sequence = s.lastExeSeq + 1) :
      Move n D T s (executeValue i inst s)
  | enter {s : Pbft} {v : Int64} (h : s.viewNumber < v) : Move n D T s (s.enterView v)
  | catchUp {s : Pbft} {i : PbftInstanceIndex} (hlast : s.lastExeSeq < i.sequence)
      (hfar : i.sequence - s.lastExeSeq ≥ ckpInterval) :
      Move n D T s { s with
          viewNumber := i.viewNumber
          lastExeSeq := i.sequence
          instances := s.instances.filter fun j _ => !decide (j.sequence ≤ i.sequence) }

/-! ### The shape is kept -/

variable {env : PbftEnv}

section
variable {n : PbftNode} {D : PbftEnv → Prop} {T : Rules} {validators : ValidatorMap} {s t : Pbft} {i : PbftInstanceIndex}
  {inst inst' : PbftInstance}

theorem InstanceShape.similar (h : InstanceShape n D validators i inst) (hs : Similar inst inst') :
    InstanceShape n D validators i inst' where
  filed := by rw [hs.msgBuf]; exact h.filed
  checked := by rw [hs.phase, hs.msgBuf]; exact h.checked
  fresh := by rw [hs.phase, hs.prepares, hs.commits]; exact h.fresh
  opened := by rw [hs.phase, hs.msgBuf, hs.prePrepare]; exact h.opened
  prepares := by rw [hs.prepares, hs.prePrepare, hs.msgBuf]; exact h.prepares
  prepared := by rw [hs.phase, hs.prepares]; exact h.prepared
  commits := by rw [hs.commits, hs.prePrepare]; exact h.commits
  backed := by rw [hs.phase, hs.commits]; exact h.backed
  stored := by rw [hs.prePrepareMsg]; exact h.stored

theorem mem_push {t t' : ℕ} {env env' : PbftEnv} (h : env' ∈ (inst.push t env).msgBuf t') :
    env' ∈ inst.msgBuf t' ∨ t' = t ∧ env' = env := by
  simp only [push] at h
  by_cases ht : t' = t
  · rw [ht, Function.update_self, List.mem_append, List.mem_singleton] at h
    rw [ht]
    exact h.imp id fun h => ⟨rfl, h⟩
  · rw [Function.update_of_ne ht] at h
    exact .inl h

theorem mem_push_of_mem {t t' : ℕ} {env env' : PbftEnv} (h : env' ∈ inst.msgBuf t') :
    env' ∈ (inst.push t env).msgBuf t' := by
  simp only [push]
  by_cases ht : t' = t
  · rw [ht, Function.update_self]
    exact List.mem_append_left _ (ht ▸ h)
  · rwa [Function.update_of_ne ht]

theorem mem_push_self {t : ℕ} : env ∈ (inst.push t env).msgBuf t := by
  simp [push]

theorem InstanceShape.push {t : ℕ} (h : InstanceShape n D validators i inst)
    (hcheck : checkMessageItem n.toKeys validators env = true) (hbuffer : env.pbft.type.buffer = some t)
    (hindex : indexOf env.pbft = some i) (hD : D env) : InstanceShape n D validators i (inst.push t env) where
  filed t' env' henv' := by
    rcases mem_push henv' with henv' | ⟨rfl, rfl⟩
    · exact h.filed t' env' henv'
    · exact ⟨hbuffer, hindex, fun _ => hD⟩
  checked hphase t' env' henv' := by
    rcases mem_push henv' with henv' | ⟨rfl, rfl⟩
    · exact h.checked hphase t' env' henv'
    · exact hcheck
  fresh := h.fresh
  opened hphase := by
    obtain ⟨hne, hdigest⟩ := h.opened hphase
    obtain ⟨env', henv'⟩ := List.exists_mem_of_ne_nil _ hne
    exact ⟨List.ne_nil_of_mem (mem_push_of_mem henv'), hdigest⟩
  prepares id prepare hid := by
    obtain ⟨hdigest, env', henv', hprepare⟩ := h.prepares id prepare hid
    exact ⟨hdigest, env', mem_push_of_mem henv', hprepare⟩
  prepared := h.prepared
  commits := h.commits
  backed := h.backed
  stored := h.stored

theorem InstanceShape.advance (h : InstanceShape n D s.validators i inst) (ha : Advance n D T s i inst inst') :
    InstanceShape n D s.validators i inst' := by
  cases ha with
  | quiet hs => exact h.similar hs
  | push hcheck hbuffer hindex hD => exact h.push hcheck hbuffer hindex hD
  | prePrepare hphase henv hdigest =>
    obtain ⟨hprepares, hcommits⟩ := h.fresh hphase
    exact { h with
        checked := fun _ => h.checked (by rw [hphase]; decide)
        fresh := nofun
        opened := fun _ => ⟨List.ne_nil_of_mem henv, hdigest⟩
        prepares := fun id prepare hid => absurd ((hprepares id).symm.trans hid) nofun
        prepared := nofun
        commits := fun id commit hid => absurd ((hcommits id).symm.trans hid) nofun
        backed := fun _ => h.backed (by rw [hphase]; decide) }
  | @prepare env hphase henv hdigest =>
    refine { h with
        fresh := fun hnone => ?_
        prepares := fun id prepare hid => ?_
        prepared := fun h2 => (h.prepared h2).trans Std.TreeMap.size_le_size_insertIfNew }
    · rw [show inst.phase = .none from hnone] at hphase
      exact absurd hphase (by decide)
    · rcases insertIfNew_eq_some hid with ⟨rfl, rfl⟩ | hid
      · exact ⟨hdigest.symm, env, henv, rfl, rfl⟩
      · exact h.prepares id prepare hid
  | prepared hphase hquorum =>
    rw [toPrepared, if_pos (by omega)]
    exact { h with
        checked := fun _ => h.checked (by omega)
        fresh := nofun
        opened := fun _ => h.opened fun hnone => by rw [hnone] at hphase; cases hphase
        prepared := fun _ => hquorum
        backed := fun _ => h.backed (by omega) }
  | @commit env hphase hD hcheck htype hindex hplace hdigest =>
    refine { h with
        fresh := fun hnone => ?_
        commits := fun id commit hid => ?_
        backed := fun h3 id commit hid => ?_ }
    · rw [show inst.phase = .none from hnone] at hphase
      exact absurd hphase (by decide)
    · rcases insertIfNew_eq_some hid with ⟨rfl, rfl⟩ | hid
      · exact ⟨hdigest.symm, rfl⟩
      · exact h.commits id commit hid
    · rcases insertIfNew_eq_some hid with ⟨rfl, rfl⟩ | hid
      · exact ⟨env, hD, htype, hindex, rfl, hcheck⟩
      · exact h.backed h3 id commit hid
  | commited hphase hquorum =>
    exact { h with
        checked := fun h3 => absurd h3 (Nat.lt_irrefl 3)
        fresh := nofun
        opened := fun _ => h.opened fun hnone => by rw [hnone] at hphase; cases hphase
        prepared := nofun
        backed := fun h3 => absurd h3 (Nat.lt_irrefl 3) }

theorem Advance.phase_le (ha : Advance n D T s i inst inst') : inst.phase.toNat ≤ inst'.phase.toNat := by
  cases ha with
  | quiet hs => rw [hs.phase]
  | push => exact le_rfl
  | prePrepare hphase => rw [hphase]; exact Nat.zero_le _
  | prepare => exact le_rfl
  | prepared hphase =>
    rw [toPrepared, if_pos (by omega)]
    exact hphase.le.trans (Nat.le_succ 1)
  | commit => exact le_rfl
  | commited hphase => exact hphase.le.trans (Nat.le_succ 2)

theorem InstanceShape.advances (h : InstanceShape n D s.validators i inst)
    (ha : Relation.ReflTransGen (Advance n D T s i) inst inst') :
    InstanceShape n D s.validators i inst' ∧ inst.phase.toNat ≤ inst'.phase.toNat := by
  induction ha with
  | refl => exact ⟨h, le_rfl⟩
  | tail _ ha ih => exact ⟨ih.1.advance ha, ih.2.trans ha.phase_le⟩

theorem InstanceShape.new {now : Int64} : InstanceShape n D validators i (.new now) where
  filed := nofun
  checked := nofun
  fresh _ := ⟨fun _ => rfl, fun _ => rfl⟩
  opened h := absurd rfl h
  prepares := nofun
  prepared := nofun
  commits := nofun
  backed := nofun
  stored := nofun

variable {last seq : Int64}

theorem near_of_le (hlt : last < seq) (hle : seq ≤ last + ckpInterval) : seq.toInt ≤ last.toInt + 10 := by
  rw [lt_iff_toInt_lt] at hlt
  rw [le_iff_toInt_le, toInt_add] at hle
  have h10 : ckpInterval.toInt = 10 := rfl
  rw [h10] at hle
  have := last.toInt_lt
  have := last.le_toInt
  rcases SafeInt.bmod_cases (z := last.toInt + 10) (by omega) (by omega) with h | ⟨hlow, h⟩ | ⟨hhigh, h⟩ <;> omega

theorem toInt_succ (hlt : last < seq) (hnext : seq = last + 1) : seq.toInt = last.toInt + 1 := by
  rw [hnext, SafeInt.toInt_add_one]
  intro hmax
  rw [hmax] at hlt
  exact (Int64.not_lt.mpr (le_maxValue seq)) hlt

theorem far_of_le (hstarted : 1 ≤ last) (hlt : last < seq) (hfar : seq - last ≥ ckpInterval) :
    last.toInt + 10 ≤ seq.toInt := by
  rw [lt_iff_toInt_lt] at hlt
  rw [ge_iff_le, le_iff_toInt_le, toInt_sub] at hfar
  rw [le_iff_toInt_le] at hstarted
  have h10 : ckpInterval.toInt = 10 := rfl
  have h1 : (1 : Int64).toInt = 1 := rfl
  rw [h10] at hfar
  rw [h1] at hstarted
  have := seq.toInt_lt
  rcases SafeInt.bmod_cases (z := seq.toInt - last.toInt) (by omega) (by omega) with
    h | ⟨hlow, h⟩ | ⟨hhigh, h⟩ <;> omega
end

section
variable {n : PbftNode} {D : PbftEnv → Prop} {T : Rules} {s t : Pbft}

variable (h : Shape n D s)
include h

theorem Shape.put
    (hinst : InstanceShape n D s.validators i inst) (hnear : i.sequence.toInt ≤ s.lastExeSeq.toInt + 10)
    (holder : i.viewNumber ≠ s.viewNumber → 2 ≤ inst.phase.toNat) : Shape n D (s.put i inst) where
  started := h.started
  sized := h.sized
  listed := h.listed
  ranked := h.ranked
  self := h.self
  instances j inst' hj := by
    rcases insert_eq_some hj with ⟨rfl, rfl⟩ | ⟨-, hj⟩
    · exact hinst
    · exact h.instances j inst' hj
  near j inst' hj := by
    rcases insert_eq_some hj with ⟨rfl, rfl⟩ | ⟨-, hj⟩
    · exact hnear
    · exact h.near j inst' hj
  older j inst' hj := by
    rcases insert_eq_some hj with ⟨rfl, rfl⟩ | ⟨-, hj⟩
    · exact holder
    · exact h.older j inst' hj
  viewChanges := h.viewChanges

theorem Shape.keep {p : PbftInstanceIndex → PbftInstance → Bool} : Shape n D (s.keep p) where
  started := h.started
  sized := h.sized
  listed := h.listed
  ranked := h.ranked
  self := h.self
  instances i inst hi := h.instances i inst (filter_eq_some.mp hi).1
  near i inst hi := h.near i inst (filter_eq_some.mp hi).1
  older i inst hi := h.older i inst (filter_eq_some.mp hi).1
  viewChanges := h.viewChanges

theorem Shape.side (hst : Side s t) : Shape n D t where
  started := by rw [hst.lastExeSeq]; exact h.started
  sized := by rw [hst.validators]; exact h.sized
  listed := by rw [hst.validators]; exact h.listed
  ranked := by rw [hst.isValidator, hst.replicaId]; exact h.ranked
  self := by rw [hst.replicaId, hst.validators]; exact h.self
  instances := by rw [hst.instances, hst.validators]; exact h.instances
  near := by rw [hst.instances, hst.lastExeSeq]; exact h.near
  older := by rw [hst.instances, hst.viewNumber]; exact h.older
  viewChanges := hst.viewChanges h.viewChanges

omit h in
theorem survives_prepared (h : s.survives i inst = true) : 2 ≤ inst.phase.toNat := by
  simp only [survives, Bool.or_eq_true, beq_iff_eq, Bool.and_eq_true] at h
  rcases h with h | ⟨h, -⟩ <;> rw [h] <;> decide

theorem Shape.none_after_catchUp (hlast : s.lastExeSeq < i.sequence)
    (hfar : i.sequence - s.lastExeSeq ≥ ckpInterval) (j : PbftInstanceIndex) (inst : PbftInstance) :
    (s.instances.filter fun j _ => !decide (j.sequence ≤ i.sequence))[j]? ≠ some inst := by
  intro hj
  obtain ⟨hj, hp⟩ := filter_eq_some.mp hj
  have hseq := far_of_le h.started hlast hfar
  have hnear := h.near j inst hj
  simp only [Bool.not_eq_true', decide_eq_false_iff_not, le_iff_toInt_le] at hp
  omega

theorem Shape.send : Shape n D { s with sent := s.sent ++ [env] } := { h with }

theorem Shape.execute
    (hlast : s.lastExeSeq < i.sequence) (hnext : i.sequence = s.lastExeSeq + 1) :
    Shape n D (executeValue i inst s) := by
  have hseq : i.sequence.toInt = s.lastExeSeq.toInt + 1 := toInt_succ hlast hnext
  have hlast' : (executeValue i inst s).lastExeSeq = i.sequence := hnext.symm
  have hsub : ∀ (j : PbftInstanceIndex) inst', (executeValue i inst s).instances[j]? = some inst' →
      s.instances[j]? = some inst' := fun j inst' hj => (filter_eq_some.mp hj).1
  exact
    { sized := h.sized
      listed := h.listed
      ranked := h.ranked
      self := h.self
      viewChanges := h.viewChanges
      started := hlast' ▸ Int64.le_trans h.started (Int64.le_of_lt hlast)
      instances := fun j inst' hj => h.instances j inst' (hsub j inst' hj)
      near := fun j inst' hj => by
        have hj' := h.near j inst' (hsub j inst' hj)
        rw [hlast']
        omega
      older := fun j inst' hj => h.older j inst' (hsub j inst' hj) }

theorem Shape.enter {v : Int64} : Shape n D (s.enterView v) :=
  { h.keep with
    older := fun _ _ hi _ => survives_prepared (filter_eq_some.mp hi).2 }

theorem Shape.catchUp (hlast : s.lastExeSeq < i.sequence)
    (hfar : i.sequence - s.lastExeSeq ≥ ckpInterval) :
    Shape n D
      { s with
        viewNumber := i.viewNumber
        lastExeSeq := i.sequence
        instances := s.instances.filter fun j _ => !decide (j.sequence ≤ i.sequence) } := by
  have hnone := h.none_after_catchUp hlast hfar
  exact
    { sized := h.sized
      listed := h.listed
      ranked := h.ranked
      self := h.self
      viewChanges := h.viewChanges
      started := Int64.le_trans h.started (Int64.le_of_lt hlast)
      instances := fun j inst' hj => absurd hj (hnone j inst')
      near := fun j inst' hj => absurd hj (hnone j inst')
      older := fun j inst' hj => absurd hj (hnone j inst') }

theorem Shape.create {now : Int64} (hview : i.viewNumber = s.viewNumber)
    (hlast : s.lastExeSeq < i.sequence) (hnear : i.sequence ≤ s.lastExeSeq + ckpInterval) :
    Shape n D (s.put i (.new now)) :=
  h.put .new (near_of_le hlast hnear) fun hne => absurd hview hne

theorem Shape.move (hst : Move n D T s t) : Shape n D t := by
  cases hst with
  | side hst => exact h.side hst
  | change hi ha =>
    obtain ⟨hinst, hphase⟩ := (h.instances _ _ hi).advances ha
    exact h.put hinst (h.near _ _ hi) fun hview => (h.older _ _ hi hview).trans hphase
  | send => exact h.send
  | create hview hlast hnear => exact h.create hview hlast hnear
  | forget => exact h.keep
  | execute _ _ hlast hnext => exact h.execute hlast hnext
  | enter => exact h.enter
  | catchUp hlast hfar => exact h.catchUp hlast hfar

end

structure Keeps (n : PbftNode) (D : PbftEnv → Prop) (T : Rules) (I : Pbft → Prop) : Prop where
  shape : ∀ s, I s → Shape n D s
  move : ∀ s t, I s → Move n D T s t → I t

theorem Keeps.of_shape {D : PbftEnv → Prop} : Keeps n D .any (Shape n D) where
  shape _ h := h
  move _ _ h hst := h.move hst

end Pbft
end OpenSesame
