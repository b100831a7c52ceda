import OpenSesame.Theorems.Consensus.Execution

/-! # What a replica votes for

A replica votes in the instances whose value it has found valid. -/

namespace OpenSesame
open Pbft
open Protocol
namespace Pbft

structure SameVote (inst inst' : PbftInstance) : Prop where
  unopened : inst'.phase = .none ↔ inst.phase = .none
  prePrepare : inst.phase ≠ .none → inst'.prePrepare = inst.prePrepare
  checkValueResult : inst.phase ≠ .none → inst'.checkValueResult = inst.checkValueResult

def LookedAt (inst : PbftInstance) : Prop := inst.phase = .none → (inst.msgBuf 0).length ≤ inst.phaseItem

/-- An invariant of all a replica does with its instances and votes. `A` is what is known of a message and the answer
of `CheckValue` when it opens an instance. -/
structure Ballot (n : PbftNode) (A : Pbft → PbftInstanceIndex → PbftPrePrepare → CheckValueResult → Prop)
    (I : Pbft → Prop) : Prop where
  erase : ∀ {s t : Pbft}, I s →
    (∀ (i : PbftInstanceIndex) inst, t.instances[i]? = some inst → s.instances[i]? = some inst) → t.sent = s.sent →
    s.lastExeSeq ≤ t.lastExeSeq → (s.viewNumber ≤ t.viewNumber ∨ ∀ i : PbftInstanceIndex, t.instances[i]? = none) → I t
  change : ∀ {s : Pbft} {i : PbftInstanceIndex} {inst inst' : PbftInstance}, I s → s.instances[i]? = some inst →
    SameVote inst inst' → I (s.put i inst')
  accept : ∀ {s : Pbft} {i : PbftInstanceIndex} {inst : PbftInstance} {p : PbftPrePrepare} {ret : CheckValueResult},
    I s → s.instances[i]? = some inst → inst.phase = .none → A s i p ret →
    I (s.put i { inst with phase := .prePrepared, phaseItem := 0, prePrepare := p, checkValueResult := ret })
  create : ∀ {s : Pbft} {i : PbftInstanceIndex} {now : Int64}, I s → i.viewNumber = s.viewNumber →
    s.lastExeSeq < i.sequence → s.instances[i]? = none → I (s.createInstance now i)
  send : ∀ {s : Pbft} {env : PbftEnv}, I s → env.pbft.type ≠ .commit → I { s with sent := s.sent ++ [env] }
  vote : ∀ {s t : Pbft} {i : PbftInstanceIndex} {inst : PbftInstance} {prepare : PbftPrepare} {round : Int64}, I s →
    s.instances[i]? = some inst → inst.phase ≠ .none → inst.checkValueResult = .valid →
    prepare.sequence = i.sequence → prepare.valueDigest = inst.prePrepare.valueDigest →
    I { s with sent := s.sent ++ [n.newCommit t prepare round] }

structure Settled (I : Pbft → Prop) (s : Pbft) : Prop where
  holds : I s
  looked : ∀ (i : PbftInstanceIndex) inst, s.instances[i]? = some inst → LookedAt inst

namespace Settled
variable {n : PbftNode} {A : Pbft → PbftInstanceIndex → PbftPrePrepare → CheckValueResult → Prop} {I : Pbft → Prop}
  {D : PbftEnv → Prop} {s t : Pbft} {i : PbftInstanceIndex} {inst inst' : PbftInstance} {env : PbftEnv} {now : Int64}

variable (B : Ballot n A I)
include B

theorem erase (h : Settled I s)
    (hsub : ∀ (i : PbftInstanceIndex) inst, t.instances[i]? = some inst → s.instances[i]? = some inst)
    (hsent : t.sent = s.sent) (hlast : s.lastExeSeq ≤ t.lastExeSeq)
    (hview : s.viewNumber ≤ t.viewNumber ∨ ∀ i : PbftInstanceIndex, t.instances[i]? = none) : Settled I t :=
  ⟨B.erase h.holds hsub hsent hlast hview, fun i inst hi => h.looked i inst (hsub i inst hi)⟩

theorem side (h : Settled I s) (hinstances : t.instances = s.instances) (hsent : t.sent = s.sent)
    (hlast : t.lastExeSeq = s.lastExeSeq) (hview : t.viewNumber = s.viewNumber) : Settled I t :=
  h.erase B (fun _ _ hi => hinstances ▸ hi) hsent (hlast ▸ Int64.le_refl _) (.inl (hview ▸ Int64.le_refl _))

omit B in
theorem looked_put (h : Settled I s) (hinst : LookedAt inst') (j : PbftInstanceIndex) (instj : PbftInstance)
    (hj : (s.put i inst').instances[j]? = some instj) : LookedAt instj := by
  rcases Table.insert_eq_some hj with ⟨-, rfl⟩ | ⟨-, hj⟩
  · exact hinst
  · exact h.looked j instj hj

theorem change (h : Settled I s) (hi : s.instances[i]? = some inst) (hsame : SameVote inst inst')
    (hinst : LookedAt inst') : Settled I (s.put i inst') :=
  ⟨B.change h.holds hi hsame, h.looked_put hinst⟩

theorem advance (h : Settled I s) (hi : s.instances[i]? = some inst) (hphase : inst.phase ≠ .none)
    (hphase' : inst'.phase ≠ .none) (hprePrepare : inst'.prePrepare = inst.prePrepare)
    (hresult : inst'.checkValueResult = inst.checkValueResult) : Settled I (s.put i inst') :=
  h.change B hi ⟨iff_of_false hphase' hphase, fun _ => hprePrepare, fun _ => hresult⟩ fun hnone => absurd hnone hphase'

theorem send (h : Settled I s) (htype : env.pbft.type ≠ .commit) : Settled I (s.sendMessage env) := by
  unfold sendMessage
  split
  · exact ⟨B.send h.holds htype, h.looked⟩
  · exact h

theorem vote {prepare : PbftPrepare} {round : Int64} (h : Settled I s)
    (hi : s.instances[i]? = some inst) (hphase : inst.phase ≠ .none) (hvalid : inst.checkValueResult = .valid)
    (hsequence : prepare.sequence = i.sequence) (hdigest : prepare.valueDigest = inst.prePrepare.valueDigest) :
    Settled I (s.sendMessage (n.newCommit t prepare round)) := by
  unfold sendMessage
  split
  · exact ⟨B.vote h.holds hi hphase hvalid hsequence hdigest, h.looked⟩
  · exact h

/-! ### The three phases -/

theorem executeValues {l : List (PbftInstanceIndex × PbftInstance)} (h : Settled I s) :
    Settled I (executeValues l s) := by
  induction l generalizing s with
  | nil => exact h
  | cons p l ih =>
    obtain ⟨i, inst⟩ := p
    simp only [executeValues]
    split_ifs with hle hnext
    · exact ih h
    · refine ih (h.erase B (fun j instj hj => (Table.filter_eq_some.mp hj).1) rfl ?_ (.inl (Int64.le_refl _)))
      change s.lastExeSeq ≤ s.lastExeSeq + 1
      rw [← hnext.1]
      exact Int64.le_of_lt (Int64.not_le.mp hle)
    · exact h

variable {pbft : Protocol.Pbft}

theorem onCommit (h : Settled I s) (hi : s.instances[i]? = some inst)
    (hphase : inst.phase ≠ .none) : Settled I (Pbft.onCommit now pbft i inst s).1 := by
  simp only [Pbft.onCommit]
  split_ifs with hdigest hknown hquorum
  · exact h
  · exact h
  · exact executeValues B (h.advance B hi hphase (by rintro ⟨⟩) rfl rfl)
  · exact h.advance B hi hphase hphase rfl rfl

omit B in
theorem toPrepared_vote (inst : PbftInstance) (hphase : inst.phase ≠ .none) :
    inst.toPrepared.phase ≠ .none ∧ inst.toPrepared.prePrepare = inst.prePrepare ∧
      inst.toPrepared.checkValueResult = inst.checkValueResult := by
  unfold PbftInstance.toPrepared
  split
  · exact ⟨nofun, rfl, rfl⟩
  · exact ⟨hphase, rfl, rfl⟩

theorem onPrepare (h : Settled I s) (hi : s.instances[i]? = some inst)
    (hphase : inst.phase ≠ .none) (hsequence : env.pbft.getPrepare.sequence = i.sequence) :
    Settled I (Pbft.onPrepare n now env.pbft i inst s).1 := by
  obtain ⟨hphase', hprePrepare, hresult⟩ := toPrepared_vote (inst.addPrepare env.pbft.getPrepare) hphase
  simp only [Pbft.onPrepare]
  split_ifs with hdigest hquorum hvalid
  · exact h
  · have hput : Settled I
        (s.put i { (inst.addPrepare env.pbft.getPrepare).toPrepared with lastCommitSendTime := now }) :=
      h.advance B hi hphase hphase' hprePrepare hresult
    refine hput.vote B Std.TreeMap.getElem?_insert_self hphase' hvalid hsequence ?_
    change _ = (inst.addPrepare env.pbft.getPrepare).toPrepared.prePrepare.valueDigest
    rw [hprePrepare]
    exact (not_not.mp hdigest).symm
  · exact h.advance B hi hphase hphase' hprePrepare hresult
  · exact h.advance B hi hphase hphase rfl rfl

variable {ret : CheckValueResult}

theorem onPrePrepare (h : Settled I s)
    (hphase : inst.phase ≠ .none) : Settled I (Pbft.onPrePrepare n pbft i inst ret s).1 := by
  simp only [Pbft.onPrePrepare]
  split_ifs
  · exact h
  · exact h
  · exact h
  · exact h
  · exact h
  · exact h.send B (by rintro ⟨⟩)

theorem onMessage {t : ℕ} (h : Settled I s)
    (hi : s.instances[i]? = some inst) (hphase : inst.phase ≠ .none) (hinst : InstanceShape n D s.validators i inst)
    (henv : env ∈ inst.msgBuf t) : Settled I (Pbft.onMessage n now env.pbft i inst ret s).1 := by
  obtain ⟨hbuffer, -⟩ := hinst.filed t env henv
  unfold Pbft.onMessage
  split
  · exact h.onPrePrepare B hphase
  · rename_i htype
    obtain rfl : 1 = t := by simpa [htype, PbftMessageType.buffer] using hbuffer
    exact h.onPrepare B hi hphase (Keeps.index_of_prepare hinst henv).2
  · exact h.onCommit B hi hphase
  · exact h

theorem goLoop {rounds : ℕ} {doret : Bool} (hshape : Shape n D s)
    (h : Settled I s) : Settled I (goLoop n now i ret rounds s doret).1 := by
  induction rounds generalizing s doret with
  | zero => exact h
  | succ rounds ih =>
    simp only [goLoop]
    split
    · exact h
    rename_i inst hi
    split
    · exact h
    rename_i env henv
    have hmem := List.mem_of_getElem? henv
    have hinst := hshape.instances i inst hi
    have hphase : inst.phase ≠ .none := by
      intro hnone
      have hlooked := h.looked i inst hi hnone
      rw [hnone] at henv
      cases (List.getElem?_eq_none hlooked).symm.trans henv
    have hquiet : Similar inst { inst with phaseItem := inst.phaseItem + 1 } := ⟨rfl, rfl, rfl, rfl, rfl, rfl, rfl⟩
    have hnext : Shape n D (s.put i { inst with phaseItem := inst.phaseItem + 1 }) :=
      Keeps.of_shape.put hshape hi (.quiet hquiet)
    have hcheck := hinst.checked (Keeps.buffer_lt (hinst.filed _ env hmem).1) _ env hmem
    refine ih (Keeps.of_shape.onMessage hnext Std.TreeMap.getElem?_insert_self hcheck ?_ (le_refl inst.phase.toNat)) ?_
    · exact hmem
    · have hput : Settled I (s.put i { inst with phaseItem := inst.phaseItem + 1 }) :=
        h.advance B hi hphase hphase rfl rfl
      exact hput.onMessage B Std.TreeMap.getElem?_insert_self hphase (hinst.similar hquiet) hmem

theorem onPrePrepare_opens (h : Settled I s)
    (hi : s.instances[i]? = some inst) (hnone : inst.phase = .none)
    (hA : pbft.getPrePrepare.valueDigest = n.crypto pbft.getPrePrepare.value → A s i pbft.getPrePrepare ret) :
    Settled I (Pbft.onPrePrepare n pbft i inst ret s).1 := by
  simp only [Pbft.onPrePrepare]
  split_ifs with hprimary hdigest hret hphase hvalue hvalid
  · exact h
  · exact h
  · exact h
  · exact absurd hnone hphase
  · exact absurd hnone hphase
  · exact absurd hnone hphase
  · exact ⟨B.accept h.holds hi hnone (hA (not_not.mp hdigest)), h.looked_put (by rintro ⟨⟩)⟩
  · have hopened : Settled I (s.put i { inst with
        phase := .prePrepared, phaseItem := 0, prePrepare := pbft.getPrePrepare, checkValueResult := ret }) :=
      ⟨B.accept h.holds hi hnone (hA (not_not.mp hdigest)), h.looked_put (by rintro ⟨⟩)⟩
    exact hopened.send B (by rintro ⟨⟩)

theorem goLoop_prePrepare {rounds : ℕ} (h : Settled I s)
    (hi : s.instances[i]? = some inst) (hnone : inst.phase = .none) (htype : env.pbft.type = .prePrepare)
    (hpushed : Shape n D (s.put i (inst.push 0 env)))
    (hA : env.pbft.getPrePrepare.valueDigest = n.crypto env.pbft.getPrePrepare.value →
      ∀ t, t.sent = s.sent → A t i env.pbft.getPrePrepare ret) :
    Settled I (Pbft.goLoop n now i ret (rounds + 1) (s.put i (inst.push 0 env)) false).1 := by
  have hpushedI : I (s.put i (inst.push 0 env)) := B.change h.holds hi ⟨Iff.rfl, fun _ => rfl, fun _ => rfl⟩
  have hget : (s.put i (inst.push 0 env)).instances[i]? = some (inst.push 0 env) := Std.TreeMap.getElem?_insert_self
  have hbuf : (inst.push 0 env).msgBuf 0 = inst.msgBuf 0 ++ [env] := by simp [PbftInstance.push]
  have hlooked := h.looked i inst hi hnone
  have hphase : ((inst.push 0 env).msgBuf (inst.push 0 env).phase.toNat) = inst.msgBuf 0 ++ [env] := by
    change (inst.push 0 env).msgBuf inst.phase.toNat = _
    rw [hnone]
    exact hbuf
  simp only [Pbft.goLoop, hget, hphase]
  split
  · -- it is never looked at
    rename_i hend
    refine ⟨hpushedI, h.looked_put fun _ => ?_⟩
    rw [hbuf]
    exact List.getElem?_eq_none_iff.mp hend
  · rename_i env' henv'
    have hitem : inst.phaseItem = (inst.msgBuf 0).length := by
      have hlt := (List.getElem?_eq_some_iff.mp henv').1
      rw [List.length_append, List.length_singleton] at hlt
      exact Nat.le_antisymm (Nat.le_of_lt_succ hlt) hlooked
    have hlast : (inst.msgBuf 0 ++ [env])[(inst.push 0 env).phaseItem]? = some env := by
      change (inst.msgBuf 0 ++ [env])[inst.phaseItem]? = some env
      rw [hitem, List.getElem?_append_right (Nat.le_refl _), Nat.sub_self]
      rfl
    obtain rfl : env = env' := Option.some.inj (hlast.symm.trans henv')
    have hquiet : Similar (inst.push 0 env) { inst.push 0 env with phaseItem := (inst.push 0 env).phaseItem + 1 } :=
      ⟨rfl, rfl, rfl, rfl, rfl, rfl, rfl⟩
    have hnext := Keeps.of_shape.put hpushed hget (.quiet hquiet)
    have hinst := hpushed.instances i _ hget
    have hmem : env ∈ (inst.push 0 env).msgBuf 0 := mem_push_self
    have hcheck := hinst.checked (by change inst.phase.toNat < 3; rw [hnone]; decide) 0 env hmem
    have hthen : Settled I ((s.put i (inst.push 0 env)).put i
        { inst.push 0 env with phaseItem := (inst.push 0 env).phaseItem + 1 }) := by
      refine ⟨B.change hpushedI hget ⟨Iff.rfl, fun _ => rfl, fun _ => rfl⟩, fun j instj hj => ?_⟩
      rcases Table.insert_eq_some hj with ⟨-, rfl⟩ | ⟨hne, hj⟩
      · intro _
        rw [hbuf, List.length_append]
        exact Nat.succ_le_succ hitem.ge
      · rw [Pbft.put, Table.insert_of_ne hne] at hj
        exact h.looked j instj hj
    refine goLoop B (Keeps.of_shape.onMessage hnext Std.TreeMap.getElem?_insert_self hcheck hmem (Nat.zero_le _)) ?_
    unfold Pbft.onMessage
    rw [htype]
    exact hthen.onPrePrepare_opens B Std.TreeMap.getElem?_insert_self hnone fun hdigest => hA hdigest _ rfl

/-! ### New instances and catching up -/

theorem tryDoTraceOut (hshape : Shape n D s) (h : Settled I s) (hlast : s.lastExeSeq < i.sequence) :
    Settled I (Pbft.tryDoTraceOut i inst s) := by
  unfold Pbft.tryDoTraceOut
  split_ifs with hfar
  · have hnone := hshape.none_after_catchUp hlast hfar.2
    refine h.erase B (fun j instj hj => absurd hj (hnone j instj)) rfl (Int64.le_of_lt hlast) (.inr fun j => ?_)
    rw [Option.eq_none_iff_forall_ne_some]
    exact hnone j
  · exact h

theorem traceOutPbftCommit (hshape : Shape n D s) (h : Settled I s)
    (hindex : (⟨env.pbft.getCommit.viewNumber, env.pbft.getCommit.sequence⟩ : PbftInstanceIndex) = i)
    (hlast : s.lastExeSeq < i.sequence) (hview : ∀ inst, s.instances[i]? = some inst → i.viewNumber ≠ s.viewNumber) :
    Settled I (traceOutPbftCommit now env s).1 := by
  subst hindex
  unfold traceOutPbftCommit
  dsimp only
  split
  · rename_i inst hi
    refine h.onCommit B hi fun hnone => ?_
    have hphase := hshape.older _ inst hi (hview inst hi)
    rw [hnone] at hphase
    exact absurd hphase (by decide)
  · split_ifs
    · exact h
    · have hside : ∀ out, Shape n D { s with outPbftInstances := out } := fun out =>
        hshape.side ⟨rfl, rfl, rfl, rfl, rfl, rfl, rfl, rfl, id⟩
      exact tryDoTraceOut B (hside _) (h.side B rfl rfl rfl rfl) hlast

theorem createInstance (now : Int64) (h : Settled I s) (hview : i.viewNumber = s.viewNumber)
    (hlast : s.lastExeSeq < i.sequence) :
    Settled I (s.createInstance now i) ∧ (s.createInstance now i).sent = s.sent := by
  by_cases hold : s.instances.contains i
  · rw [Pbft.createInstance, if_pos hold]
    exact ⟨h, rfl⟩
  · have hnew : s.instances[i]? = none := by
      rw [Option.eq_none_iff_forall_ne_some]
      exact fun inst hi => hold (Table.contains_iff.mpr ⟨inst, hi⟩)
    refine ⟨⟨B.create h.holds hview hlast hnew, fun j instj hj => ?_⟩, ?_⟩
    · rw [Pbft.createInstance, if_neg hold] at hj
      exact h.looked_put (fun _ => Nat.zero_le _) j instj (Table.filter_eq_some.mp hj).1
    · rw [Pbft.createInstance, if_neg hold]
      rfl

theorem push {t : ℕ} (h : Settled I s) (hi : s.instances[i]? = some inst)
    (ht : t ≠ 0 ∨ inst.phase ≠ .none) : Settled I (s.put i (inst.push t env)) := by
  refine h.change B hi ⟨Iff.rfl, fun _ => rfl, fun _ => rfl⟩ fun hnone => ?_
  rcases ht with ht | ht
  · have hbuf : (inst.push t env).msgBuf 0 = inst.msgBuf 0 := Function.update_of_ne (Ne.symm ht) _ _
    rw [hbuf]
    exact h.looked i inst hi hnone
  · exact absurd hnone ht

theorem go {t : ℕ} (hshape : Shape n D s) (h : Settled I s)
    (hi : s.instances[i]? = some inst) (hbuffer : env.pbft.type.buffer = some t) (henv : env ∈ inst.msgBuf t) :
    Settled I (Pbft.go n now env i ret s).1 := by
  simp only [Pbft.go, hi, hbuffer, Option.getD_some]
  split
  · rename_i hlt
    refine h.onMessage B hi (fun hnone => ?_) (hshape.instances i inst hi) henv
    rw [hnone] at hlt
    exact absurd hlt (Nat.not_lt_zero t)
  · exact goLoop B hshape h

theorem go_prePrepare (h : Settled I s)
    (hi : s.instances[i]? = some inst) (hnone : inst.phase = .none) (htype : env.pbft.type = .prePrepare)
    (hpushed : Shape n D (s.put i (inst.push 0 env)))
    (hA : env.pbft.getPrePrepare.valueDigest = n.crypto env.pbft.getPrePrepare.value →
      ∀ t, t.sent = s.sent → A t i env.pbft.getPrePrepare ret) :
    Settled I (Pbft.go n now env i ret (s.put i (inst.push 0 env))).1 := by
  have hget : (s.put i (inst.push 0 env)).instances[i]? = some (inst.push 0 env) := Std.TreeMap.getElem?_insert_self
  have hphase : ¬env.pbft.type.buffer.getD 0 < (inst.push 0 env).phase.toNat := by
    change ¬_ < inst.phase.toNat
    rw [hnone]
    exact Nat.not_lt_zero _
  obtain ⟨rounds, hrounds⟩ : ∃ rounds, ((inst.push 0 env).msgBuf 0).length + ((inst.push 0 env).msgBuf 1).length +
      ((inst.push 0 env).msgBuf 2).length = rounds + 1 := by
    refine Nat.exists_eq_succ_of_ne_zero ?_
    have hmem : env ∈ (inst.push 0 env).msgBuf 0 := mem_push_self
    have := List.length_pos_of_mem hmem
    omega
  simp only [Pbft.go, hget, if_neg hphase, hrounds]
  exact goLoop_prePrepare B h hi hnone htype hpushed hA

theorem recvPhases (hshape : Shape n D s) (h : Settled I s)
    (hroomy : Roomy s) (hD : D env) (hcheck : checkMessageItem n.toKeys s.validators env = true)
    (hA : env.pbft.type = .prePrepare → env.pbft.getPrePrepare.valueDigest = n.crypto env.pbft.getPrePrepare.value →
      ∀ i, indexOf env.pbft = some i → ∀ t, t.sent = s.sent → A t i env.pbft.getPrePrepare ret) :
    Settled I (match s.createInstanceIfNotExist now env with
      | (s, some i) => Pbft.go n now env i ret s
      | (s, none) => (s, false)).1 := by
  have hcreated := Keeps.of_shape.createInstanceIfNotExist now hshape hroomy hD Keeps.allowed_any hcheck
  revert hcreated
  unfold Pbft.createInstanceIfNotExist
  cases hindex : indexOf env.pbft with
  | none => exact fun _ => h
  | some i =>
    dsimp only
    split_ifs with hout hcommit hactive hpassed
    · -- a commit message from another view, or from far ahead
      intro _
      refine traceOutPbftCommit B hshape h (commit_index hcommit.2 hindex).symm hcommit.1 fun inst hi hview => ?_
      have hwater := Keeps.inWaterMark_of_near hroomy hcommit.1 (hshape.near i inst hi)
      simp [hwater, hview] at hout
    · exact fun _ => h
    · exact fun _ => h
    · exact fun _ => h
    · simp only [Bool.or_eq_true, Bool.not_eq_true', bne_iff_ne, ne_eq, not_or, Bool.not_eq_false,
        Decidable.not_not] at hout
      obtain ⟨hmade, hsent⟩ := createInstance B now h hout.2.symm (Int64.not_le.mp hpassed)
      obtain ⟨t, hbuffer⟩ := Keeps.buffer_of_indexOf hindex
      simp only [hbuffer, Option.getD_some]
      cases hi : (s.createInstance now i).instances[i]? with
      | none => exact fun _ => hmade
      | some inst =>
        rintro ⟨hpushed, -⟩
        by_cases ht : t ≠ 0 ∨ inst.phase ≠ .none
        · exact go B hpushed (hmade.push B hi ht) Std.TreeMap.getElem?_insert_self hbuffer mem_push_self
        · obtain ⟨rfl, hnone⟩ : t = 0 ∧ inst.phase = .none := by
            exact ⟨not_not.mp fun h => ht (.inl h), not_not.mp fun h => ht (.inr h)⟩
          have htype : env.pbft.type = .prePrepare := by
            revert hbuffer
            cases env.pbft.type <;> simp [PbftMessageType.buffer]
          refine go_prePrepare B hmade hi hnone htype hpushed fun hdigest t ht => ?_
          exact hA htype hdigest i hindex t (ht.trans hsent)

/-! ### The entry points -/

theorem rests : Rests n D True fun s => Shape n D s ∧ Settled I s where
  shape _ _ h := h.1
  rest s t h hst := by
    refine ⟨Keeps.of_shape.rests.rest s t h.1 hst, ?_⟩
    obtain ⟨-, h⟩ := h
    cases hst with
    | side hst _ => exact h.side B hst.instances hst.sent hst.lastExeSeq hst.viewNumber
    | send htype => exact ⟨B.send h.holds (htype trivial), h.looked⟩
    | vote hi hphase hvalid hprepare =>
      obtain ⟨-, hsequence, hdigest⟩ := hprepare trivial
      refine ⟨B.vote h.holds hi (fun hnone => ?_) hvalid hsequence hdigest, h.looked⟩
      rw [hnone] at hphase
      exact absurd hphase (by decide)
    | note hi hs hitem =>
      refine h.change B hi ⟨by rw [hs.phase], fun _ => hs.prePrepare, fun _ => hs.checkValueResult⟩ fun hnone => ?_
      rw [hs.msgBuf, hitem]
      exact h.looked _ _ hi (hs.phase ▸ hnone)
    | enter hv =>
      exact h.erase B (fun _ _ hi => (Table.filter_eq_some.mp hi).1) rfl (Int64.le_refl _)
        (.inl (Int64.le_of_lt (hv trivial)))

theorem onRecv {checkValue : CheckValueResult} (hshape : Shape n D s) (h : Settled I s)
    (hroomy : Roomy s) (hD : D env)
    (hA : checkMessageItem n.toKeys s.validators env = true → env.pbft.type = .prePrepare →
      env.pbft.getPrePrepare.valueDigest = n.crypto env.pbft.getPrePrepare.value →
      ∀ i, indexOf env.pbft = some i → ∀ t, t.sent = s.sent → A t i env.pbft.getPrePrepare checkValue) :
    Settled I (Pbft.onRecv n now env checkValue s).1 := by
  by_cases hcheck : checkMessageItem n.toKeys s.validators env = true
  · rw [Pbft.onRecv, if_pos hcheck]
    cases htype : env.pbft.type with
    | prePrepare => exact recvPhases B hshape h hroomy hD hcheck (hA hcheck)
    | prepare => exact recvPhases B hshape h hroomy hD hcheck fun htype' => by cases htype.symm.trans htype'
    | commit => exact recvPhases B hshape h hroomy hD hcheck fun htype' => by cases htype.symm.trans htype'
    | viewChange => exact h
    | newView => exact ((rests B).onNewView ⟨hshape, h⟩).2
    | viewChangeWithRawValue => exact ((rests B).onViewChangeWithRawValue ⟨hshape, h⟩ (by rw [htype]; rintro ⟨⟩)).2
    | other => exact h
  · rw [Pbft.onRecv, if_neg hcheck]
    exact h

/-! ### Events -/

theorem updateValidators {validators : ValidatorSet} {proof : ProofText} (h : Settled I s) :
    Settled I (s.updateValidators n validators proof) := by
  obtain ⟨hsent, -, hview, -⟩ := adoptValidators_frame (n := n) (s := s) validators (s.fromProof proof).2
  have hadopted : Settled I (s.adoptValidators n validators (s.fromProof proof).2) :=
    h.erase B (fun _ _ => adoptValidators_sub) hsent (adoptValidators_lastExeSeq validators proof)
      (.inl (hview ▸ Int64.le_refl _))
  rcases updateValidators_cases n validators proof s with hu | ⟨-, hu⟩ | ⟨-, hu⟩ <;> rw [hu]
  · exact h
  · exact hadopted
  · refine hadopted.erase B (fun _ _ hi => (clear_getElem.mp hi).1) rfl (Int64.le_refl _) (.inl ?_)
    change _ ≤ if (s.fromProof proof).1 > 0 then (s.fromProof proof).1 else _
    rw [hview]
    split_ifs with hpos
    · exact Int64.le_of_lt ((fromProof_spec proof s).1 hpos)
    · exact Int64.le_refl _

theorem step {e : Event} (hshape : Shape n D s) (h : Settled I s) (hroomy : Roomy s)
    (hD : ∀ env checkValue, e = .recv env checkValue → D env)
    (hA : ∀ env checkValue, e = .recv env checkValue → checkMessageItem n.toKeys s.validators env = true →
      env.pbft.type = .prePrepare → env.pbft.getPrePrepare.valueDigest = n.crypto env.pbft.getPrePrepare.value →
      ∀ i, indexOf env.pbft = some i → ∀ t, t.sent = s.sent → A t i env.pbft.getPrePrepare checkValue)
    (hrequest : ∀ value, e = .request value → Settled I (request n now value s).1) :
    Settled I (step n s (now, e)) := by
  cases e with
  | recv env checkValue => exact onRecv B hshape h hroomy (hD env checkValue rfl) (hA env checkValue rfl)
  | request value => exact hrequest value rfl
  | timer => exact ((rests B).onTimer ⟨hshape, h⟩).2
  | txTimeout => exact ((rests B).onTxTimeout ⟨hshape, h⟩).2
  | respondTimer timer => exact ((rests B).onRespondTimer ⟨hshape, h⟩).2
  | updateValidators validators proof => exact h.updateValidators B

theorem request {value : String} (h : Settled I s)
    (hput : I s.dropUncommited → I (requested n now value s)) : Settled I (request n now value s).1 := by
  rcases request_cases n now value s with hsame | ⟨-, -, -, hrequest⟩
  · rwa [hsame]
  · have hdrop : Settled I s.dropUncommited :=
      h.erase B (fun _ _ hi => (Table.filter_eq_some.mp hi).1) rfl (Int64.le_refl _) (.inl (Int64.le_refl _))
    have hrequested : Settled I (requested n now value s) := ⟨hput hdrop.holds, hdrop.looked_put nofun⟩
    rw [hrequest]
    exact hrequested.send B nofun

end Settled
end Pbft
end OpenSesame
