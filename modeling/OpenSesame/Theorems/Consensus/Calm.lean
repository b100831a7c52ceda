import OpenSesame.Theorems.Consensus.Run

/-! # Calls that leave the instances alone

The timers and the messages of a view change erase instances or note a time in them. -/

namespace OpenSesame
open Protocol (PbftEnv)
namespace Pbft

structure Unmoved (inst inst' : PbftInstance) : Prop where
  phase : inst'.phase = inst.phase
  phaseItem : inst'.phaseItem = inst.phaseItem
  msgBuf : inst'.msgBuf = inst.msgBuf

structure Calm (s t : Pbft) : Prop where
  validators : t.validators = s.validators
  replicaId : t.replicaId = s.replicaId
  lastExeSeq : t.lastExeSeq = s.lastExeSeq
  instances : ∀ (i : PbftInstanceIndex) inst', t.instances[i]? = some inst' →
    ∃ inst, s.instances[i]? = some inst ∧ Unmoved inst inst'

namespace Calm
variable {n : PbftNode} {now : Int64} {s t u : Pbft} {i : PbftInstanceIndex} {inst inst' : PbftInstance} {env : PbftEnv}

theorem of_eq (hvalidators : t.validators = s.validators) (hid : t.replicaId = s.replicaId)
    (hlast : t.lastExeSeq = s.lastExeSeq) (h : t.instances = s.instances) : Calm s t :=
  ⟨hvalidators, hid, hlast, fun _ inst' hi => ⟨inst', h ▸ hi, rfl, rfl, rfl⟩⟩

theorem refl (s : Pbft) : Calm s s := of_eq rfl rfl rfl rfl

theorem trans (h : Calm s t) (h' : Calm t u) : Calm s u where
  validators := h'.validators.trans h.validators
  replicaId := h'.replicaId.trans h.replicaId
  lastExeSeq := h'.lastExeSeq.trans h.lastExeSeq
  instances i inst'' hi := by
    obtain ⟨inst', hi', hmoved'⟩ := h'.instances i inst'' hi
    obtain ⟨inst, hi, hmoved⟩ := h.instances i inst' hi'
    exact ⟨inst, hi, hmoved'.phase.trans hmoved.phase, hmoved'.phaseItem.trans hmoved.phaseItem,
      hmoved'.msgBuf.trans hmoved.msgBuf⟩

theorem sendMessage : Calm s (s.sendMessage env) := by
  unfold Pbft.sendMessage
  split <;> exact of_eq rfl rfl rfl rfl

theorem keep {p : PbftInstanceIndex → PbftInstance → Bool} : Calm s (s.keep p) :=
  ⟨rfl, rfl, rfl, fun _ inst' hi => ⟨inst', (Table.filter_eq_some.mp hi).1, rfl, rfl, rfl⟩⟩

theorem put (hi : s.instances[i]? = some inst) (hmoved : Unmoved inst inst') : Calm s (s.put i inst') := by
  refine ⟨rfl, rfl, rfl, fun j inst'' hj => ?_⟩
  rcases Table.insert_eq_some hj with ⟨rfl, rfl⟩ | ⟨-, hj⟩
  · exact ⟨inst, hi, hmoved⟩
  · exact ⟨inst'', hj, rfl, rfl, rfl⟩

theorem rests (n : PbftNode) (s : Pbft) : Rests n (fun _ => True) False (Calm s) where
  shape _ h := h.elim
  rest t u h hst := by
    refine h.trans ?_
    cases hst with
    | side hst _ => exact of_eq hst.validators hst.replicaId hst.lastExeSeq hst.instances
    | send | vote => exact of_eq rfl rfl rfl rfl
    | note hi hs hitem => exact put hi ⟨hs.phase, hitem, hs.msgBuf⟩
    | enter => exact Calm.trans (t := t.keep t.survives) keep (of_eq rfl rfl rfl rfl)

end Calm

theorem step_cases (n : PbftNode) (s : Pbft) (now : Int64) (e : Event) : Calm s (step n s (now, e)) ∨
      (∃ env checkValue i, e = .recv env checkValue ∧ checkMessageItem n.toKeys s.validators env = true ∧
        indexOf env.pbft = some i) ∨
      (∃ value, e = .request value) ∨ ∃ validators proof, e = .updateValidators validators proof := by
  cases e with
  | recv env checkValue =>
    by_cases hcheck : checkMessageItem n.toKeys s.validators env = true
    · cases hindex : indexOf env.pbft with
      | some i => exact .inr (.inl ⟨env, checkValue, i, rfl, hcheck, hindex⟩)
      | none =>
        left
        simp only [step, onRecv, if_pos hcheck]
        cases htype : env.pbft.type with
        | prePrepare | prepare | commit => simp [indexOf, htype] at hindex
        | viewChange | other => exact .refl s
        | newView => exact (Calm.rests n s).onNewView (.refl s)
        | viewChangeWithRawValue => exact (Calm.rests n s).onViewChangeWithRawValue (.refl s) (by rw [htype]; rintro ⟨⟩)
    · left
      simp only [step, onRecv, if_neg hcheck]
      exact .refl s
  | request value => exact .inr (.inr (.inl ⟨value, rfl⟩))
  | timer => exact .inl ((Calm.rests n s).onTimer (.refl s))
  | txTimeout => exact .inl ((Calm.rests n s).onTxTimeout (.refl s))
  | respondTimer timer => exact .inl ((Calm.rests n s).onRespondTimer (.refl s))
  | updateValidators validators proof => exact .inr (.inr (.inr ⟨validators, proof, rfl⟩))

end Pbft
end OpenSesame
