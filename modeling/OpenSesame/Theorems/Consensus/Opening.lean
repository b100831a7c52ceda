import OpenSesame.Theorems.Consensus.Phases

/-! # What opens an instance

`OnRecv` checks that a `PRE-PREPARE` is signed by the validator it names, and nothing checks that this validator is
the primary of the view. -/

namespace OpenSesame
open PbftInstance Option
open Protocol (PbftEnv)

namespace PbftInstance
variable {c : Setting} {i : PbftInstanceIndex} {inst : PbftInstance} {env : PbftEnv} {t : ℕ}

theorem Filed.push (hfiled : inst.Filed i) (hbuffer : env.pbft.type.buffer = some t)
    (hindex : Pbft.indexOf env.pbft = some i) : (inst.push t env).Filed i := by
  intro t' env' henv'
  rcases Pbft.mem_push henv' with henv' | ⟨rfl, rfl⟩
  · exact hfiled t' env' henv'
  · exact ⟨hbuffer, hindex⟩

theorem met_go (hfiled : inst.Filed i) (hmet : inst.Met) (hbuffer : env.pbft.type.buffer = some t)
    (hindex : Pbft.indexOf env.pbft = some i) : ((inst.push t env).go c env).Met := by
  simp only [go, hbuffer, getD_some]
  split_ifs with hlt
  · obtain ⟨hphase, hitem⟩ := take_phase_of_lt (c := c) hbuffer hlt
    have hne : inst.phase.toNat ≠ t := (Nat.ne_of_lt hlt).symm
    rw [Met, hphase, hitem, take_msgBuf]
    change (Function.update inst.msgBuf t _ inst.phase.toNat).length ≤ inst.phaseItem
    rw [Function.update_of_ne hne]
    exact hmet
  · exact takeAll_met (hfiled.push hbuffer hindex) remaining_le

theorem type_of_opened (hphase : inst.phase = .none) (hmet : inst.Met) (hbuffer : env.pbft.type.buffer = some t)
    (hopened : ((inst.push t env).go c env).phase ≠ .none) : env.pbft.type = .prePrepare := by
  have hlt : ¬t < (inst.push t env).phase.toNat := by
    change ¬t < inst.phase.toNat
    rw [hphase]
    exact Nat.not_lt_zero t
  simp only [go, hbuffer, getD_some, if_neg hlt] at hopened
  have hpushed : (inst.push t env).phase = .none := hphase
  obtain ⟨env', henv'⟩ := takeAll_opened hpushed hopened
  by_cases ht : t = 0
  · rw [ht] at hbuffer
    exact type_of_buffer hbuffer rfl
  · -- the buffer is the one that was met
    change env' ∈ (Function.update inst.msgBuf t _ 0).drop inst.phaseItem at henv'
    have hmet : (inst.msgBuf 0).length ≤ inst.phaseItem := by rwa [Met, hphase] at hmet
    rw [Function.update_of_ne fun h => ht h.symm, List.drop_eq_nil_of_le hmet] at henv'
    cases henv'

theorem go_phase_le : inst.phase.toNat ≤ (inst.go c env).phase.toNat := by
  unfold go
  split_ifs
  · exact take_phase_le
  · exact takeAll_phase_le

end PbftInstance

namespace Pbft
variable {n : PbftNode} {now : Int64} {s t : Pbft} {i : PbftInstanceIndex} {inst : PbftInstance} {env : PbftEnv}

/-! ### The messages of a replica are met -/

def Tidy (s : Pbft) : Prop :=
  ∀ (i : PbftInstanceIndex) inst, s.instances[i]? = some inst → inst.Filed i ∧ inst.Met

theorem Tidy.sub (h : Tidy s) (hsub : ∀ (i : PbftInstanceIndex) inst, t.instances[i]? = some inst →
    s.instances[i]? = some inst) : Tidy t :=
  fun i inst hi => h i inst (hsub i inst hi)

theorem Tidy.calm (h : Tidy s) (hst : Calm s t) : Tidy t := by
  intro i inst' hi'
  obtain ⟨inst, hi, hmoved⟩ := hst.instances i inst' hi'
  obtain ⟨hfiled, hmet⟩ := h i inst hi
  refine ⟨hfiled.congr hmoved.msgBuf, ?_⟩
  unfold PbftInstance.Met
  rw [hmoved.phase, hmoved.msgBuf, hmoved.phaseItem]
  exact hmet

theorem Tidy.follows (h : Tidy s) (hst : Follows s i inst t) (hinst : inst.Filed i ∧ inst.Met) : Tidy t := by
  intro j inst' hj
  by_cases hji : j = i
  · rw [hji] at hj ⊢
    rw [hst.own inst' hj]
    exact hinst
  · exact h j inst' (hst.others j inst' hji hj)

theorem tidy_takeCommit {c : PbftInstance.Setting} {commit : Protocol.PbftCommit} (h : inst.Filed i ∧ inst.Met) :
    (inst.takeCommit c commit).Filed i ∧ (inst.takeCommit c commit).Met := by
  refine ⟨h.1.congr (takeCommit_msgBuf commit), ?_⟩
  rw [PbftInstance.Met, takeCommit_msgBuf]
  rcases takeCommit_phase c commit inst with ⟨hphase, hitem⟩ | ⟨-, hphase, -⟩
  · rw [hphase, hitem]
    exact h.2
  · rw [hphase]
    change (inst.msgBuf 3).length ≤ _
    rw [h.1.last]
    exact Nat.zero_le _

theorem tidy_origin (h : Tidy s) (horigin : s.instances[i]? = some inst ∨ s.instances[i]? = none ∧ inst = .new now) :
    inst.Filed i ∧ inst.Met := by
  rcases horigin with hi | ⟨-, rfl⟩
  · exact h i inst hi
  · exact ⟨nofun, Nat.le_refl 0⟩

theorem Tidy.onRecv {checkValue : CheckValueResult} (h : Tidy s)
    (hcheck : checkMessageItem n.toKeys s.validators env = true) (hindex : indexOf env.pbft = some i) :
    Tidy (Pbft.onRecv n now env checkValue s).1 := by
  obtain ⟨b, hbuffer⟩ := Keeps.buffer_of_indexOf hindex
  rcases onRecv_cases n now checkValue s hcheck hindex with hcalm | ⟨-, -, htraced⟩ | ⟨inst, ret, horigin, -, hgo⟩
  · exact h.calm hcalm
  · rcases htraced with ⟨inst, hi, hcommit⟩ | ⟨-, -, hfilter⟩
    · rw [hcommit]
      exact h.follows (follows_onCommit n .valid hi) (tidy_takeCommit (h i inst hi))
    · exact h.sub fun j inst hj => (Table.filter_eq_some.mp (hfilter ▸ hj)).1
  · obtain ⟨hfiled, hmet⟩ := tidy_origin h horigin
    have hfollows := follows_filed n now ret s i inst hbuffer
    rw [hgo]
    intro j inst' hj
    by_cases hji : j = i
    · rw [hji] at hj ⊢
      rw [hfollows.own inst' hj]
      refine ⟨(hfiled.push hbuffer hindex).congr ?_, PbftInstance.met_go hfiled hmet hbuffer hindex⟩
      unfold PbftInstance.go
      split_ifs
      · exact PbftInstance.take_msgBuf
      · exact PbftInstance.takeAll_msgBuf
    · exact h j inst' (filed_getElem hji (hfollows.others j inst' hji hj))

theorem Tidy.request {value : String} (h : Tidy s) : Tidy (Pbft.request n now value s).1 := by
  rcases request_cases n now value s with hsame | ⟨-, -, -, hrequest⟩
  · rwa [hsame]
  · rw [hrequest]
    refine Tidy.calm ?_ Calm.sendMessage
    intro j inst hj
    rcases Table.insert_eq_some hj with ⟨rfl, rfl⟩ | ⟨-, hj⟩
    · refine ⟨fun t env henv => ?_, Nat.le_refl 0⟩
      rcases mem_push henv with henv | ⟨rfl, rfl⟩
      · cases henv
      · exact ⟨rfl, rfl⟩
    · exact h j inst (Table.filter_eq_some.mp hj).1

theorem updateValidators_sub {validators : ValidatorSet} {proof : ProofText}
    (hi : (s.updateValidators n validators proof).instances[i]? = some inst) : s.instances[i]? = some inst := by
  rcases updateValidators_cases n validators proof s with hu | ⟨-, hu⟩ | ⟨-, hu⟩
  · rwa [hu] at hi
  · rw [hu] at hi
    exact adoptValidators_sub hi
  · rw [hu] at hi
    exact adoptValidators_sub (clear_getElem.mp hi).1

theorem tidy_step {e : Event} (h : Tidy s) : Tidy (step n s (now, e)) := by
  rcases step_cases n s now e with hcalm | ⟨env, checkValue, i, rfl, hcheck, hindex⟩ | ⟨value, rfl⟩ |
    ⟨validators, proof, rfl⟩
  · exact h.calm hcalm
  · exact h.onRecv hcheck hindex
  · exact h.request
  · exact h.sub fun _ _ => updateValidators_sub

theorem tidy_run (n : PbftNode) (events : List (Int64 × Event)) : Tidy (run n events) := by
  induction events using List.reverseRecOn with
  | nil => exact nofun
  | append_singleton events e ih =>
    rw [run_concat]
    exact tidy_step ih

/-! ### Who opens an instance -/

/-- The phase of the instance `i` was not `PREPREPARED`, and is now. -/
structure Opened (s t : Pbft) (i : PbftInstanceIndex) : Prop where
  before : ∀ inst, s.instances[i]? = some inst → inst.phase ≠ .prePrepared
  after : ∃ inst, t.instances[i]? = some inst ∧ inst.phase = .prePrepared

theorem not_opened_sub (h : Opened s t i)
    (hsub : ∀ inst', t.instances[i]? = some inst' → ∃ inst, s.instances[i]? = some inst ∧ inst'.phase = inst.phase) :
    False := by
  obtain ⟨inst', hi', hphase⟩ := h.after
  obtain ⟨inst, hi, hsame⟩ := hsub inst' hi'
  exact h.before inst hi (hsame.symm.trans hphase)

theorem opened_onRecv {checkValue : CheckValueResult} {j : PbftInstanceIndex} (htidy : Tidy s)
    (hcheck : checkMessageItem n.toKeys s.validators env = true) (hindex : indexOf env.pbft = some i)
    (h : Opened s (onRecv n now env checkValue s).1 j) : j = i ∧ env.pbft.type = .prePrepare := by
  obtain ⟨b, hbuffer⟩ := Keeps.buffer_of_indexOf hindex
  rcases onRecv_cases n now checkValue s hcheck hindex with hcalm | ⟨-, -, htraced⟩ | ⟨inst, ret, horigin, -, hgo⟩
  · refine absurd h fun h => not_opened_sub h fun inst' hj => ?_
    obtain ⟨inst, hi, hmoved⟩ := hcalm.instances j inst' hj
    exact ⟨inst, hi, hmoved.phase⟩
  · rcases htraced with ⟨inst, hi, hcommit⟩ | ⟨-, -, hfilter⟩
    · -- a commit message opens nothing
      rw [hcommit] at h
      obtain ⟨inst', hj, hphase⟩ := h.after
      have hfollows : Follows s i _ (onCommit now env.pbft i inst s).1 := follows_onCommit n .valid hi
      by_cases hji : j = i
      · rw [hji] at hj h
        rw [hfollows.own inst' hj] at hphase
        rcases takeCommit_phase (s.setting n now .valid) env.pbft.getCommit inst with
          ⟨hsame, -⟩ | ⟨-, h3, -⟩
        · exact absurd (hsame.symm.trans hphase) (h.before inst hi)
        · cases h3.symm.trans hphase
      · exact absurd hphase (h.before inst' (hfollows.others j inst' hji hj))
    · refine absurd h fun h => not_opened_sub h fun inst' hj => ?_
      exact ⟨inst', (Table.filter_eq_some.mp (hfilter ▸ hj)).1, rfl⟩
  · rw [hgo] at h
    obtain ⟨inst', hj, hphase⟩ := h.after
    have hfollows := follows_filed n now ret s i inst hbuffer
    by_cases hji : j = i
    · rw [hji] at hj h
      rw [hfollows.own inst' hj] at hphase
      refine ⟨hji, ?_⟩
      have hbefore : inst.phase ≠ .prePrepared := by
        rcases horigin with hi | ⟨-, rfl⟩
        · exact h.before inst hi
        · rintro ⟨⟩
      have hle : (inst.push b env).phase.toNat ≤
          ((inst.push b env).go ((s.filed now i inst env).setting n now ret) env).phase.toNat :=
        go_phase_le
      rw [hphase] at hle
      change inst.phase.toNat ≤ 1 at hle
      have hnone : inst.phase = .none := by
        revert hle hbefore
        cases inst.phase <;> simp [PbftInstancePhase.toNat]
      exact type_of_opened hnone (tidy_origin htidy horigin).2 hbuffer (by rw [hphase]; rintro ⟨⟩)
    · exact absurd hphase (h.before inst' (filed_getElem hji (hfollows.others j inst' hji hj)))

theorem opened_request {value : String} (h : Opened s (request n now value s).1 i) :
    s.primary i.viewNumber = s.replicaId := by
  rcases request_cases n now value s with hsame | ⟨-, hprimary, -, hrequest⟩
  · rw [hsame] at h
    exact absurd h fun h => not_opened_sub h fun inst' hi => ⟨inst', hi, rfl⟩
  · rw [hrequest] at h
    obtain ⟨inst', hi', hphase⟩ := h.after
    obtain ⟨inst, hi, hmoved⟩ := Calm.sendMessage.instances i inst' hi'
    rcases Table.insert_eq_some hi with ⟨rfl, -⟩ | ⟨-, hi⟩
    · exact hprimary
    · exact absurd (hmoved.phase.symm.trans hphase) (h.before inst (Table.filter_eq_some.mp hi).1)

/-- Whatever happens to a replica that is not the primary of a view, a step that brings an instance of that view to
`PREPREPARED` receives a `PRE-PREPARE` for it that the primary has signed, just when it receives none that names another
replica. -/
theorem prePrepared_by_primary (n : PbftNode) (events : List (Int64 × Event)) (now : Int64) (e : Event)
    (i : PbftInstanceIndex) (hother : (run n events).primary i.viewNumber ≠ (run n events).replicaId)
    (hopened : Opened (run n events) (step n (run n events) (now, e)) i) :
    (∃ env checkValue, e = .recv env checkValue ∧ env.pbft.type = .prePrepare ∧ indexOf env.pbft = some i ∧
      SignedBy n.toKeys (run n events).validators ((run n events).primary i.viewNumber) env) ↔
    ∀ env checkValue, e = .recv env checkValue → env.pbft.type = .prePrepare →
      env.pbft.getPrePrepare.replicaId = (run n events).primary env.pbft.getPrePrepare.viewNumber := by
  obtain ⟨env, checkValue, rfl, hcheck, htype, hindex⟩ : ∃ env checkValue, e = .recv env checkValue ∧
      checkMessageItem n.toKeys (run n events).validators env = true ∧ env.pbft.type = .prePrepare ∧
      indexOf env.pbft = some i := by
    rcases step_cases n (run n events) now e with hcalm | ⟨env, checkValue, j, rfl, hcheck, hindex⟩ | ⟨value, rfl⟩ |
      ⟨validators, proof, rfl⟩
    · refine absurd hopened fun h => not_opened_sub h fun inst' hi' => ?_
      obtain ⟨inst, hi, hmoved⟩ := hcalm.instances i inst' hi'
      exact ⟨inst, hi, hmoved.phase⟩
    · obtain ⟨rfl, htype⟩ := opened_onRecv (tidy_run n events) hcheck hindex hopened
      exact ⟨env, checkValue, rfl, hcheck, htype, hindex⟩
    · exact absurd (opened_request hopened) hother
    · refine absurd hopened fun h => not_opened_sub h fun inst' hi' => ?_
      exact ⟨inst', updateValidators_sub hi', rfl⟩
  have hview : env.pbft.getPrePrepare.viewNumber = i.viewNumber := by
    simp only [indexOf, htype, some.injEq] at hindex
    rw [← hindex]
  have hsigned := prePrepare_of_check hcheck htype
  constructor
  · rintro ⟨env', checkValue', he, -, -, hprimary⟩ env'' checkValue'' he' -
    cases he
    cases he'
    rw [hview]
    exact hsigned.unique hprimary
  · intro hnamed
    refine ⟨env, checkValue, rfl, htype, hindex, ?_⟩
    rw [← hview, ← hnamed env checkValue rfl htype]
    exact hsigned

/-! ### Fixed runs -/

def usurped : Protocol.PbftEnv :=
  signedAs "d"
    { type := .prePrepare
      prePrepare := some { viewNumber := 0, sequence := 2, replicaId := 3, value := "x", valueDigest := "#x" } }

theorem not_open_at_first (inst : PbftInstance)
    (hi : (run (plainNode "c") [fourArrive]).instances[(⟨0, 2⟩ : PbftInstanceIndex)]? = some inst) :
    inst.phase ≠ .prePrepared := by
  have hnone : (run (plainNode "c") [fourArrive]).instances[(⟨0, 2⟩ : PbftInstanceIndex)]?.isNone = true := by
    decide +kernel
  rw [hi] at hnone
  cases hnone

/-- A validator opens an instance on the `PRE-PREPARE` of another one, and neither is the primary. -/
theorem prePrepared_by_other :
    ∃ (n : PbftNode) (events : List (Int64 × Event)) (now : Int64) (e : Event) (i : PbftInstanceIndex),
      (run n events).primary i.viewNumber ≠ (run n events).replicaId ∧
        Opened (run n events) (step n (run n events) (now, e)) i ∧
        ∀ env checkValue, e = .recv env checkValue →
          ¬SignedBy n.toKeys (run n events).validators ((run n events).primary i.viewNumber) env := by
  have hafter : ((step (plainNode "c") (run (plainNode "c") [fourArrive]) (1, .recv usurped .valid)).instances[
      (⟨0, 2⟩ : PbftInstanceIndex)]?.map phase) = some .prePrepared := by decide +kernel
  refine ⟨plainNode "c", [fourArrive], 1, .recv usurped .valid, ⟨0, 2⟩, by decide +kernel,
    ⟨not_open_at_first, map_eq_some_iff.mp hafter⟩, ?_⟩
  intro env checkValue he hsigned
  cases he
  have hmember : (run (plainNode "c") [fourArrive]).validators[plainKeys.encAddress usurped.signature.publicKey]? ≠
    some ((run (plainNode "c") [fourArrive]).primary 0) := by decide +kernel
  exact hmember hsigned.member

theorem prePrepared_by_primary_four :
    ∃ env checkValue, (prePrepareArrives "x").2 = .recv env checkValue ∧ env.pbft.type = .prePrepare ∧
      indexOf env.pbft = some ⟨0, 2⟩ ∧
      SignedBy plainKeys (run (plainNode "c") [fourArrive]).validators
        ((run (plainNode "c") [fourArrive]).primary 0) env := by
  have hnamed : ∀ env checkValue, (prePrepareArrives "x").2 = .recv env checkValue → env.pbft.type = .prePrepare →
      env.pbft.getPrePrepare.replicaId =
        (run (plainNode "c") [fourArrive]).primary env.pbft.getPrePrepare.viewNumber := by
    intro env checkValue he _
    cases he
    decide +kernel
  have hafter : ((step (plainNode "c") (run (plainNode "c") [fourArrive]) (1, (prePrepareArrives "x").2)).instances[
      (⟨0, 2⟩ : PbftInstanceIndex)]?.map phase) = some .prePrepared := by decide +kernel
  exact (prePrepared_by_primary (plainNode "c") [fourArrive] 1 (prePrepareArrives "x").2 ⟨0, 2⟩ (by decide +kernel)
    ⟨not_open_at_first, map_eq_some_iff.mp hafter⟩).mpr hnamed

end Pbft
end OpenSesame
