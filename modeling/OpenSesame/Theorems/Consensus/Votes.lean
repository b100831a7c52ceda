import OpenSesame.Theorems.Consensus.Run

/-! # The commit votes of a replica

A replica that has voted for a digest in a view and a sequence holds the instance it voted in, as
long as it can still vote there: until the sequence is executed or the view is left. -/

namespace OpenSesame
open Table
open Protocol
namespace Pbft

variable {n : PbftNode} {D : PbftEnv → Prop} {T : Rules} {s t : Pbft}

def Holds (s : Pbft) (commit : PbftCommit) : Prop :=
  ∃ inst, s.instances[(⟨commit.viewNumber, commit.sequence⟩ : PbftInstanceIndex)]? = some inst ∧
    2 ≤ inst.phase.toNat ∧ inst.prePrepare.valueDigest = commit.valueDigest

structure Votes (n : PbftNode) (D : PbftEnv → Prop) (s : Pbft) : Prop where
  shape : Shape n D s
  views : ∀ (i : PbftInstanceIndex) inst, s.instances[i]? = some inst → i.viewNumber ≤ s.viewNumber
  near : ∀ env ∈ s.sent, env.pbft.type = .commit → env.pbft.getCommit.sequence.toInt ≤ s.lastExeSeq.toInt + 10
  held : ∀ env ∈ s.sent, env.pbft.type = .commit → s.lastExeSeq < env.pbft.getCommit.sequence →
    s.viewNumber ≤ env.pbft.getCommit.viewNumber → Holds s env.pbft.getCommit
  /-- An instance that is still there is the one the replica voted in. -/
  same : ∀ env ∈ s.sent, env.pbft.type = .commit → ∀ inst,
    s.instances[(⟨env.pbft.getCommit.viewNumber, env.pbft.getCommit.sequence⟩ : PbftInstanceIndex)]? = some inst →
    2 ≤ inst.phase.toNat ∧ inst.prePrepare.valueDigest = env.pbft.getCommit.valueDigest
  unique : ∀ env ∈ s.sent, ∀ env' ∈ s.sent, env.pbft.type = .commit → env'.pbft.type = .commit →
    env.pbft.getCommit.viewNumber = env'.pbft.getCommit.viewNumber →
    env.pbft.getCommit.sequence = env'.pbft.getCommit.sequence →
    env.pbft.getCommit.valueDigest = env'.pbft.getCommit.valueDigest

/-! ### The moves keep the votes -/

variable {i : PbftInstanceIndex}

theorem advances_digest {inst inst' : PbftInstance}
    (h : Relation.ReflTransGen (Advance n D T s i) inst inst') (hphase : 2 ≤ inst.phase.toNat) :
    2 ≤ inst'.phase.toNat ∧ inst'.prePrepare = inst.prePrepare := by
  induction h with
  | refl => exact ⟨hphase, rfl⟩
  | tail _ ha ih =>
    obtain ⟨hphase', hsame⟩ := ih
    refine ⟨hphase'.trans ha.phase_le, ?_⟩
    cases ha with
    | quiet hs => exact hs.prePrepare.trans hsame
    | push => exact hsame
    | prePrepare hnone =>
      rw [hnone] at hphase'
      exact absurd hphase' (by decide)
    | prepare => exact hsame
    | prepared hone => omega
    | commit => exact hsame
    | commited => exact hsame

theorem Votes.change {inst inst' : PbftInstance} (h : Votes n D s)
    (hi : s.instances[i]? = some inst) (ha : Relation.ReflTransGen (Advance n D T s i) inst inst') :
    Votes n D (s.put i inst') where
  shape := h.shape.move (.change hi ha)
  views j instj hj := by
    rcases insert_eq_some hj with ⟨rfl, -⟩ | ⟨-, hj⟩
    · exact h.views _ inst hi
    · exact h.views j instj hj
  near := h.near
  held env henv htype hlast hview := by
    obtain ⟨instj, hj, hphase, hdigest⟩ := h.held env henv htype hlast hview
    by_cases hij : i = ⟨env.pbft.getCommit.viewNumber, env.pbft.getCommit.sequence⟩
    · subst hij
      obtain rfl : inst = instj := Option.some.inj (hi.symm.trans hj)
      obtain ⟨hphase', hsame⟩ := advances_digest ha hphase
      exact ⟨inst', Std.TreeMap.getElem?_insert_self, hphase', by rw [hsame]; exact hdigest⟩
    · exact ⟨instj, (insert_of_ne (Ne.symm hij)).trans hj, hphase, hdigest⟩
  same env henv htype instj hj := by
    rcases insert_eq_some hj with ⟨hij, rfl⟩ | ⟨-, hj⟩
    · obtain ⟨hphase, hdigest⟩ := h.same env henv htype inst (hij ▸ hi)
      obtain ⟨hphase', hsame⟩ := advances_digest ha hphase
      exact ⟨hphase', by rw [hsame]; exact hdigest⟩
    · exact h.same env henv htype instj hj
  unique := h.unique

theorem Votes.send {env : PbftEnv} (h : Votes n D s) (hsends : Sends n s env) :
    Votes n D { s with sent := s.sent ++ [env] } := by
  have hshape : Shape n D { s with sent := s.sent ++ [env] } := h.shape.send
  have hsplit : ∀ {env'}, env' ∈ s.sent ++ [env] → env' ∈ s.sent ∨ env' = env := by
    intro env' henv'
    rw [List.mem_append, List.mem_singleton] at henv'
    exact henv'
  cases hsends with
  | other hother =>
    have hold : ∀ {env'}, env' ∈ s.sent ++ [env] → env'.pbft.type = .commit → env' ∈ s.sent := by
      intro env' henv' htype
      rcases hsplit henv' with henv' | rfl
      · exact henv'
      · exact absurd htype hother
    exact
      { shape := hshape
        views := h.views
        near := fun env' henv' htype => h.near env' (hold henv' htype) htype
        held := fun env' henv' htype => h.held env' (hold henv' htype) htype
        same := fun env' henv' htype => h.same env' (hold henv' htype) htype
        unique := fun env₁ h₁ env₂ h₂ t₁ t₂ => h.unique env₁ (hold h₁ t₁) env₂ (hold h₂ t₂) t₁ t₂ }
  | @commit i inst prepare round hi hphase hview hsequence hdigest =>
    obtain ⟨v, seq⟩ := i
    obtain rfl : prepare.viewNumber = v := hview
    obtain rfl : prepare.sequence = seq := hsequence
    -- an earlier vote for this view and sequence was cast in this instance
    have hold : ∀ env' ∈ s.sent, env'.pbft.type = .commit →
        env'.pbft.getCommit.viewNumber = prepare.viewNumber → env'.pbft.getCommit.sequence = prepare.sequence →
        env'.pbft.getCommit.valueDigest = prepare.valueDigest := by
      intro env' henv' htype hv hs
      rw [hdigest]
      refine (h.same env' henv' htype inst ?_).2.symm
      rw [hv, hs]
      exact hi
    have hcommit : (n.newCommit s prepare round).pbft.getCommit =
        ⟨prepare.viewNumber, prepare.sequence, s.replicaId, prepare.valueDigest⟩ := rfl
    refine { shape := hshape, views := h.views, near := ?_, held := ?_, same := ?_, unique := ?_ }
    · intro env' henv' htype
      rcases hsplit henv' with henv' | rfl
      · exact h.near env' henv' htype
      · have hnear := h.shape.near ⟨prepare.viewNumber, prepare.sequence⟩ inst hi
        rw [hcommit]
        exact hnear
    · intro env' henv' htype hlast hview
      rcases hsplit henv' with henv' | rfl
      · exact h.held env' henv' htype hlast hview
      · rw [hcommit]
        exact ⟨inst, hi, hphase, hdigest.symm⟩
    · intro env' henv' htype inst' hinst'
      rcases hsplit henv' with henv' | rfl
      · exact h.same env' henv' htype inst' hinst'
      · rw [hcommit] at hinst' ⊢
        obtain rfl : inst = inst' := Option.some.inj (hi.symm.trans hinst')
        exact ⟨hphase, hdigest.symm⟩
    · intro env₁ h₁ env₂ h₂ t₁ t₂ hv hs
      rcases hsplit h₁ with h₁ | rfl <;> rcases hsplit h₂ with h₂ | rfl
      · exact h.unique env₁ h₁ env₂ h₂ t₁ t₂ hv hs
      · rw [hcommit] at hv hs ⊢
        exact hold env₁ h₁ t₁ hv hs
      · rw [hcommit] at hv hs ⊢
        exact (hold env₂ h₂ t₂ hv.symm hs.symm).symm
      · rfl

variable {inst : PbftInstance}

theorem Votes.put (h : Votes n D s) (hshape : Shape n D (s.put i inst)) (hview : i.viewNumber ≤ s.viewNumber)
    (hnew : ∀ env ∈ s.sent, env.pbft.type = .commit →
      i ≠ ⟨env.pbft.getCommit.viewNumber, env.pbft.getCommit.sequence⟩) : Votes n D (s.put i inst) where
  shape := hshape
  views j instj hj := by
    rcases insert_eq_some hj with ⟨rfl, -⟩ | ⟨-, hj⟩
    · exact hview
    · exact h.views j instj hj
  near := h.near
  held env henv htype hlast hview := by
    obtain ⟨instj, hj, hrest⟩ := h.held env henv htype hlast hview
    exact ⟨instj, (insert_of_ne (hnew env henv htype).symm).trans hj, hrest⟩
  same env henv htype instj hj := by
    rcases insert_eq_some hj with ⟨hij, -⟩ | ⟨-, hj⟩
    · exact absurd hij.symm (hnew env henv htype)
    · exact h.same env henv htype instj hj
  unique := h.unique

theorem Votes.shrink (h : Votes n D s) (hshape : Shape n D t) (hsent : t.sent = s.sent)
    (hview : s.viewNumber ≤ t.viewNumber) (hlast : s.lastExeSeq ≤ t.lastExeSeq)
    (hsub : ∀ (i : PbftInstanceIndex) inst, t.instances[i]? = some inst → s.instances[i]? = some inst)
    (hkept : ∀ (i : PbftInstanceIndex) inst, s.instances[i]? = some inst → 2 ≤ inst.phase.toNat →
      t.lastExeSeq < i.sequence → t.viewNumber ≤ i.viewNumber → t.instances[i]? = some inst) : Votes n D t where
  shape := hshape
  views i inst hi := Int64.le_trans (h.views i inst (hsub i inst hi)) hview
  near env henv htype := by
    have := h.near env (hsent ▸ henv) htype
    rw [Int64.le_iff_toInt_le] at hlast
    omega
  held env henv htype hlt hle := by
    obtain ⟨inst, hi, hphase, hdigest⟩ := h.held env (hsent ▸ henv) htype (Int64.lt_of_le_of_lt hlast hlt)
      (Int64.le_trans hview hle)
    exact ⟨inst, hkept _ inst hi hphase hlt hle, hphase, hdigest⟩
  same env henv htype inst hi := h.same env (hsent ▸ henv) htype inst (hsub _ inst hi)
  unique env henv env' henv' := h.unique env (hsent ▸ henv) env' (hsent ▸ henv')

theorem checkpoint_lt {last seq : Int64} (hstarted : 1 ≤ last) (hlt : last < seq) : seq - ckpInterval / 2 < seq := by
  have h5 : (ckpInterval / 2).toInt = 5 := rfl
  have h1 : (1 : Int64).toInt = 1 := rfl
  have := seq.toInt_lt
  rw [Int64.le_iff_toInt_le] at hstarted
  rw [Int64.lt_iff_toInt_lt] at hlt
  rw [Int64.lt_iff_toInt_lt, Int64.toInt_sub, h5]
  rcases SafeInt.bmod_cases (z := seq.toInt - 5) (by omega) (by omega) with h | ⟨hlow, h⟩ | ⟨hhigh, h⟩ <;> omega

theorem Votes.execute (h : Votes n D s) (hlast : s.lastExeSeq < i.sequence) (hnext : i.sequence = s.lastExeSeq + 1) :
    Votes n D (executeValue i inst s) := by
  refine h.shrink (h.shape.execute hlast hnext) rfl (Int64.le_refl _) ?_ (fun j instj hj => (filter_eq_some.mp hj).1) ?_
  · change s.lastExeSeq ≤ s.lastExeSeq + 1
    rw [← hnext]
    exact Int64.le_of_lt hlast
  · intro j instj hj _ hafter _
    change s.lastExeSeq + 1 < j.sequence at hafter
    rw [← hnext] at hafter
    refine filter_eq_some.mpr ⟨hj, ?_⟩
    rw [Bool.not_eq_true', decide_eq_false_iff_not, Int64.not_le]
    exact Int64.lt_trans (checkpoint_lt h.shape.started hlast) hafter

theorem Votes.enter {v : Int64} (h : Votes n D s) (hv : s.viewNumber < v) : Votes n D (s.enterView v) := by
  refine h.shrink h.shape.enter rfl (Int64.le_of_lt hv) (Int64.le_refl _)
    (fun j instj hj => (filter_eq_some.mp hj).1) ?_
  intro j instj hj hphase hafter _
  refine filter_eq_some.mpr ⟨hj, ?_⟩
  change s.lastExeSeq < j.sequence at hafter
  have hcases : instj.phase = .commited ∨ instj.phase = .prepared := by
    cases hp : instj.phase <;> rw [hp] at hphase <;> simp [PbftInstancePhase.toNat] at hphase ⊢
  rcases hcases with hp | hp
  · simp [survives, hp]
  · simp [survives, hp, hafter]

theorem Votes.catchUp (h : Votes n D s) (hlast : s.lastExeSeq < i.sequence)
    (hfar : i.sequence - s.lastExeSeq ≥ ckpInterval) :
    Votes n D { s with
        viewNumber := i.viewNumber
        lastExeSeq := i.sequence
        instances := s.instances.filter fun j _ => !decide (j.sequence ≤ i.sequence) } := by
  have hseq := far_of_le h.shape.started hlast hfar
  have hshape := h.shape.catchUp hlast hfar
  have hnone := h.shape.none_after_catchUp hlast hfar
  refine { shape := hshape, views := ?_, near := ?_, held := ?_, same := ?_, unique := h.unique }
  · exact fun j inst' hj => absurd hj (hnone j inst')
  · intro env henv htype
    have := h.near env henv htype
    change _ ≤ i.sequence.toInt + 10
    omega
  · intro env henv htype hlt
    have := h.near env henv htype
    change i.sequence < _ at hlt
    rw [Int64.lt_iff_toInt_lt] at hlt
    omega
  · exact fun env _ _ inst' hj => absurd hj (hnone _ inst')

theorem Votes.move (h : Votes n D s) (hst : Move n D T s t) : Votes n D t := by
  cases hst with
  | side hside =>
    exact
      { shape := h.shape.side hside
        views := by rw [hside.instances, hside.viewNumber]; exact h.views
        near := by rw [hside.sent, hside.lastExeSeq]; exact h.near
        held := by
          unfold Holds
          rw [hside.sent, hside.lastExeSeq, hside.viewNumber, hside.instances]
          exact h.held
        same := by rw [hside.sent, hside.instances]; exact h.same
        unique := by rw [hside.sent]; exact h.unique }
  | change hi ha => exact h.change hi ha
  | send hsends => exact h.send hsends
  | @create i now hview hlast hnear hnew =>
    refine h.put (h.shape.create hview hlast hnear) (hview ▸ Int64.le_refl _) ?_
    -- a vote here would have kept its instance
    rintro env henv htype rfl
    obtain ⟨inst, hi, -⟩ := h.held env henv htype hlast (hview ▸ Int64.le_refl _)
    rw [hnew] at hi
    cases hi
  | @forget p hp =>
    refine h.shrink h.shape.keep rfl (Int64.le_refl _) (Int64.le_refl _)
      (fun j instj hj => (filter_eq_some.mp hj).1) ?_
    intro i inst hi _ _ hview
    refine filter_eq_some.mpr ⟨hi, ?_⟩
    by_contra hpi
    have hlt : i.viewNumber < s.viewNumber := hp i inst hi (Bool.eq_false_of_not_eq_true hpi)
    exact absurd hview (Int64.not_le.mpr hlt)
  | execute _ _ hlast hnext => exact h.execute hlast hnext
  | enter hv => exact h.enter hv
  | catchUp hlast hfar => exact h.catchUp hlast hfar

theorem Keeps.of_votes : Keeps n D .any (Votes n D) where
  shape _ h := h.shape
  move _ _ h hst := h.move hst

/-! ### `Request` and `UpdateValidators` -/

/-- No instance of the current view that is still to be executed is in the phase `PREPARED`. -/
def NothingPrepared (s : Pbft) : Prop :=
  ∀ (i : PbftInstanceIndex) inst, s.instances[i]? = some inst → i.viewNumber = s.viewNumber →
    s.lastExeSeq < i.sequence → inst.phase ≠ .prepared

/-- The instance that `Request` overwrites is not committed. -/
def NextOpen (s : Pbft) : Prop :=
  ∀ inst, s.instances[(⟨s.viewNumber, s.lastExeSeq + 1⟩ : PbftInstanceIndex)]? = some inst → inst.phase ≠ .commited

/-- The condition on a step: no wrap of the water mark; a `Request` and an `UpdateValidators` erase no instance
in which the replica may have voted and can vote again. -/
def KeepsVotes (s : Pbft) : Event → Prop
  | .request _ => Roomy s ∧ NothingPrepared s ∧ NextOpen s
  | .updateValidators validators proof => Roomy s ∧ ((s.fromProof proof).1 > 0 ∨
        s.validatorChanged validators = false ∧ ¬(s.fromProof proof).2 > 0 ∨ NothingPrepared s)
  | _ => Roomy s

theorem KeepsVotes.roomy {e : Event} (h : KeepsVotes s e) : Roomy s := by
  cases e with
  | request => exact h.1
  | updateValidators => exact h.1
  | _ => exact h

theorem commited_of_not_prepared (hphase : 2 ≤ inst.phase.toNat)
    (hne : inst.phase ≠ .prepared) : inst.phase = .commited := by
  cases hp : inst.phase with
  | none => rw [hp] at hphase; exact absurd hphase (by decide)
  | prePrepared => rw [hp] at hphase; exact absurd hphase (by decide)
  | prepared => exact absurd hp hne
  | commited => rfl

theorem Votes.sendMessage {env : PbftEnv} (h : Votes n D s) (htype : env.pbft.type ≠ .commit) :
    Votes n D (s.sendMessage env) := by
  unfold Pbft.sendMessage
  split
  · exact h.send (.other htype)
  · exact h

theorem Votes.request {now : Int64} {value : String} (h : Votes n D s) (hroomy : Roomy s)
    (hprepared : NothingPrepared s) (hopen : NextOpen s) : Votes n D (Pbft.request n now value s).1 := by
  rcases request_cases n now value s with hsame | ⟨hsize, hprimary, -, hrequest⟩
  · rw [hsame]
    exact h
  · rw [hrequest]
    -- what is prepared is committed too, and stays
    have hdrop : Votes n D s.dropUncommited := by
      refine h.shrink h.shape.keep rfl (Int64.le_refl _) (Int64.le_refl _)
        (fun j instj hj => (filter_eq_some.mp hj).1) ?_
      intro i inst hi hphase hlast hview
      have hcurrent : i.viewNumber = s.viewNumber := Int64.le_antisymm (h.views i inst hi) hview
      have hcommited := commited_of_not_prepared hphase (hprepared i inst hi hcurrent hlast)
      refine filter_eq_some.mpr ⟨hi, ?_⟩
      simp [hcommited, PbftInstancePhase.toNat]
    refine Votes.sendMessage (hdrop.put (h.shape.requested hsize hprimary) (Int64.le_refl _) ?_) nofun
    intro env henv htype heq
    obtain ⟨hview, hseq⟩ := PbftInstanceIndex.mk.inj heq
    have hheld := h.held env henv htype (hseq ▸ lt_succ_of_roomy hroomy) (hview ▸ Int64.le_refl _)
    obtain ⟨inst, hi, hphase, -⟩ := hheld
    rw [← heq] at hi
    refine hopen inst hi (commited_of_not_prepared hphase ?_)
    exact hprepared _ inst hi rfl (lt_succ_of_roomy hroomy)

theorem Votes.updateValidators {validators : ValidatorSet} {proof : ProofText} (h : Votes n D s)
    (hcase : (s.fromProof proof).1 > 0 ∨
      s.validatorChanged validators = false ∧ ¬(s.fromProof proof).2 > 0 ∨ NothingPrepared s) :
    Votes n D (s.updateValidators n validators proof) := by
  have hshape : Shape n D (s.updateValidators n validators proof) := h.shape.updateValidators
  obtain ⟨hsent, -, hview, -⟩ := adoptValidators_frame (n := n) (s := s) validators (s.fromProof proof).2
  have hlast := adoptValidators_lastExeSeq (n := n) (s := s) validators proof
  have hcommited : NothingPrepared s → ∀ (i : PbftInstanceIndex) inst, s.instances[i]? = some inst →
      2 ≤ inst.phase.toNat → s.lastExeSeq < i.sequence → s.viewNumber ≤ i.viewNumber → 3 ≤ inst.phase.toNat := by
    intro hnone i inst hi hphase hlt hle
    have hcurrent : i.viewNumber = s.viewNumber := Int64.le_antisymm (h.views i inst hi) hle
    rw [commited_of_not_prepared hphase (hnone i inst hi hcurrent hlt)]
    decide
  rcases updateValidators_cases n validators proof s with hu | ⟨hno, hu⟩ | ⟨hyes, hu⟩
  · rw [hu]
    exact h
  · rw [hu] at hshape ⊢
    rcases hcase with hpos | ⟨hvalidators, hseq⟩ | hnone
    · exact absurd (.inl hpos) hno
    · rw [adoptValidators_same hvalidators hseq]
      exact h
    · refine h.shrink hshape hsent (hview ▸ Int64.le_refl _) hlast (fun i inst hi => adoptValidators_sub hi) ?_
      intro i inst hi hphase hlt hle
      exact adoptValidators_kept hi (hcommited hnone i inst hi hphase (Int64.lt_of_le_of_lt hlast hlt) (hview ▸ hle))
  · rw [hu] at hshape ⊢
    refine h.shrink hshape hsent ?_ hlast (fun i inst hi => adoptValidators_sub (clear_getElem.mp hi).1) ?_
    · change s.viewNumber ≤ if (s.fromProof proof).1 > 0 then _ else _
      split_ifs with hpos
      · exact Int64.le_of_lt ((fromProof_spec proof s).1 hpos)
      · exact hview ▸ Int64.le_refl _
    · intro i inst hi hphase hlt hle
      change (if (s.fromProof proof).1 > 0 then _ else _) ≤ _ at hle
      split_ifs at hle with hpos
      · -- every instance is of an older view
        have hnew := Int64.lt_of_lt_of_le ((fromProof_spec proof s).1 hpos) hle
        exact absurd (h.views i inst hi) (Int64.not_le.mpr hnew)
      · rcases hcase with hpos' | ⟨-, hseq⟩ | hnone
        · exact absurd hpos' hpos
        · exact absurd hyes (not_or.mpr ⟨hpos, hseq⟩)
        · have hthree := hcommited hnone i inst hi hphase (Int64.lt_of_le_of_lt hlast hlt) (hview ▸ hle)
          exact clear_getElem.mpr ⟨adoptValidators_kept hi hthree, hthree⟩

theorem Votes.mono {D' : PbftEnv → Prop} (h : Votes n D s) (hD : ∀ env, D env → D' env) : Votes n D' s :=
  { h with shape := h.shape.mono hD }

theorem votes_start : Votes n D {} where
  shape := shape_start
  views := nofun
  near := nofun
  held := nofun
  same := nofun
  unique := nofun

theorem votes_run {events : List (Int64 × Event)} (h : Meets n KeepsVotes events) :
    Votes n (Delivered events) (run n events) := by
  refine run_induction (P := fun events s => Votes n (Delivered events) s) votes_start ?_ h
  rintro events ⟨now, e⟩ s hs hstep
  have hs : Votes n (Delivered (events ++ [(now, e)])) s := hs.mono fun _ => Delivered.mono
  refine Keeps.of_votes.step hs hstep.roomy (fun _ _ => delivered_last) (fun _ _ _ _ => Keeps.allowed_any) ?_ ?_
  · rintro value rfl
    exact hs.request hstep.1 hstep.2.1 hstep.2.2
  · rintro validators proof rfl
    exact hs.updateValidators hstep.2

/-- A replica whose steps keep its votes never sends two `COMMIT` messages with one view and one sequence and two
digests. -/
theorem commit_votes_unique (n : PbftNode) (events : List (Int64 × Event)) (h : Meets n KeepsVotes events)
    (env env' : PbftEnv) (henv : env ∈ (run n events).sent) (henv' : env' ∈ (run n events).sent)
    (htype : env.pbft.type = .commit) (htype' : env'.pbft.type = .commit)
    (hview : env.pbft.getCommit.viewNumber = env'.pbft.getCommit.viewNumber)
    (hsequence : env.pbft.getCommit.sequence = env'.pbft.getCommit.sequence) :
    env.pbft.getCommit.valueDigest = env'.pbft.getCommit.valueDigest :=
  (votes_run h).unique env henv env' henv' htype htype' hview hsequence

/-! ### Fixed runs -/

/-- The primary proposes a value, which is prepared, and then another one in the same view and sequence. -/
def proposedTwice : List (Int64 × Event) :=
  [fourArrive, (1, .request "x"), prepareArrives "b" 1 "#x", prepareArrives "c" 2 "#x",
    (1, .request "y"), prepareArrives "c" 2 "#y", prepareArrives "d" 3 "#y"]

/-- A replica that sends two `COMMIT` messages for the view 0 and the sequence 2, with two digests. -/
theorem commit_votes_differ :
    ∃ env ∈ (run (plainNode "a") proposedTwice).sent, ∃ env' ∈ (run (plainNode "a") proposedTwice).sent,
      env.pbft.type = .commit ∧ env'.pbft.type = .commit ∧
      env.pbft.getCommit.viewNumber = env'.pbft.getCommit.viewNumber ∧
      env.pbft.getCommit.sequence = env'.pbft.getCommit.sequence ∧
      env.pbft.getCommit.valueDigest ≠ env'.pbft.getCommit.valueDigest := by
  decide +kernel

def votedAgain : List (Int64 × Event) :=
  [fourArrive, (1, .request "x"), prepareArrives "b" 1 "#x", prepareArrives "c" 2 "#x", (20000000, .timer)]

theorem votedAgain_keepsVotes : Meets (plainNode "a") KeepsVotes votedAgain := by
  have hempty : ∀ events, (run (plainNode "a") events).instances.isEmpty = true → ∀ i : PbftInstanceIndex,
      (run (plainNode "a") events).instances[i]? = none :=
    fun _ h _ => Std.TreeMap.getElem?_of_isEmpty h
  have hnone := hempty [fourArrive] (by decide +kernel)
  refine ((((meets_nil.concat (e := fourArrive) ?_).concat (e := (1, .request "x")) ?_).concat ?_).concat ?_).concat ?_
  · exact ⟨by decide +kernel, .inr (.inr nofun)⟩
  · refine ⟨by decide +kernel, fun i inst hi => ?_, fun inst hi => ?_⟩
    · exact absurd ((hnone i).symm.trans hi) nofun
    · exact absurd ((hnone _).symm.trans hi) nofun
  · change Roomy _
    decide +kernel
  · change Roomy _
    decide +kernel
  · change Roomy _
    decide +kernel

theorem commit_votes_unique_again :
    ∃ env ∈ (run (plainNode "a") votedAgain).sent, ∃ env' ∈ (run (plainNode "a") votedAgain).sent,
      env.pbft.roundNumber = 0 ∧ env'.pbft.roundNumber = 2 ∧
      env.pbft.getCommit.valueDigest = env'.pbft.getCommit.valueDigest := by
  obtain ⟨env, henv, htype, hround, hview, hseq⟩ : ∃ env ∈ (run (plainNode "a") votedAgain).sent,
      env.pbft.type = .commit ∧ env.pbft.roundNumber = 0 ∧ env.pbft.getCommit.viewNumber = 0 ∧
        env.pbft.getCommit.sequence = 2 := by decide +kernel
  obtain ⟨env', henv', htype', hround', hview', hseq'⟩ : ∃ env ∈ (run (plainNode "a") votedAgain).sent,
      env.pbft.type = .commit ∧ env.pbft.roundNumber = 2 ∧ env.pbft.getCommit.viewNumber = 0 ∧
        env.pbft.getCommit.sequence = 2 := by decide +kernel
  exact ⟨env, henv, env', henv', hround, hround',
    commit_votes_unique (plainNode "a") votedAgain votedAgain_keepsVotes env env' henv henv' htype htype'
      (hview.trans hview'.symm) (hseq.trans hseq'.symm)⟩

end Pbft
end OpenSesame
