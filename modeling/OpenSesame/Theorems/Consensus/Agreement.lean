import OpenSesame.Theorems.Consensus.Ballot
import OpenSesame.Theorems.Consensus.Network

/-! # Agreement

A replica that has voted for a value in one view votes for any other value in the next one: a
`NEW-VIEW` and the `PRE-PREPARE` after it are taken as they come. -/

namespace OpenSesame
open Pbft
open Protocol
namespace Pbft

/-! ### One value of a sequence -/

/-- Every `COMMIT` for the sequence that the replica has sent is one for this digest. -/
def OnlyVoted (s : Pbft) (sequence : Int64) (digest : String) : Prop :=
  ∀ env ∈ s.sent, env.pbft.type = .commit → env.pbft.getCommit.sequence = sequence →
    env.pbft.getCommit.valueDigest = digest

instance (s : Pbft) (sequence : Int64) (digest : String) : Decidable (OnlyVoted s sequence digest) :=
  inferInstanceAs (Decidable (∀ env ∈ s.sent, _ → _ → _))

/-- No committed instance of the next sequence is there. -/
def NextClear (s : Pbft) : Prop :=
  ∀ p ∈ s.instances.toList, p.1.sequence = s.lastExeSeq + 1 → p.2.phase ≠ .commited

instance (s : Pbft) : Decidable (NextClear s) :=
  inferInstanceAs (Decidable (∀ p ∈ s.instances.toList, _ → _))

/-- The condition on a step: no wrap of the water mark; no `PRE-PREPARE` is found valid, and no `Request` made, for
another value of a sequence than the replica has voted for. -/
def KeepsLock (n : PbftNode) (s : Pbft) : Event → Prop
  | .recv env .valid => Roomy s ∧ (env.pbft.type = .prePrepare ∧ checkMessageItem n.toKeys s.validators env = true →
        OnlyVoted s env.pbft.getPrePrepare.sequence (n.crypto env.pbft.getPrePrepare.value))
  | .request value => Roomy s ∧ NextClear s ∧ OnlyVoted s (s.lastExeSeq + 1) (n.crypto value)
  | _ => Roomy s

instance (n : PbftNode) (s : Pbft) : (e : Event) → Decidable (KeepsLock n s e)
  | .recv _ .valid => inferInstanceAs (Decidable (_ ∧ (_ → _)))
  | .recv _ .mayvalid => inferInstanceAs (Decidable (Roomy s))
  | .recv _ .invalid => inferInstanceAs (Decidable (Roomy s))
  | .request _ => inferInstanceAs (Decidable (_ ∧ _ ∧ _))
  | .timer => inferInstanceAs (Decidable (Roomy s))
  | .txTimeout => inferInstanceAs (Decidable (Roomy s))
  | .respondTimer _ => inferInstanceAs (Decidable (Roomy s))
  | .updateValidators _ _ => inferInstanceAs (Decidable (Roomy s))

theorem KeepsLock.roomy {n : PbftNode} {s : Pbft} {e : Event} (h : KeepsLock n s e) : Roomy s := by
  cases e with
  | recv env checkValue =>
    cases checkValue with
    | valid => exact h.1
    | _ => exact h
  | request => exact h.1
  | _ => exact h

structure Locked (s : Pbft) : Prop where
  views : ∀ (i : PbftInstanceIndex) inst, s.instances[i]? = some inst → i.viewNumber ≤ s.viewNumber
  unique : ∀ (i j : PbftInstanceIndex) inst inst', s.instances[i]? = some inst → s.instances[j]? = some inst' →
    i.sequence = j.sequence → i = j
  locked : ∀ (i : PbftInstanceIndex) inst, s.instances[i]? = some inst → inst.phase ≠ .none →
    inst.checkValueResult = .valid → OnlyVoted s i.sequence inst.prePrepare.valueDigest
  agreed : ∀ env ∈ s.sent, env.pbft.type = .commit →
    OnlyVoted s env.pbft.getCommit.sequence env.pbft.getCommit.valueDigest

variable {n : PbftNode} {D : PbftEnv → Prop} {s t : Pbft} {i : PbftInstanceIndex} {inst inst' : PbftInstance}
  {now : Int64}

theorem OnlyVoted.of_sent {sequence : Int64} {digest : String} (h : OnlyVoted s sequence digest)
    (hsent : t.sent = s.sent) : OnlyVoted t sequence digest := by
  unfold OnlyVoted
  rwa [hsent]

theorem OnlyVoted.send {sequence : Int64} {digest : String} {env : PbftEnv} (h : OnlyVoted s sequence digest)
    (henv : env.pbft.type = .commit → env.pbft.getCommit.sequence = sequence →
      env.pbft.getCommit.valueDigest = digest) :
    OnlyVoted { s with sent := s.sent ++ [env] } sequence digest := by
  intro env' henv' htype hsequence
  rcases List.mem_append.mp henv' with henv' | henv'
  · exact h env' henv' htype hsequence
  · rw [List.mem_singleton.mp henv'] at htype hsequence ⊢
    exact henv htype hsequence

theorem Locked.erase (h : Locked s)
    (hsub : ∀ (i : PbftInstanceIndex) inst, t.instances[i]? = some inst → s.instances[i]? = some inst)
    (hsent : t.sent = s.sent) (hview : s.viewNumber ≤ t.viewNumber ∨ ∀ i : PbftInstanceIndex, t.instances[i]? = none) :
    Locked t where
  views i inst hi := by
    rcases hview with hview | hnone
    · exact Int64.le_trans (h.views i inst (hsub i inst hi)) hview
    · exact absurd ((hnone i).symm.trans hi) nofun
  unique i j inst inst' hi hj hseq := h.unique i j inst inst' (hsub i inst hi) (hsub j inst' hj) hseq
  locked i inst hi hphase hvalid := (h.locked i inst (hsub i inst hi) hphase hvalid).of_sent hsent
  agreed env henv htype := (h.agreed env (hsent ▸ henv) htype).of_sent hsent

theorem Locked.put (h : Locked s) (hview : i.viewNumber ≤ s.viewNumber)
    (hunique : ∀ (j : PbftInstanceIndex) instj, s.instances[j]? = some instj → i.sequence = j.sequence → i = j)
    (hlocked : inst'.phase ≠ .none → inst'.checkValueResult = .valid →
      OnlyVoted s i.sequence inst'.prePrepare.valueDigest) : Locked (s.put i inst') where
  views j instj hj := by
    rcases Table.insert_eq_some hj with ⟨rfl, -⟩ | ⟨-, hj⟩
    · exact hview
    · exact h.views j instj hj
  unique j k instj instk hj hk hseq := by
    rcases Table.insert_eq_some hj with ⟨rfl, -⟩ | ⟨-, hj'⟩ <;> rcases Table.insert_eq_some hk with ⟨rfl, -⟩ | ⟨-, hk'⟩
    · rfl
    · exact hunique k instk hk' hseq
    · exact (hunique j instj hj' hseq.symm).symm
    · exact h.unique j k instj instk hj' hk' hseq
  locked j instj hj hphase hvalid := by
    rcases Table.insert_eq_some hj with ⟨rfl, rfl⟩ | ⟨-, hj⟩
    · exact hlocked hphase hvalid
    · exact h.locked j instj hj hphase hvalid
  agreed := h.agreed

theorem Locked.vote {prepare : PbftPrepare} {round : Int64} (h : Locked s) (hi : s.instances[i]? = some inst)
    (hphase : inst.phase ≠ .none) (hvalid : inst.checkValueResult = .valid) (hsequence : prepare.sequence = i.sequence)
    (hdigest : prepare.valueDigest = inst.prePrepare.valueDigest) :
    Locked { s with sent := s.sent ++ [n.newCommit t prepare round] } where
  views := h.views
  unique := h.unique
  locked j instj hj hphase' hvalid' := by
    refine (h.locked j instj hj hphase' hvalid').send fun _ hseq => ?_
    -- the vote is for the value of the only instance of its sequence
    obtain rfl := h.unique i j inst instj hi hj (hsequence.symm.trans hseq)
    obtain rfl := Option.some.inj (hi.symm.trans hj)
    exact hdigest
  agreed env henv htype := by
    have hlocked := h.locked i inst hi hphase hvalid
    rcases List.mem_append.mp henv with henv | henv
    · refine (h.agreed env henv htype).send fun _ hseq => ?_
      exact hdigest.trans (hlocked env henv htype (hseq.symm.trans hsequence)).symm
    · obtain rfl := List.mem_singleton.mp henv
      refine OnlyVoted.send ?_ fun _ _ => rfl
      intro env' henv' htype' hseq'
      exact (hlocked env' henv' htype' (hseq'.trans hsequence)).trans hdigest.symm

theorem Locked.create (h : Locked s) (hview : i.viewNumber = s.viewNumber) (hnew : s.instances[i]? = none) :
    Locked (s.createInstance now i) := by
  have hold : ¬s.instances.contains i = true := by
    rw [Table.contains_iff, hnew]
    exact nofun
  rw [createInstance, if_neg hold]
  -- the instances of lower views go before the new one comes, for the invariant
  have hkept : Locked (s.keep fun j _ => !(decide (j.viewNumber < i.viewNumber) && j.sequence == i.sequence)) :=
    h.erase (fun j instj hj => (Table.filter_eq_some.mp hj).1) rfl (.inl (Int64.le_refl _))
  have hput : Locked (Pbft.put i (.new now) (s.keep fun j _ =>
      !(decide (j.viewNumber < i.viewNumber) && j.sequence == i.sequence))) := by
    refine hkept.put (Int64.le_of_eq hview) (fun j instj hj hseq => ?_) fun hphase => absurd rfl hphase
    obtain ⟨hj, hp⟩ := Table.filter_eq_some.mp hj
    simp only [hseq, beq_self_eq_true, Bool.and_true, Bool.not_eq_true', decide_eq_false_iff_not, Int64.not_lt] at hp
    exact PbftInstanceIndex.ext (Int64.le_antisymm hp (hview ▸ h.views j instj hj)) hseq
  refine hput.erase (fun j instj hj => ?_) rfl (.inl (Int64.le_refl _))
  obtain ⟨hj, hp⟩ := Table.filter_eq_some.mp hj
  rcases Table.insert_eq_some hj with ⟨rfl, rfl⟩ | ⟨hne, hj⟩
  · exact Std.TreeMap.getElem?_insert_self
  · rw [Pbft.put, Table.insert_of_ne hne]
    exact Table.filter_eq_some.mpr ⟨hj, hp⟩

def Unopposed (s : Pbft) (i : PbftInstanceIndex) (p : PbftPrePrepare) (ret : CheckValueResult) : Prop :=
  ret = .valid → OnlyVoted s i.sequence p.valueDigest

theorem ballot_locked : Ballot n Unopposed Locked where
  erase h hsub hsent _ hview := h.erase hsub hsent hview
  change {s i inst inst'} h hi hsame := by
    refine h.put (h.views i inst hi) (fun j instj hj => h.unique i j inst instj hi hj) fun hphase hvalid => ?_
    have hopen : inst.phase ≠ .none := fun hnone => hphase (hsame.unopened.mpr hnone)
    rw [hsame.prePrepare hopen]
    exact h.locked i inst hi hopen ((hsame.checkValueResult hopen).symm.trans hvalid)
  accept {s i inst p ret} h hi _ hA :=
    h.put (h.views i inst hi) (fun j instj hj => h.unique i j inst instj hi hj) fun _ hvalid => hA hvalid
  create h hview _ hnew := h.create hview hnew
  send h htype :=
    { views := h.views
      unique := h.unique
      locked := fun i inst hi hphase hvalid => (h.locked i inst hi hphase hvalid).send fun htype' => absurd htype' htype
      agreed := fun env henv htype' => by
        rcases List.mem_append.mp henv with henv | henv
        · exact (h.agreed env henv htype').send fun htype'' => absurd htype'' htype
        · exact absurd (List.mem_singleton.mp henv ▸ htype') htype }
  vote h hi hphase hvalid hsequence hdigest := h.vote hi hphase hvalid hsequence hdigest

theorem locked_start : Settled Locked {} := by
  have hnone : ∀ i : PbftInstanceIndex, ({} : Pbft).instances[i]? = none := fun _ => rfl
  refine ⟨⟨fun i inst hi => ?_, fun i j inst inst' hi => ?_, fun i inst hi => ?_, fun env henv => ?_⟩,
    fun i inst hi => ?_⟩
  · exact absurd ((hnone i).symm.trans hi) nofun
  · exact absurd ((hnone i).symm.trans hi) nofun
  · exact absurd ((hnone i).symm.trans hi) nofun
  · cases henv
  · exact absurd ((hnone i).symm.trans hi) nofun

theorem Settled.lockedRequest {value : String} (h : Settled Locked s) (hroomy : Roomy s) (hclear : NextClear s)
    (honly : OnlyVoted s (s.lastExeSeq + 1) (n.crypto value)) : Settled Locked (Pbft.request n now value s).1 := by
  refine h.request ballot_locked fun hdrop => hdrop.put (Int64.le_refl _) (fun j inst hj hseq => ?_) fun _ _ => honly
  -- what is left of the next sequence is committed
  obtain ⟨hj, hp⟩ := Table.filter_eq_some.mp hj
  have hseq : j.sequence = s.lastExeSeq + 1 := hseq.symm
  have hphase : ¬inst.phase.toNat < 3 := by
    simpa [hseq, lt_succ_of_roomy hroomy] using hp
  exact absurd (phase_commited (Nat.not_lt.mp hphase)) (hclear (j, inst) (Table.mem_toList.mpr hj) hseq)

theorem locked_run {events : List (Int64 × Event)} (h : Meets n (KeepsLock n) events) : Locked (run n events) := by
  have hrun : Shape n (Delivered events) (run n events) ∧ Settled Locked (run n events) := by
    refine run_induction (P := fun events s => Shape n (Delivered events) s ∧ Settled Locked s)
      ⟨shape_start, locked_start⟩ ?_ h
    rintro events ⟨now, e⟩ s ⟨hshape, hs⟩ hstep
    have hshape : Shape n (Delivered (events ++ [(now, e)])) s := hshape.mono fun _ => Delivered.mono
    refine ⟨hshape.step hstep.roomy fun _ _ => delivered_last,
      hs.step ballot_locked hshape hstep.roomy (fun _ _ => delivered_last) ?_ ?_⟩
    · rintro env checkValue rfl hcheck htype hdigest i hindex t hsent rfl
      have honly := hstep.2 ⟨htype, hcheck⟩
      rw [← hdigest] at honly
      simp only [indexOf, htype, Option.some.injEq] at hindex
      rw [← hindex]
      exact honly.of_sent hsent
    · rintro value rfl
      exact hs.lockedRequest hstep.1 hstep.2.1 hstep.2.2
  exact hrun.2.holds

end Pbft

/-! ### The network -/

namespace Network
open Interleave (eventsOf)
variable {N : Network} {validators : ValidatorSet} {schedule : Schedule} {a b : Address}

theorem Fixed.keepsDecided (h : N.Fixed validators schedule) (ha : a ∈ N.honest)
    (hroomy : Pbft.Meets (N.node a) (fun s _ => Pbft.Roomy s) (eventsOf a schedule)) :
    Pbft.Meets (N.node a) Pbft.KeepsDecided (eventsOf a schedule) := by
  intro before e after heq
  have hhere := hroomy before e after heq
  cases before with
  | nil =>
    obtain ⟨hfirst, -⟩ := h a ha e after heq
    rw [hfirst]
    exact ⟨hhere, fun _ => nofun⟩
  | cons first before =>
    obtain ⟨-, hrest⟩ := h a ha first _ heq
    have hnot := hrest e (List.mem_append_right _ List.mem_cons_self)
    cases he : e.2 with
    | updateValidators set proof => exact absurd he (hnot set proof)
    | _ => exact hhere

theorem Fixed.validators_eq {now : Int64} {set : ValidatorSet} {proof : ProofText} (h : N.Fixed validators schedule)
    (ha : a ∈ N.honest) (hmem : (now, Pbft.Event.updateValidators set proof) ∈ eventsOf a schedule) :
    set = validators := by
  cases heq : eventsOf a schedule with
  | nil =>
    rw [heq] at hmem
    cases hmem
  | cons first rest =>
    obtain ⟨hfirst, hrest⟩ := h a ha first rest heq
    rw [heq] at hmem
    rcases List.mem_cons.mp hmem with rfl | hmem
    · cases hfirst
      rfl
    · exact absurd rfl (hrest _ hmem set proof)

theorem Fixed.quorum {c : Commited} (h : N.Fixed validators schedule) (hunforgeable : N.Unforgeable schedule)
    (hroomy : ∀ b ∈ N.honest, Pbft.Meets (N.node b) (fun s _ => Pbft.Roomy s) (eventsOf b schedule))
    (ha : a ∈ N.honest) (hc : c ∈ (N.replica schedule a).commited) :
    ∃ F ⊆ validators.addresses.toFinset, getQuorumSize validators.addresses.toFinset.card + 1 ≤ F.card ∧
        ∀ b ∈ F, b ∈ N.honest → (N.replica schedule b).Voted c.requestSeq (N.crypto c.value) := by
  have hsupported := ((decided_run (h.keepsDecided ha (hroomy a ha))).executed c hc).2
  refine quorum_of_supported ?_ hsupported (N.node_keys a ha) (N.node_crypto a ha)
    fun env henv => hunforgeable.delivered hroomy ha henv
  rcases validators_run (hroomy a ha) c hc with hnone | ⟨now, set, proof, hmem, hset⟩
  · exact absurd hnone hsupported.validators_ne
  · rw [hset, h.validators_eq ha hmem]

/-- Honest nodes execute one value of a sequence, in whatever views, if none of them votes for a second value of
a sequence. -/
theorem agreement_of_locks (N : Network) (hcrypto : Function.Injective N.crypto) (validators : ValidatorSet)
    (hfew : N.FewFaulty validators) (schedule : Schedule) (hfixed : N.Fixed validators schedule)
    (hunforgeable : N.Unforgeable schedule)
    (hlock : ∀ a ∈ N.honest, Pbft.Meets (N.node a) (Pbft.KeepsLock (N.node a)) (eventsOf a schedule))
    (a b : Address) (ha : a ∈ N.honest) (hb : b ∈ N.honest) (c c' : Commited)
    (hc : c ∈ (N.replica schedule a).commited) (hc' : c' ∈ (N.replica schedule b).commited)
    (hsequence : c.requestSeq = c'.requestSeq) : c.value = c'.value := by
  have hroomy : ∀ a ∈ N.honest, Pbft.Meets (N.node a) (fun s _ => Pbft.Roomy s) (eventsOf a schedule) :=
    fun a ha => (hlock a ha).mono fun _ _ => Pbft.KeepsLock.roomy
  obtain ⟨F, hF, hcard, hvoted⟩ := hfixed.quorum hunforgeable hroomy ha hc
  obtain ⟨F', hF', hcard', hvoted'⟩ := hfixed.quorum hunforgeable hroomy hb hc'
  obtain ⟨voter, hvoterF, hvoterF', hvoter⟩ := hfew.common hF hF' hcard hcard'
  obtain ⟨env, henv, htype, hseq, hdigest⟩ := hvoted voter hvoterF hvoter
  obtain ⟨env', henv', htype', hseq', hdigest'⟩ := hvoted' voter hvoterF' hvoter
  have hlocked := locked_run (hlock voter hvoter)
  have hsame := hlocked.agreed env henv htype env' henv' htype' (by rw [hseq', hseq, hsequence])
  exact hcrypto (by rw [← hdigest, ← hdigest', hsame])

/-! ### Fixed runs -/

def fourValidators : ValidatorSet := ⟨["a", "b", "c", "d"], four_size_lt⟩

/-- A message of `a` comes to `b`, where its value is found valid. -/
def comes (b a : Address) (pbft : Protocol.Pbft) : Address × Int64 × Pbft.Event :=
  (b, 1, .recv (signedAs a { pbft with roundNumber := 1 }) .valid)

def prePrepare (view id : Int64) (value : String) : Protocol.Pbft :=
  { type := .prePrepare
    prePrepare := some
      { viewNumber := view, sequence := 2, replicaId := id, value := value, valueDigest := "#" ++ value } }

def prepare (view id : Int64) (value : String) : Protocol.Pbft :=
  { type := .prepare
    prepare := some { viewNumber := view, sequence := 2, replicaId := id, valueDigest := "#" ++ value } }

def commit (view id : Int64) (value : String) : Protocol.Pbft :=
  { type := .commit
    commit := some { viewNumber := view, sequence := 2, replicaId := id, valueDigest := "#" ++ value } }

/-- The `VIEW-CHANGE` of a validator that has prepared `x`. -/
def viewChange (a : Address) (id : Int64) : PbftEnv :=
  signedAs a
    { type := .viewChange
      viewChange := some { viewNumber := 1, sequence := 1, replicaId := id, prepredValueDigest := "#x" } }

/-- The `NEW-VIEW` of the second validator. -/
def newView : Protocol.Pbft :=
  { type := .newView
    newView := some
      { viewNumber := 1, replicaId := 1, sequence := 1
        viewChanges := [viewChange "b" 1, viewChange "c" 2, viewChange "d" 3] } }

/-- The value `x` is prepared everywhere, and the votes for it come to its proposer only. -/
def firstView : Schedule :=
  [("a", fourArrive), ("c", fourArrive), ("d", fourArrive), ("a", 1, .request "x"),
    comes "c" "a" (prePrepare 0 0 "x"), comes "d" "a" (prePrepare 0 0 "x"),
    comes "c" "c" (prepare 0 2 "x"), comes "c" "d" (prepare 0 3 "x"),
    comes "d" "c" (prepare 0 2 "x"), comes "d" "d" (prepare 0 3 "x"),
    comes "a" "c" (prepare 0 2 "x"), comes "a" "d" (prepare 0 3 "x"),
    comes "a" "a" (commit 0 0 "x"), comes "a" "c" (commit 0 2 "x"), comes "a" "d" (commit 0 3 "x")]

def secondView : Schedule :=
  [("c", 1, .txTimeout), ("d", 1, .txTimeout), comes "c" "b" newView, comes "d" "b" newView,
    comes "c" "b" (prePrepare 1 1 "y"), comes "d" "b" (prePrepare 1 1 "y"),
    comes "c" "c" (prepare 1 2 "y"), comes "c" "d" (prepare 1 3 "y"),
    comes "d" "c" (prepare 1 2 "y"), comes "d" "d" (prepare 1 3 "y"),
    comes "c" "b" (commit 1 1 "y"), comes "c" "c" (commit 1 2 "y"), comes "c" "d" (commit 1 3 "y")]

def knowsFour : List (Int64 × Pbft.Event) → Bool
  | (_, .updateValidators set .empty) :: rest => set.addresses == fourValidators.addresses &&
      rest.all fun e => match e.2 with | .updateValidators _ _ => false | _ => true
  | _ => false

theorem fixed_of_knowsFour {honest : Finset Address} {schedule : Schedule}
    (h : ∀ a ∈ honest, knowsFour (eventsOf a schedule) = true) : (plain honest).Fixed fourValidators schedule := by
  intro a ha e rest heq
  have hknows := h a ha
  rw [heq] at hknows
  unfold knowsFour at hknows
  split at hknows
  · rename_i heq'
    obtain ⟨rfl, rfl⟩ := List.cons.inj heq'
    obtain ⟨haddresses, hrest⟩ := Bool.and_eq_true_iff.mp hknows
    refine ⟨congrArg (Pbft.Event.updateValidators · .empty) (ValidatorSet.ext (eq_of_beq haddresses)), ?_⟩
    intro e' he' set proof hset
    have hhere := List.all_eq_true.mp hrest e' he'
    rw [hset] at hhere
    cases hhere
  · cases hknows

def genuineAt (honest : Finset Address) (before : Schedule) (e : Address × Int64 × Pbft.Event) : Bool :=
  match e.2.2 with
  | .recv env _ => genuineHere honest ((plain honest).replica before) env
  | _ => true

theorem unforgeable_of_get {honest : Finset Address} {schedule : Schedule}
    (h : ∀ k : Fin schedule.length, genuineAt honest (schedule.take k) (schedule.get k) = true) :
    (plain honest).Unforgeable schedule := by
  refine Interleave.Each.of_get fun k _ env checkValue he => genuine_of_here ?_
  have hk := h k
  simp only [genuineAt, he] at hk
  exact hk

/-- One validator of four is not honest; two honest ones execute different values of one sequence. -/
theorem agreement_broken :
    ∃ N : Network, Function.Injective N.crypto ∧ N.FewFaulty fourValidators ∧ ∃ schedule,
      N.Fixed fourValidators schedule ∧ N.Unforgeable schedule ∧ ∃ a ∈ N.honest, ∃ b ∈ N.honest,
        ∃ c ∈ (N.replica schedule a).commited, ∃ c' ∈ (N.replica schedule b).commited,
          c.requestSeq = c'.requestSeq ∧ c.value ≠ c'.value := by
  refine ⟨plain {"a", "c", "d"}, plain_injective _, by unfold FewFaulty; decide, firstView ++ secondView,
    fixed_of_knowsFour (by decide +kernel), unforgeable_of_get (by decide +kernel), "a", by decide, "c", by decide, ?_⟩
  have hx : ((plain {"a", "c", "d"}).replica (firstView ++ secondView) "a").commited.any
      (fun c => c.requestSeq == 2 && c.value == "x") = true := by decide +kernel
  have hy : ((plain {"a", "c", "d"}).replica (firstView ++ secondView) "c").commited.any
      (fun c => c.requestSeq == 2 && c.value == "y") = true := by decide +kernel
  obtain ⟨c, hc, hx⟩ := List.any_eq_true.mp hx
  obtain ⟨c', hc', hy⟩ := List.any_eq_true.mp hy
  simp only [Bool.and_eq_true, beq_iff_eq] at hx hy
  refine ⟨c, hc, c', hc', hx.1.trans hy.1.symm, ?_⟩
  rw [hx.2, hy.2]
  decide

/-- The votes for `x` come to two honest validators. -/
def sameView : Schedule :=
  firstView ++ [comes "c" "a" (commit 0 0 "x"), comes "c" "c" (commit 0 2 "x"), comes "c" "d" (commit 0 3 "x")]

theorem agreement_of_locks_four : ∃ c ∈ ((plain {"a", "c", "d"}).replica sameView "a").commited,
      ∃ c' ∈ ((plain {"a", "c", "d"}).replica sameView "c").commited,
        c.requestSeq = 2 ∧ c'.requestSeq = 2 ∧ c.value = c'.value := by
  have hx : ((plain {"a", "c", "d"}).replica sameView "a").commited.any (fun c => c.requestSeq == 2) = true := by
    decide +kernel
  have hy : ((plain {"a", "c", "d"}).replica sameView "c").commited.any (fun c => c.requestSeq == 2) = true := by
    decide +kernel
  obtain ⟨c, hc, hx⟩ := List.any_eq_true.mp hx
  obtain ⟨c', hc', hy⟩ := List.any_eq_true.mp hy
  have hx := eq_of_beq hx
  have hy := eq_of_beq hy
  have hlock : ∀ a ∈ ({"a", "c", "d"} : Finset Address), ∀ k : Fin (eventsOf a sameView).length,
      Pbft.KeepsLock (plainNode a) (run (plainNode a) ((eventsOf a sameView).take k))
        ((eventsOf a sameView).get k).2 := by decide +kernel
  exact ⟨c, hc, c', hc', hx, hy, agreement_of_locks (plain {"a", "c", "d"}) (plain_injective _) fourValidators
    (by unfold FewFaulty; decide) sameView (fixed_of_knowsFour (by decide +kernel))
    (unforgeable_of_get (by decide +kernel)) (fun a ha => meets_of_get (hlock a ha)) "a" "c" (by decide) (by decide)
    c c' hc hc' (hx.trans hy.symm)⟩

end Network
end OpenSesame
