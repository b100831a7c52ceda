import OpenSesame.Theorems.Consensus.Check

/-! # Prepared sets and `NEW-VIEW` messages

`CheckViewChangeWithRawValue` never asks for the type of the envelopes in a prepared set, nor
whether the `PRE-PREPARE` is of the primary, and `OnNewView` neither asks who sent the message nor
checks the envelopes in it. -/

namespace OpenSesame
open Option
open Protocol
namespace Pbft

/-! ### Prepared sets -/

variable {validators : ValidatorMap} {l : List PbftEnv} {k : Keys}

theorem checkPrepares_iff {prePrepare : PbftPrePrepare} :
    checkPrepares k validators prePrepare l = true ↔ ∀ env ∈ l, checkMessageItem k validators env = true ∧
      env.pbft.getPrepare.viewNumber = prePrepare.viewNumber ∧
      env.pbft.getPrepare.sequence = prePrepare.sequence ∧
      env.pbft.getPrepare.valueDigest = prePrepare.valueDigest := by
  induction l with
  | nil => exact ⟨fun _ => nofun, fun _ => rfl⟩
  | cons env l ih => simp only [checkPrepares, Bool.and_eq_true, beq_iff_eq, ih, List.forall_mem_cons, and_assoc]

theorem checkViewChange_iff {viewChangeEnv prePrepareEnv : PbftEnv} :
    checkViewChangeWithRawValue k validators ⟨some viewChangeEnv, some ⟨some prePrepareEnv, l⟩⟩ = true ↔
      viewChangeEnv.pbft.type = .viewChange ∧ checkMessageItem k validators viewChangeEnv = true ∧
      checkMessageItem k validators prePrepareEnv = true ∧
      checkPrepares k validators prePrepareEnv.pbft.getPrePrepare l = true ∧
      getQuorumSize validators.size ≤ (l.map fun e => e.pbft.getPrepare.replicaId).toFinset.card ∧
      viewChangeEnv.pbft.getViewChange.prepredValueDigest = prePrepareEnv.pbft.getPrePrepare.valueDigest := by
  simp only [checkViewChangeWithRawValue, Bool.and_eq_true, beq_iff_eq, Bool.not_eq_true',
    decide_eq_false_iff_not, not_lt, and_assoc]

/-- The set holds a certificate for the view, sequence and digest of its `PRE-PREPARE`: that envelope is one of
the primary of the view, and enough validators have signed a `PREPARE` for the same. -/
structure Certified (k : Keys) (validators : ValidatorMap) (prePrepareEnv : PbftEnv) (l : List PbftEnv) :
    Prop where
  prePrepared : prePrepareEnv.pbft.type = .prePrepare ∧
    SignedBy k validators (primaryOf validators.size prePrepareEnv.pbft.getPrePrepare.viewNumber) prePrepareEnv
  prepared : ∃ S : Finset Int64, getQuorumSize validators.size ≤ S.card ∧ ∀ id ∈ S, ∃ env ∈ l,
    env.pbft.type = .prepare ∧ SignedBy k validators id env ∧ ∃ prepare, env.pbft.prepare = some prepare ∧
      prepare.viewNumber = prePrepareEnv.pbft.getPrePrepare.viewNumber ∧
      prepare.sequence = prePrepareEnv.pbft.getPrePrepare.sequence ∧
      prepare.valueDigest = prePrepareEnv.pbft.getPrePrepare.valueDigest

/-- The replica ids of the envelopes of type `PREPARE`. -/
def prepareIds (l : List PbftEnv) : Finset Int64 :=
  ((l.filter fun env => env.pbft.type = .prepare).map fun env => env.pbft.getPrepare.replicaId).toFinset

theorem mem_prepareIds {id : Int64} :
    id ∈ prepareIds l ↔ ∃ env ∈ l, env.pbft.type = .prepare ∧ env.pbft.getPrepare.replicaId = id := by
  simp only [prepareIds, List.mem_toFinset, List.mem_map, List.mem_filter, decide_eq_true_eq, and_assoc]

variable {env : PbftEnv}

theorem prepare_of_check (h : checkMessageItem k validators env = true) (htype : env.pbft.type = .prepare) :
    ∃ prepare, env.pbft.prepare = some prepare ∧ SignedBy k validators prepare.replicaId env := by
  obtain ⟨id, hid, hsigned⟩ := signedBy_of_check h
  simp only [replicaIdOf, htype, map_eq_some_iff] at hid
  obtain ⟨prepare, hprepare, rfl⟩ := hid
  exact ⟨prepare, hprepare, hsigned⟩

theorem getPrepare_of_some {pbft : Protocol.Pbft} {prepare : PbftPrepare} (h : pbft.prepare = some prepare) :
    pbft.getPrepare = prepare := by
  rw [Protocol.Pbft.getPrepare, h]
  rfl

/-- A prepared set that is accepted is a certificate if and only if its first envelope is of type `PRE-PREPARE`
and names the primary of its view, and the envelopes of type `PREPARE` name enough replicas. -/
theorem accepted_set_certified (k : Keys) (validators : ValidatorMap) (viewChangeEnv prePrepareEnv : PbftEnv)
    (l : List PbftEnv)
    (h : checkViewChangeWithRawValue k validators ⟨some viewChangeEnv, some ⟨some prePrepareEnv, l⟩⟩ = true) :
    Certified k validators prePrepareEnv l ↔ prePrepareEnv.pbft.type = .prePrepare ∧
      prePrepareEnv.pbft.getPrePrepare.replicaId =
        primaryOf validators.size prePrepareEnv.pbft.getPrePrepare.viewNumber ∧
      getQuorumSize validators.size ≤ (prepareIds l).card := by
  obtain ⟨-, -, hprePrepare, hprepares, -⟩ := checkViewChange_iff.mp h
  rw [checkPrepares_iff] at hprepares
  constructor
  · rintro ⟨⟨htype, hprimary⟩, S, hS, hsigned⟩
    refine ⟨htype, (prePrepare_of_check hprePrepare htype).unique hprimary, hS.trans (Finset.card_le_card ?_)⟩
    intro id hid
    obtain ⟨env, henv, htype', hby, prepare, hprepare, -⟩ := hsigned id hid
    obtain ⟨prepare', hprepare', hby'⟩ := prepare_of_check (hprepares env henv).1 htype'
    obtain rfl : prepare = prepare' := some.inj (hprepare.symm.trans hprepare')
    refine mem_prepareIds.mpr ⟨env, henv, htype', ?_⟩
    rw [getPrepare_of_some hprepare]
    exact hby'.unique hby
  · rintro ⟨htype, hprimary, hcard⟩
    refine ⟨⟨htype, hprimary ▸ prePrepare_of_check hprePrepare htype⟩, prepareIds l, hcard, ?_⟩
    intro id hid
    obtain ⟨env, henv, htype', rfl⟩ := mem_prepareIds.mp hid
    obtain ⟨hcheck, hview, hseq, hdigest⟩ := hprepares env henv
    obtain ⟨prepare, hprepare, hby⟩ := prepare_of_check hcheck htype'
    rw [getPrepare_of_some hprepare] at hview hseq hdigest ⊢
    exact ⟨env, henv, htype', hby, prepare, hprepare, hview, hseq, hdigest⟩

def fourValidators : ValidatorMap := Consensus.validatorMap ["a", "b", "c", "d"]

/-- A view change of the fourth validator for the view 2. -/
def viewChangeOfD (digest : String) : PbftEnv :=
  signedAs "d"
    { type := .viewChange
      viewChange := some { viewNumber := 2, sequence := 4, replicaId := 3, prepredValueDigest := digest } }

/-- An envelope of type `COMMIT` of the fourth validator, with a `PRE-PREPARE` in it. -/
def forgedPrePrepare : PbftEnv :=
  signedAs "d"
    { type := .commit, commit := some { replicaId := 3 }
      prePrepare := some { viewNumber := 1, sequence := 5, replicaId := 1, value := "x", valueDigest := "#x" } }

/-- An envelope of type `COMMIT` of the fourth validator, with a `PREPARE` of another replica in it. -/
def forgedPrepare (replicaId : Int64) : PbftEnv :=
  signedAs "d"
    { type := .commit, commit := some { replicaId := 3 }
      prepare := some { viewNumber := 1, sequence := 5, replicaId := replicaId, valueDigest := "#x" } }

/-- The fourth validator alone makes a prepared set for a value that nobody has prepared. -/
theorem forged_set_accepted :
    checkViewChangeWithRawValue plainKeys fourValidators
      ⟨some (viewChangeOfD "#x"), some ⟨some forgedPrePrepare, [forgedPrepare 0, forgedPrepare 2]⟩⟩ = true ∧
    ¬Certified plainKeys fourValidators forgedPrePrepare [forgedPrepare 0, forgedPrepare 2] :=
  ⟨by decide +kernel, fun h => absurd h.prePrepared.1 (by decide)⟩

/-- The `PRE-PREPARE` of the primary of the view 1. -/
def honestPrePrepare : PbftEnv :=
  signedAs "b"
    { type := .prePrepare
      prePrepare := some { viewNumber := 1, sequence := 5, replicaId := 1, value := "x", valueDigest := "#x" } }

def honestPrepare (a : Address) (replicaId : Int64) : PbftEnv :=
  signedAs a
    { type := .prepare
      prepare := some { viewNumber := 1, sequence := 5, replicaId := replicaId, valueDigest := "#x" } }

theorem accepted_set_certified_honest :
    Certified plainKeys fourValidators honestPrePrepare [honestPrepare "a" 0, honestPrepare "c" 2] :=
  (accepted_set_certified plainKeys fourValidators (viewChangeOfD "#x") _ _ (by decide +kernel)).mpr
    (by decide +kernel)

/-! ### `NEW-VIEW` -/

theorem newViewReplicas_spec {n : PbftNode} {s : Pbft} {viewNumber : Int64}
    {ids : List Int64} (h : newViewReplicas n env s viewNumber l = some ids) :
    ∀ e ∈ l, e.pbft.getViewChange.viewNumber = viewNumber := by
  induction l generalizing ids with
  | nil => exact nofun
  | cons e l ih =>
    simp only [newViewReplicas] at h
    split at h
    · split at h
      · obtain ⟨ids', hids', -⟩ := map_eq_some_iff.mp h
        intro e' he'
        rcases List.mem_cons.mp he' with rfl | he'
        · exact Eq.symm ‹_›
        · exact ih hids' e' he'
      · cases h
    · cases h

theorem changeComplete_viewNumber {now v : Int64} {s : Pbft} : (s.changeComplete now v).viewNumber = s.viewNumber := by
  unfold changeComplete
  split <;> rfl

theorem onNewView_enters {n : PbftNode} {now : Int64} {s : Pbft}
    (h : (onNewView n now env s).1.viewNumber ≠ s.viewNumber) :
    (onNewView n now env s).1.viewNumber = env.pbft.getNewView.viewNumber ∧ ∀ e ∈ env.pbft.getNewView.viewChanges,
        e.pbft.getViewChange.viewNumber = env.pbft.getNewView.viewNumber := by
  revert h
  simp only [onNewView]
  split_ifs
  · exact fun h => absurd rfl h
  · exact fun h => absurd rfl h
  · exact fun h => absurd rfl h
  · split
    · exact fun h => absurd rfl h
    · rename_i hids
      split_ifs
      · exact fun h => absurd rfl h
      · exact fun _ => ⟨changeComplete_viewNumber, newViewReplicas_spec hids⟩

/-- The validators with a signature that verifies on one of these envelopes of type `VIEWCHANGE`. -/
def viewChangeSigners (k : Keys) (validators : ValidatorMap) (l : List PbftEnv) : Finset Int64 :=
  (l.filterMap fun env =>
    if env.pbft.type = .viewChange ∧ env.pbft.viewChange.isSome ∧
        k.verify env.pbft env.signature.signData env.signature.publicKey then
      (validators[k.encAddress env.signature.publicKey]?).filter fun id => decide (0 ≤ id)
    else none).toFinset

theorem mem_viewChangeSigners {id : Int64} :
    id ∈ viewChangeSigners k validators l ↔ ∃ env ∈ l, env.pbft.type = .viewChange ∧
      (∃ viewChange, env.pbft.viewChange = some viewChange) ∧ SignedBy k validators id env := by
  simp only [viewChangeSigners, List.mem_toFinset, List.mem_filterMap, ite_none_right_eq_some,
    filter_eq_some_iff, decide_eq_true_eq, isSome_iff_exists]
  constructor
  · rintro ⟨env, henv, ⟨htype, hsome, hverify⟩, hmember, hnonneg⟩
    exact ⟨env, henv, htype, hsome, hmember, hnonneg, hverify⟩
  · rintro ⟨env, henv, htype, hsome, hmember, hnonneg, hverify⟩
    exact ⟨env, henv, ⟨htype, hsome, hverify⟩, hmember, hnonneg⟩

/-- The message is one of the primary of view `v`, with view changes to `v` that more validators than the
quorum size have signed. -/
structure NewViewAuthentic (k : Keys) (validators : ValidatorMap) (v : Int64) (env : PbftEnv) : Prop where
  sender : SignedBy k validators (primaryOf validators.size v) env
  viewChanges : ∃ S : Finset Int64, getQuorumSize validators.size < S.card ∧ ∀ id ∈ S,
    ∃ e ∈ env.pbft.getNewView.viewChanges, e.pbft.type = .viewChange ∧ SignedBy k validators id e ∧
      ∃ viewChange, e.pbft.viewChange = some viewChange ∧ viewChange.viewNumber = v

/-- A `NEW-VIEW` message that takes a replica to a view is authentic if and only if it names the primary of that
view as its sender, and the signatures of enough view changes in it verify. -/
theorem newView_authentic (n : PbftNode) (now : Int64) (env : PbftEnv) (checkValue : CheckValueResult) (s : Pbft)
    (htype : env.pbft.type = .newView)
    (henters : (onRecv n now env checkValue s).1.viewNumber ≠ s.viewNumber) :
    NewViewAuthentic n.toKeys s.validators (onRecv n now env checkValue s).1.viewNumber env ↔
      env.pbft.getNewView.replicaId = primaryOf s.validators.size (onRecv n now env checkValue s).1.viewNumber ∧
      getQuorumSize s.validators.size <
        (viewChangeSigners n.toKeys s.validators env.pbft.getNewView.viewChanges).card := by
  have hcheck : checkMessageItem n.toKeys s.validators env = true := by
    by_contra hno
    exact henters (by rw [onRecv, if_neg hno])
  have hrecv : onRecv n now env checkValue s = onNewView n now env s := by
    simp only [onRecv, if_pos hcheck, htype]
  rw [hrecv] at henters ⊢
  obtain ⟨hview, hall⟩ := onNewView_enters henters
  obtain ⟨id, hid, hsigned⟩ := signedBy_of_check hcheck
  have hsender : SignedBy n.toKeys s.validators env.pbft.getNewView.replicaId env := by
    simp only [replicaIdOf, htype, map_eq_some_iff] at hid
    obtain ⟨newView, hsome, rfl⟩ := hid
    rwa [Protocol.Pbft.getNewView, hsome]
  rw [hview]
  constructor
  · rintro ⟨hprimary, S, hS, hS'⟩
    refine ⟨hsender.unique hprimary, hS.trans_le (Finset.card_le_card ?_)⟩
    intro id hid
    obtain ⟨e, he, htype', hby, viewChange, hsome, -⟩ := hS' id hid
    exact mem_viewChangeSigners.mpr ⟨e, he, htype', ⟨viewChange, hsome⟩, hby⟩
  · rintro ⟨hprimary, hcard⟩
    refine ⟨hprimary ▸ hsender, _, hcard, ?_⟩
    intro id hid
    obtain ⟨e, he, htype', ⟨viewChange, hsome⟩, hby⟩ := mem_viewChangeSigners.mp hid
    refine ⟨e, he, htype', hby, viewChange, hsome, ?_⟩
    have hv := hall e he
    rwa [Protocol.Pbft.getViewChange, hsome] at hv

/-- The second of four validators, before anything has happened. -/
def replicaB : Pbft := updateValidators (plainNode "b") ⟨["a", "b", "c", "d"], by decide⟩ .empty {}

/-- A `NEW-VIEW` message for the view 2, with view changes of the first three validators. -/
def newViewOf (sender : Address) (replicaId : Int64) (signers : List Address) : PbftEnv :=
  signedAs sender
    { type := .newView
      newView := some
        { viewNumber := 2, sequence := 1, replicaId := replicaId, prePrepare := none
          viewChanges := signers.zipIdx.map fun a => signedAs a.1
            { type := .viewChange
              viewChange := some { viewNumber := 2, sequence := 1, replicaId := Int64.ofNat a.2 } } } }

/-- The fourth validator takes a replica to the view 2, of which it is not the primary, without the signature of
anyone else. -/
theorem newView_forged :
    (onRecv (plainNode "b") 1 (newViewOf "d" 3 ["d", "d", "d"]) .valid replicaB).1.viewNumber = 2 ∧
    ¬NewViewAuthentic plainKeys replicaB.validators 2 (newViewOf "d" 3 ["d", "d", "d"]) := by
  refine ⟨by decide +kernel, fun h => ?_⟩
  have hmember := h.sender.member
  revert hmember
  decide +kernel

theorem newView_authentic_primary :
    NewViewAuthentic plainKeys replicaB.validators 2 (newViewOf "c" 2 ["a", "b", "c"]) := by
  have henters : (onRecv (plainNode "b") 1 (newViewOf "c" 2 ["a", "b", "c"]) .valid replicaB).1.viewNumber = 2 := by
    decide +kernel
  have h := newView_authentic (plainNode "b") 1 (newViewOf "c" 2 ["a", "b", "c"]) .valid replicaB rfl
    (by decide +kernel)
  rw [henters] at h
  exact h.mpr (by decide +kernel)

end Pbft
end OpenSesame
