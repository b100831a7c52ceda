import OpenSesame.Glue.Site
import OpenSesame.Theorems.Consensus.Ballot
import OpenSesame.Theorems.Consensus.Network
import OpenSesame.Theorems.Ledger.Chain

/-! # The sequence of a consensus value

`CheckValue` compares the sequence inside a value with the last closed ledger, and `OnPrePrepare`
compares the sequence of its message with the water marks; nothing compares the two. -/

namespace OpenSesame
open Pbft List Option
open Protocol
variable {env : PbftEnv} {e : Event}

namespace Pbft
variable {n : PbftNode} {s t : Pbft} {i : PbftInstanceIndex} {inst : PbftInstance} {G : Int64 → String → Prop}

/-! ### What a replica vouches for -/

/-- Every value the replica has found valid, and every digest it has voted for, is good for its sequence. -/
structure Vouched (G : Int64 → String → Prop) (s : Pbft) : Prop where
  opened : ∀ (i : PbftInstanceIndex) inst, s.instances[i]? = some inst → inst.phase ≠ .none →
    inst.checkValueResult = .valid → G i.sequence inst.prePrepare.valueDigest
  voted : ∀ env ∈ s.sent, env.pbft.type = .commit → G env.pbft.getCommit.sequence env.pbft.getCommit.valueDigest

theorem Vouched.put (h : Vouched G s)
    (hinst : inst.phase ≠ .none → inst.checkValueResult = .valid → G i.sequence inst.prePrepare.valueDigest) :
    Vouched G (s.put i inst) where
  opened j instj hj hphase hvalid := by
    rcases Table.insert_eq_some hj with ⟨rfl, rfl⟩ | ⟨-, hj⟩
    · exact hinst hphase hvalid
    · exact h.opened j instj hj hphase hvalid
  voted := h.voted

theorem Vouched.send (h : Vouched G s)
    (henv : env.pbft.type = .commit → G env.pbft.getCommit.sequence env.pbft.getCommit.valueDigest) :
    Vouched G { s with sent := s.sent ++ [env] } where
  opened := h.opened
  voted env' henv' htype := by
    rcases mem_append.mp henv' with henv' | henv'
    · exact h.voted env' henv' htype
    · rw [mem_singleton.mp henv'] at htype ⊢
      exact henv htype

theorem ballot_vouched : Ballot n (fun _ i p ret => ret = .valid → G i.sequence p.valueDigest) (Vouched G) where
  erase h hsub hsent _ _ :=
    ⟨fun i inst hi => h.opened i inst (hsub i inst hi), fun env henv => h.voted env (hsent ▸ henv)⟩
  change {s i inst inst'} h hi hsame := by
    refine h.put fun hphase hvalid => ?_
    have hopen : inst.phase ≠ .none := fun hnone => hphase (hsame.unopened.mpr hnone)
    rw [hsame.prePrepare hopen]
    exact h.opened i inst hi hopen ((hsame.checkValueResult hopen).symm.trans hvalid)
  accept h _ _ hA := h.put fun _ hvalid => hA hvalid
  create {s i now} h _ _ hnew := by
    have hold : ¬s.instances.contains i = true := by
      rw [Table.contains_iff, hnew]
      exact nofun
    rw [createInstance, if_neg hold]
    have hput : Vouched G (s.put i (.new now)) := h.put fun hphase => absurd rfl hphase
    exact ⟨fun j instj hj => hput.opened j instj (Table.filter_eq_some.mp hj).1, hput.voted⟩
  send h htype := h.send fun htype' => absurd htype' htype
  vote h hi hphase hvalid hsequence hdigest := by
    have hgood := h.opened _ _ hi hphase hvalid
    rw [← hsequence, ← hdigest] at hgood
    exact h.send fun _ => hgood

/-- The condition on a step: besides what keeps an execution backed, a value that is found valid, or proposed, is good
for the sequence it comes with. -/
def KeepsVouched (G : Int64 → String → Prop) (n : PbftNode) (s : Pbft) : Event → Prop
  | .recv env .valid => Roomy s ∧ (env.pbft.type = .prePrepare ∧ checkMessageItem n.toKeys s.validators env = true →
        G env.pbft.getPrePrepare.sequence (n.crypto env.pbft.getPrePrepare.value))
  | .request value => Roomy s ∧ G (s.lastExeSeq + 1) (n.crypto value)
  | .updateValidators validators _ => Roomy s ∧ (s.validatorChanged validators = true → NothingWaits s)
  | _ => Roomy s

theorem KeepsVouched.decided (h : KeepsVouched G n s e) : KeepsDecided s e := by
  cases e with
  | recv env checkValue =>
    cases checkValue with
    | valid => exact h.1
    | _ => exact h
  | request => exact h.1
  | _ => exact h

theorem vouched_start : Settled (Vouched G) {} := by
  have hnone : ∀ i : PbftInstanceIndex, ({} : Pbft).instances[i]? = none := fun _ => rfl
  refine ⟨⟨fun i inst hi => ?_, nofun⟩, fun i inst hi => ?_⟩
  · exact absurd ((hnone i).symm.trans hi) nofun
  · exact absurd ((hnone i).symm.trans hi) nofun

theorem vouched_run {events : List (Int64 × Event)} (h : Meets n (KeepsVouched G n) events) :
    Vouched G (run n events) := by
  have hrun : Shape n (Delivered events) (run n events) ∧ Settled (Vouched G) (run n events) := by
    refine run_induction (P := fun events s => Shape n (Delivered events) s ∧ Settled (Vouched G) s)
      ⟨shape_start, vouched_start⟩ ?_ h
    rintro events ⟨now, e⟩ s ⟨hshape, hs⟩ hstep
    have hshape : Shape n (Delivered (events ++ [(now, e)])) s := hshape.mono fun _ => Delivered.mono
    refine ⟨hshape.step hstep.decided.roomy fun _ _ => delivered_last,
      hs.step ballot_vouched hshape hstep.decided.roomy (fun _ _ => delivered_last) ?_ ?_⟩
    · rintro env checkValue rfl hcheck htype hdigest i hindex t - rfl
      have hgood := hstep.2 ⟨htype, hcheck⟩
      rw [← hdigest] at hgood
      simp only [indexOf, htype, some.injEq] at hindex
      rw [← hindex]
      exact hgood
    · rintro value rfl
      exact hs.request ballot_vouched fun hdrop => hdrop.put fun _ _ => hstep.2
  exact hrun.2.holds

end Pbft

/-! ### Nodes -/

variable {e' : Pbft.Event}

namespace Site
variable {n : GlueNode} {s : Site} {events : List (Int64 × Event)} {now : Int64} {e : Event}

theorem run_concat (n : GlueNode) (s : Site) (events : List (Int64 × Event)) (e : Int64 × Event) :
    run n s (events ++ [e]) = step n (run n s events) e := foldl_concat ..

def consensusEvents (n : GlueNode) (s : Site) : List (Int64 × Event) → List (Int64 × Pbft.Event)
  | [] => []
  | e :: l => ((s.consensusEvent n e.1 e.2).map fun e' => (e.1, e')).toList ++ consensusEvents n (step n s e) l

theorem consensusEvents_append (n : GlueNode) (s : Site) (l l' : List (Int64 × Event)) :
    consensusEvents n s (l ++ l') = consensusEvents n s l ++ consensusEvents n (run n s l) l' := by
  induction l generalizing s with
  | nil => rfl
  | cons e l ih =>
    simp only [cons_append, consensusEvents, ih, append_assoc]
    rfl

theorem step_consensus (n : GlueNode) (s : Site) (e : Int64 × Event) : (step n s e).consensus =
      ((s.consensusEvent n e.1 e.2).map fun e' => Pbft.step n.consensus s.consensus (e.1, e')).getD s.consensus := by
  unfold step
  split
  · rename_i heq
    rw [heq]
    rfl
  · rename_i heq
    rw [heq]
    rfl
  · rename_i heq _
    rw [heq]
    rfl

theorem run_consensus (n : GlueNode) (ledger : LedgerManager) (events : List (Int64 × Event)) :
    (run n { ledger := ledger } events).consensus =
      Pbft.run n.consensus (consensusEvents n { ledger := ledger } events) := by
  induction events using reverseRecOn with
  | nil => rfl
  | append_singleton events e ih =>
    rw [run_concat, step_consensus, ih, consensusEvents_append]
    simp only [consensusEvents, append_nil]
    cases (run n { ledger := ledger } events).consensusEvent n e.1 e.2 with
    | none => rw [map_none, map_none, toList_none, append_nil, getD_none]
    | some e' => rw [map_some, map_some, toList_some, Pbft.run_concat, getD_some]

/-- Every event of a node meets `C`, as a condition on the node before it. -/
def Meets (n : GlueNode) (C : Site → Int64 → Event → Prop) (s : Site) (events : List (Int64 × Event)) : Prop :=
  ∀ before e after, events = before ++ e :: after → C (run n s before) e.1 e.2

theorem Meets.consensus {C : Site → Int64 → Event → Prop} {C' : Pbft → Pbft.Event → Prop} {ledger : LedgerManager}
    (h : Meets n C { ledger := ledger } events)
    (hC : ∀ s now e e', C s now e → s.consensusEvent n now e = some e' → C' s.consensus e') :
    Pbft.Meets n.consensus C' (consensusEvents n { ledger := ledger } events) := by
  induction events using reverseRecOn with
  | nil => exact meets_nil
  | append_singleton events e ih =>
    have hbefore := ih fun before e' after heq => h before e' (after ++ [e]) (by rw [heq, append_assoc, cons_append])
    rw [consensusEvents_append]
    simp only [consensusEvents, append_nil]
    cases he : (run n { ledger := ledger } events).consensusEvent n e.1 e.2 with
    | none => rwa [map_none, toList_none, append_nil]
    | some e' =>
      rw [map_some, toList_some]
      refine hbefore.concat ?_
      rw [← run_consensus]
      exact hC _ _ _ _ (h events e [] rfl) he

theorem mem_consensusEvents (h : (now, e') ∈ consensusEvents n s events) :
    ∃ t e, (now, e) ∈ events ∧ consensusEvent n t now e = some e' := by
  induction events generalizing s with
  | nil => cases h
  | cons first l ih =>
    rcases mem_append.mp h with h | h
    · rw [Option.mem_toList, map_eq_some_iff] at h
      obtain ⟨_, he, heq⟩ := h
      cases heq
      exact ⟨s, first.2, mem_cons_self, he⟩
    · obtain ⟨t, e, hmem, he⟩ := ih h
      exact ⟨t, e, mem_cons_of_mem _ hmem, he⟩

theorem consensusEvent_recv {checkValue : CheckValueResult}
    (h : s.consensusEvent n now e = some (.recv env checkValue)) : ∃ preProcessed, e = .recv env preProcessed ∧
      checkValue = GlueManager.checkValue n now preProcessed env.pbft.getPrePrepare.value s.ledger := by
  cases e with
  | recv env' preProcessed =>
    cases h
    exact ⟨preProcessed, rfl, rfl⟩
  | startConsensus =>
    simp only [consensusEvent] at h
    split at h <;> cases h
  | _ => cases h

theorem consensusEvent_updateValidators {validators : ValidatorSet} {proof : ProofText}
    (h : s.consensusEvent n now e = some (.updateValidators validators proof)) :
    e = .updateValidators validators proof := by
  cases e with
  | updateValidators =>
    cases h
    rfl
  | startConsensus =>
    simp only [consensusEvent] at h
    split at h <;> cases h
  | _ => cases h

theorem consensusEvent_request {value : String} (h : s.consensusEvent n now e = some (.request value)) :
    ∃ lastConsValue preProcessed proposal, e = .startConsensus lastConsValue preProcessed proposal ∧
      value = GlueManager.startConsensus n now lastConsValue preProcessed proposal s.ledger := by
  cases e with
  | startConsensus lastConsValue preProcessed proposal =>
    simp only [consensusEvent] at h
    split at h
    · cases h
      exact ⟨lastConsValue, preProcessed, proposal, rfl, rfl⟩
    · cases h
  | _ => cases h

end Site

namespace GlueManager
variable {n : GlueNode} {s : LedgerManager} {now : Int64} {preProcessed : Bool} {value : String}

theorem checkValue_valid (h : checkValue n now preProcessed value s = .valid) :
    (n.parseValue value).1.ledgerSeq = s.getLastClosedLedger.seq + 1 := by
  simp only [checkValue] at h
  split at h
  · cases h
  · cases hret : checkValueHelper n.ledger s (n.parseValue value).1 now with
    | valid => exact (LedgerManager.checkValueHelper_valid hret).1
    | _ =>
      rw [hret] at h
      cases h

theorem startConsensus_seq (n : GlueNode) (now : Int64) (lastConsValue : String) (preProcessed : Bool)
    (proposal : Protocol.ConsensusRequest) (s : LedgerManager) :
    (n.parseValue (startConsensus n now lastConsValue preProcessed proposal s)).1.ledgerSeq =
      s.getLastClosedLedger.seq + 1 := by
  unfold startConsensus
  split
  · rename_i hvalid
    rw [n.parse_serialize]
    exact checkValue_valid hvalid.2
  · exact n.parse_serialize _

end GlueManager

/-! ### The network -/

variable {now : Int64}

namespace Site

/-- The condition on an event: besides what keeps an execution backed, a `PRE-PREPARE` that is found valid is for the
next ledger, and a leader proposes when its consensus is as far as its ledger. -/
def KeepsSequence (n : GlueNode) (s : Site) (now : Int64) : Event → Prop
  | .recv env preProcessed => Pbft.Roomy s.consensus ∧
      (env.pbft.type = .prePrepare ∧ checkMessageItem n.consensus.toKeys s.consensus.validators env = true ∧
          GlueManager.checkValue n now preProcessed env.pbft.getPrePrepare.value s.ledger = .valid →
        env.pbft.getPrePrepare.sequence = s.ledger.getLastClosedLedger.seq + 1)
  | .startConsensus _ _ _ => Pbft.Roomy s.consensus ∧ s.consensus.lastExeSeq = s.ledger.getLastClosedLedger.seq
  | .updateValidators validators _ => Pbft.Roomy s.consensus ∧
      (s.consensus.validatorChanged validators = true → Pbft.NothingWaits s.consensus)
  | _ => Pbft.Roomy s.consensus

instance (s : Pbft) : Decidable (Pbft.NothingWaits s) :=
  decidable_of_iff (∀ p ∈ s.instances.toList, s.lastExeSeq < p.1.sequence → p.2.phase ≠ .commited)
    ⟨fun h i inst hi => h (i, inst) (Table.mem_toList.mpr hi), fun h p hp => h p.1 p.2 (Table.mem_toList.mp hp)⟩

instance (n : GlueNode) (s : Site) (now : Int64) : (e : Event) → Decidable (KeepsSequence n s now e)
  | .recv _ _ => inferInstanceAs (Decidable (_ ∧ (_ → _)))
  | .startConsensus _ _ _ => inferInstanceAs (Decidable (_ ∧ _))
  | .timer => inferInstanceAs (Decidable (Pbft.Roomy s.consensus))
  | .txTimeout => inferInstanceAs (Decidable (Pbft.Roomy s.consensus))
  | .respondTimer _ => inferInstanceAs (Decidable (Pbft.Roomy s.consensus))
  | .updateValidators _ _ => inferInstanceAs (Decidable (_ ∧ (_ → _)))
  | .ledger _ => inferInstanceAs (Decidable (Pbft.Roomy s.consensus))

variable {n : GlueNode}

theorem meets_of_get {C : Site → Int64 → Event → Prop} {s : Site} {events : List (Int64 × Event)}
    (h : ∀ k : Fin events.length, C (run n s (events.take k)) (events.get k).1 (events.get k).2) :
    Meets n C s events := by
  rintro before e after rfl
  have hk := h ⟨before.length, by simp⟩
  simpa using hk

def ForSequence (crypto : String → String) (parseValue : String → Protocol.ConsensusRequest × Bool) (sequence : Int64)
    (digest : String) : Prop :=
  ∃ value, crypto value = digest ∧ (parseValue value).1.ledgerSeq = sequence

theorem KeepsSequence.roomy {s : Site} (h : KeepsSequence n s now e) : Pbft.Roomy s.consensus := by
  cases e with
  | recv => exact h.1
  | startConsensus => exact h.1
  | updateValidators => exact h.1
  | _ => exact h

theorem KeepsSequence.vouched {s : Site} (h : KeepsSequence n s now e) (he : s.consensusEvent n now e = some e') :
    Pbft.KeepsVouched (ForSequence n.consensus.crypto n.parseValue) n.consensus s.consensus e' := by
  cases e' with
  | recv env checkValue =>
    obtain ⟨preProcessed, rfl, rfl⟩ := consensusEvent_recv he
    cases hvalid : GlueManager.checkValue n now preProcessed env.pbft.getPrePrepare.value s.ledger with
    | valid =>
      refine ⟨h.1, fun ⟨htype, hcheck⟩ => ⟨_, rfl, ?_⟩⟩
      rw [h.2 ⟨htype, hcheck, hvalid⟩]
      exact GlueManager.checkValue_valid hvalid
    | _ => exact h.1
  | request value =>
    obtain ⟨lastConsValue, preProcessed, proposal, rfl, rfl⟩ := consensusEvent_request he
    refine ⟨h.1, _, rfl, ?_⟩
    rw [h.2]
    exact GlueManager.startConsensus_seq n now lastConsValue preProcessed proposal s.ledger
  | updateValidators validators proof =>
    obtain rfl := consensusEvent_updateValidators he
    exact h
  | _ => exact h.roomy

end Site

namespace SiteNetwork
open Interleave (eventsOf)
variable {N : SiteNetwork} {schedule : Schedule} {a : Address}

def consensusEvents (N : SiteNetwork) (schedule : Schedule) (a : Address) : List (Int64 × Pbft.Event) :=
  Site.consensusEvents (N.site a) { ledger := N.start a } (eventsOf a schedule)

theorem after_consensus (N : SiteNetwork) (schedule : Schedule) (a : Address) :
    (N.after schedule a).consensus = run (N.node a) (N.consensusEvents schedule a) := by
  rw [after, Site.run_consensus, N.site_node]
  rfl

theorem consensusEvents_append (N : SiteNetwork) (before after : Schedule) (a : Address) :
    ∃ more, N.consensusEvents (before ++ after) a = N.consensusEvents before a ++ more := by
  rw [consensusEvents, Interleave.eventsOf_append, Site.consensusEvents_append]
  exact ⟨_, rfl⟩

theorem mem_consensusEvents (h : (now, e') ∈ N.consensusEvents schedule a) :
    ∃ s e, (a, now, e) ∈ schedule ∧ Site.consensusEvent (N.site a) s now e = some e' := by
  obtain ⟨s, e, hmem, he⟩ := Site.mem_consensusEvents h
  exact ⟨s, e, Interleave.mem_eventsOf.mp hmem, he⟩

theorem Unforgeable.delivered (h : N.Unforgeable schedule)
    (hroomy : ∀ b ∈ N.honest, Pbft.Meets (N.node b) (fun s _ => Pbft.Roomy s) (N.consensusEvents schedule b))
    (ha : a ∈ N.honest) (henv : Pbft.Delivered (N.consensusEvents schedule a) env) :
    N.Genuine (fun b => (N.after schedule b).consensus) env := by
  obtain ⟨now, checkValue, hmem⟩ := henv
  obtain ⟨s, e, hmem, he⟩ := mem_consensusEvents hmem
  obtain ⟨preProcessed, rfl, -⟩ := Site.consensusEvent_recv he
  obtain ⟨before, after, rfl⟩ := append_of_mem hmem
  refine Network.Genuine.mono (h before a _ after rfl ha env preProcessed rfl) fun b hb e he => ?_
  obtain ⟨more, hmore⟩ := N.consensusEvents_append before ((a, now, .recv env preProcessed) :: after) b
  have hroomy := hroomy b hb
  rw [after_consensus] at he ⊢
  rw [hmore] at hroomy ⊢
  exact mem_sent_append hroomy he

/-- What an honest node executes is for the sequence it is executed with. -/
theorem executed_for_sequence (N : SiteNetwork) (hcrypto : Function.Injective N.crypto) (schedule : Schedule)
    (hfew : N.FewFaulty schedule) (hunforgeable : N.Unforgeable schedule)
    (hkeeps : ∀ a ∈ N.honest,
      Site.Meets (N.site a) (Site.KeepsSequence (N.site a)) { ledger := N.start a } (eventsOf a schedule))
    (a : Address) (ha : a ∈ N.honest) (c : Commited) (hc : c ∈ (N.after schedule a).consensus.commited) :
    (N.parseValue c.value).1.ledgerSeq = c.requestSeq := by
  have hvouched : ∀ b ∈ N.honest, Pbft.Meets (N.node b)
      (Pbft.KeepsVouched (Site.ForSequence N.crypto N.parseValue) (N.node b)) (N.consensusEvents schedule b) := by
    intro b hb
    have hmeets := (hkeeps b hb).consensus fun s now e e' h he => h.vouched he
    rw [N.site_node, N.site_parseValue b hb, N.node_crypto b hb] at hmeets
    exact hmeets
  have hroomy : ∀ b ∈ N.honest, Pbft.Meets (N.node b) (fun s _ => Pbft.Roomy s) (N.consensusEvents schedule b) :=
    fun b hb => (hvouched b hb).mono fun _ _ h => h.decided.roomy
  rw [after_consensus] at hc
  have hsupported := ((decided_run ((hvouched a ha).mono fun _ _ => Pbft.KeepsVouched.decided)).executed c hc).2
  -- the validators at the execution came with an `UpdateValidators`
  obtain ⟨validators, hvalidators, hfew⟩ : ∃ validators : ValidatorSet,
      c.validators = Consensus.validatorMap validators.addresses ∧ N.toNetwork.FewFaulty validators := by
    rcases validators_run (hroomy a ha) c hc with hnone | ⟨now, validators, proof, hmem, hset⟩
    · exact absurd hnone hsupported.validators_ne
    · obtain ⟨s, e, hmem, he⟩ := mem_consensusEvents hmem
      obtain rfl := Site.consensusEvent_updateValidators he
      exact ⟨validators, hset, hfew a ha now validators proof hmem⟩
  obtain ⟨F, hF, hcard, hvoted⟩ := Network.quorum_of_supported hvalidators hsupported (N.node_keys a ha)
    (N.node_crypto a ha) fun env henv => hunforgeable.delivered hroomy ha henv
  obtain ⟨voter, hmem, -, hvoter⟩ := hfew.common hF hF hcard hcard
  obtain ⟨env, henv, htype, hsequence, hdigest⟩ := hvoted voter hmem hvoter
  rw [after_consensus] at henv
  obtain ⟨value, hvalue, hseq⟩ := (vouched_run (hvouched voter hvoter)).voted env henv htype
  rw [hdigest] at hvalue
  rw [← hcrypto hvalue, hseq, hsequence]

/-! ### Fixed runs -/

/-- A node that reads the sequence of a value from the number of its letters `i`. -/
def plainSite (a : Address) : GlueNode where
  consensus := plainNode a
  ledger :=
    { LedgerManager.plainLedgerNode with
      serializeValue := fun value => String.ofList (replicate value.ledgerSeq.toUInt64.toNat 'i') }
  parseValue text :=
    ({ txset := [], closeTime := 10, previousLedgerHash := "#l"
       ledgerSeq := (UInt64.ofNat (text.toList.count 'i')).toInt64 }, true)
  keys_eq := rfl
  crypto_eq := rfl
  parse_serialize value := by simp

/-- The first ledger of the four validators. -/
def fourGenesis : LedgerManager :=
  (LedgerManager.createGenesisAccount LedgerManager.plainLedgerNode
    { LedgerManager.plainGenesis with validators := ["a", "b", "c", "d"] } "r").get (by decide)

/-- The four nodes, of which the first one is not honest. -/
def threeHonest : SiteNetwork where
  toNetwork := Network.plain {"b", "c", "d"}
  parseValue := (plainSite "b").parseValue
  site := plainSite
  site_node _ := rfl
  site_parseValue _ _ := rfl
  start _ := fourGenesis

/-- A node gets to know the four validators. -/
def fourArriveAt (a : Address) : Address × Int64 × Site.Event :=
  (a, 1, .updateValidators ⟨["a", "b", "c", "d"], four_size_lt⟩ .empty)

/-- A message of `a` comes to `b`, where the pre-execution of its value succeeds. -/
def comesTo (b a : Address) (pbft : Protocol.Pbft) : Address × Int64 × Site.Event :=
  (b, 1, .recv (signedAs a { pbft with roundNumber := 1 }) true)

def prePrepare (sequence : Int64) (value : String) : Protocol.Pbft :=
  { type := .prePrepare
    prePrepare := some { sequence := sequence, replicaId := 0, value := value, valueDigest := "#" ++ value } }

def prepare (id sequence : Int64) (value : String) : Protocol.Pbft :=
  { type := .prepare, prepare := some { sequence := sequence, replicaId := id, valueDigest := "#" ++ value } }

def commit (id sequence : Int64) (value : String) : Protocol.Pbft :=
  { type := .commit, commit := some { sequence := sequence, replicaId := id, valueDigest := "#" ++ value } }

/-- The first validator proposes a value for a sequence, and the others prepare it. -/
def preparedBy (sequence : Int64) (value : String) : Schedule :=
  [comesTo "b" "a" (prePrepare sequence value), comesTo "c" "a" (prePrepare sequence value),
    comesTo "d" "a" (prePrepare sequence value)] ++
  ["b", "c", "d"].flatMap fun b => [comesTo b "b" (prepare 1 sequence value), comesTo b "c" (prepare 2 sequence value)]

/-- The votes come to the second validator. -/
def commitedAt (sequence : Int64) (value : String) : Schedule :=
  [comesTo "b" "b" (commit 1 sequence value), comesTo "b" "c" (commit 2 sequence value),
    comesTo "b" "d" (commit 3 sequence value)]

def twoProposed : Schedule :=
  [fourArriveAt "b", fourArriveAt "c", fourArriveAt "d"] ++ preparedBy 3 "iiy" ++ preparedBy 2 "ii" ++
    commitedAt 3 "iiy" ++ commitedAt 2 "ii"

def genuineAt (before : Schedule) (e : Address × Int64 × Site.Event) : Bool :=
  match e.2.2 with
  | .recv env _ => Network.genuineHere threeHonest.honest (fun b => (threeHonest.after before b).consensus) env
  | _ => true

theorem unforgeable_of_get {schedule : Schedule}
    (h : ∀ k : Fin schedule.length, genuineAt (schedule.take k) (schedule.get k) = true) :
    threeHonest.Unforgeable schedule := by
  refine Interleave.Each.of_get fun k _ env preProcessed he => Network.genuine_of_here ?_
  have hk := h k
  simp only [genuineAt, he] at hk
  exact hk

def onlyFour (schedule : Schedule) : Bool :=
  schedule.all fun e => match e.2.2 with
    | .updateValidators validators _ => validators.addresses == ["a", "b", "c", "d"]
    | _ => true

theorem fewFaulty_of_onlyFour {schedule : Schedule} (h : onlyFour schedule = true) :
    threeHonest.FewFaulty schedule := by
  intro a _ now validators proof hmem
  have hhere := all_eq_true.mp h _ hmem
  change (validators.addresses == ["a", "b", "c", "d"]) = true at hhere
  rw [Network.FewFaulty, eq_of_beq hhere]
  decide

/-- One validator of four is not honest; an honest one executes a value for the second ledger with the sequence 3. -/
theorem executed_for_other_sequence :
    ∃ N : SiteNetwork, Function.Injective N.crypto ∧ ∃ schedule, N.FewFaulty schedule ∧ N.Unforgeable schedule ∧
      ∃ a ∈ N.honest, ∃ c ∈ (N.after schedule a).consensus.commited,
        c.requestSeq = 3 ∧ (N.parseValue c.value).1.ledgerSeq = 2 := by
  refine ⟨threeHonest, Network.plain_injective _, twoProposed, fewFaulty_of_onlyFour (by decide +kernel),
    unforgeable_of_get (by decide +kernel), "b", by decide, ?_⟩
  have h : (threeHonest.after twoProposed "b").consensus.commited.any
      (fun c => c.requestSeq == 3 && (threeHonest.parseValue c.value).1.ledgerSeq == 2) = true := by decide +kernel
  obtain ⟨c, hc, h⟩ := any_eq_true.mp h
  simp only [Bool.and_eq_true, beq_iff_eq] at h
  exact ⟨c, hc, h.1, h.2⟩

/-- One value for the second ledger is proposed, for the sequence 2. -/
def oneProposed : Schedule :=
  [fourArriveAt "b", fourArriveAt "c", fourArriveAt "d"] ++ preparedBy 2 "ii" ++ commitedAt 2 "ii"

theorem executed_for_sequence_two : (threeHonest.after oneProposed "b").ledger.getLastClosedLedger.seq = 2 ∧
      ∃ c ∈ (threeHonest.after oneProposed "b").consensus.commited,
        (threeHonest.parseValue c.value).1.ledgerSeq = c.requestSeq := by
  refine ⟨by decide +kernel, ?_⟩
  have h : (threeHonest.after oneProposed "b").consensus.commited.any (fun c => c.requestSeq == 2) = true := by
    decide +kernel
  obtain ⟨c, hc, -⟩ := any_eq_true.mp h
  have hkeeps : ∀ a ∈ ({"b", "c", "d"} : Finset Address), ∀ k : Fin (eventsOf a oneProposed).length,
      Site.KeepsSequence (plainSite a) (Site.run (plainSite a) { ledger := fourGenesis } ((eventsOf a oneProposed).take k))
        ((eventsOf a oneProposed).get k).1 ((eventsOf a oneProposed).get k).2 := by decide +kernel
  exact ⟨c, hc, executed_for_sequence threeHonest (Network.plain_injective _) oneProposed
    (fewFaulty_of_onlyFour (by decide +kernel)) (unforgeable_of_get (by decide +kernel))
    (fun a ha => Site.meets_of_get (hkeeps a ha)) "b" (by decide) c hc⟩

end SiteNetwork
end OpenSesame
