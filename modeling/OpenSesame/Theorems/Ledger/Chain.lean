import OpenSesame.Ledger.CloseLedger
import OpenSesame.Theorems.Consensus.Check

/-! # The chain of closed ledgers

Whatever arrives from the consensus or from a peer, a ledger is closed only on top of the last one. -/

namespace OpenSesame
open Protocol GlueManager
namespace LedgerManager

variable {n : LedgerNode} {now : Int64} {s t : LedgerManager}

/-! ### Chains -/

/-- The databases have what the manager has in memory. -/
structure Loaded (n : LedgerNode) (s : LedgerManager) : Prop where
  header : s.lclHeader = s.lastClosedLedger
  stored : s.ledgerDb s.lastClosedLedger.seq = some s.lastClosedLedger
  hashed : s.lastClosedLedger.validatorsHash = n.crypto (n.serializeValidators s.validators)
  validators : s.validatorsDb s.lastClosedLedger.validatorsHash = some s.validators

/-- The last header with the validators from then on. -/
abbrev Tip := LedgerHeader × List Validator

def tip (s : LedgerManager) : Tip := (s.lastClosedLedger, s.validators)

/-- A ledger that is closed on top of another one. -/
structure Link (n : LedgerNode) (before : Tip) (c : ClosedLedger) : Prop where
  seq : c.header.seq.toInt = before.1.seq.toInt + 1
  previousHash : c.header.previousHash = before.1.hash
  valueHash : c.header.consensusValueHash = n.crypto (n.serializeValue c.value)
  validatorsHash : c.header.validatorsHash = n.crypto (n.serializeValidators c.validators)
  /-- The proof is one for the value under the validators before, or the value is a hard-fork point. -/
  proof : checkProof n before.2 (n.crypto (n.serializeValue c.value)) c.proof = true ∨
    n.crypto (n.serializeValue c.value) ∈ n.hardforkPoints

/-- Ledgers that are closed one on top of the other. -/
def Chain (n : LedgerNode) : Tip → List ClosedLedger → Tip → Prop
  | before, [], after => before = after
  | before, c :: l, after => Link n before c ∧ Chain n (c.header, c.validators) l after

theorem Chain.append {before middle after : Tip} {l l' : List ClosedLedger} (h : Chain n before l middle)
    (h' : Chain n middle l' after) : Chain n before (l ++ l') after := by
  induction l generalizing before with
  | nil =>
    obtain rfl : before = middle := h
    exact h'
  | cons c l ih => exact ⟨h.1, ih h.2⟩

theorem Chain.seq {before after : Tip} {l : List ClosedLedger} (h : Chain n before l after) :
    after.1.seq.toInt = before.1.seq.toInt + l.length := by
  induction l generalizing before with
  | nil =>
    obtain rfl : before = after := h
    simp
  | cons c l ih =>
    obtain ⟨hlink, hrest⟩ := h
    rw [ih hrest, hlink.seq, List.length_cons]
    push_cast
    ring

structure Extends (n : LedgerNode) (s t : LedgerManager) : Prop where
  loaded : Loaded n t
  chain : ∃ l, t.closed = s.closed ++ l ∧ Chain n s.tip l t.tip

variable {u : LedgerManager}

theorem Extends.trans (h : Extends n s t) (h' : Extends n t u) : Extends n s u := by
  obtain ⟨l, hl, hchain⟩ := h.chain
  obtain ⟨l', hl', hchain'⟩ := h'.chain
  exact ⟨h'.loaded, l ++ l', by rw [hl', hl, List.append_assoc], hchain.append hchain'⟩

structure Aside (s t : LedgerManager) : Prop where
  lastClosedLedger : t.lastClosedLedger = s.lastClosedLedger
  lclHeader : t.lclHeader = s.lclHeader
  validators : t.validators = s.validators
  ledgerDb : t.ledgerDb = s.ledgerDb
  validatorsDb : t.validatorsDb = s.validatorsDb
  closed : t.closed = s.closed

theorem Aside.refl : Aside s s := ⟨rfl, rfl, rfl, rfl, rfl, rfl⟩

theorem Aside.trans (h : Aside s t) (h' : Aside t u) : Aside s u :=
  ⟨h'.1.trans h.1, h'.2.trans h.2, h'.3.trans h.3, h'.4.trans h.4, h'.5.trans h.5, h'.6.trans h.6⟩

theorem Aside.ite {c : Prop} [Decidable c] (h : Aside s t) (h' : Aside s u) : Aside s (if c then t else u) := by
  split
  · exact h
  · exact h'

theorem Aside.noted {maxSeq : Int64} (h : Aside s t) : Aside s { t with chainMaxLedgerProbaly := maxSeq } :=
  ⟨h.1, h.2, h.3, h.4, h.5, h.6⟩

variable {pid : Int64}

theorem requestConsensusValues_aside {gl : GetLedgers} {time : Int64} :
    Aside s (s.requestConsensusValues pid gl time) :=
  ⟨rfl, rfl, rfl, rfl, rfl, rfl⟩

theorem onProbation_aside : Aside s (s.onProbation now pid) := ⟨rfl, rfl, rfl, rfl, rfl, rfl⟩

theorem timerPeer_aside {asked : List Int64} : Aside s (timerPeer now (s, asked) pid).1 := by
  unfold timerPeer
  split
  · exact .refl
  · exact ⟨rfl, rfl, rfl, rfl, rfl, rfl⟩

theorem onTimer_aside {activePeers : List Int64} : Aside s (s.onTimer now activePeers) := by
  refine .ite .refl ?_
  have hpeers (l asked : List Int64) (s : LedgerManager) : Aside s (l.foldl (timerPeer now) (s, asked)).1 := by
    induction l generalizing s asked with
    | nil => exact .refl
    | cons pid l ih => exact timerPeer_aside.trans (ih _ _)
  have hask (next : Int64) (l : List Int64) (s : LedgerManager) : Aside s
      (l.foldl (fun s pid => s.requestConsensusValues pid { beginSeq := next, endSeq := next } now) s) := by
    induction l generalizing s with
    | nil => exact .refl
    | cons pid l ih => exact requestConsensusValues_aside.trans (ih _)
  have htime : Aside s { s with peers := s.peers.filter fun pid _ => activePeers.contains pid, updateTime := now } :=
    ⟨rfl, rfl, rfl, rfl, rfl, rfl⟩
  exact (htime.trans (hpeers _ _ _)).trans (hask _ _ _)

theorem Aside.extends (h : Aside s t) (hs : Loaded n s) : Extends n s t where
  loaded := by
    refine ⟨?_, ?_, ?_, ?_⟩
    · rw [h.lclHeader, h.lastClosedLedger]
      exact hs.header
    · rw [h.ledgerDb, h.lastClosedLedger]
      exact hs.stored
    · rw [h.lastClosedLedger, h.validators]
      exact hs.hashed
    · rw [h.validatorsDb, h.lastClosedLedger, h.validators]
      exact hs.validators
  chain := by
    refine ⟨[], by rw [h.closed, List.append_nil], ?_⟩
    change s.tip = t.tip
    rw [tip, tip, h.lastClosedLedger, h.validators]

theorem Loaded.extends_refl (hs : Loaded n s) : Extends n s s := Aside.refl.extends hs

theorem createGenesisAccount_loaded {conf : GenesisConfigure} {rootHash : String}
    (h : createGenesisAccount n conf rootHash = some s) : Loaded n s := by
  unfold createGenesisAccount at h
  split at h
  · cases h
  · cases h
    refine ⟨rfl, ?_, rfl, ?_⟩ <;> simp only [Function.update_self]

/-! ### Closing a ledger -/

variable {value : ConsensusRequest}

theorem checkValueHelper_valid {time : Int64} (h : checkValueHelper n s value time = .valid) :
    value.ledgerSeq = s.getLastClosedLedger.seq + 1 ∧ value.previousLedgerHash = s.getLastClosedLedger.hash := by
  simp only [checkValueHelper] at h
  split_ifs at h with hsize hseq hhash
  exact ⟨of_not_not hseq, of_not_not hhash⟩

theorem checkValueAndProof_spec {proof : ProofText} (hs : Loaded n s) (h : checkValueAndProof n s value proof = true) :
    value.ledgerSeq = s.lastClosedLedger.seq + 1 ∧ value.previousLedgerHash = s.lastClosedLedger.hash ∧
      (checkProof n s.validators (n.crypto (n.serializeValue value)) proof = true ∨
        n.crypto (n.serializeValue value) ∈ n.hardforkPoints) := by
  unfold checkValueAndProof at h
  split at h
  · cases h
  · rename_i set hset
    simp only [Bool.and_eq_true, beq_iff_eq, Bool.or_eq_true, List.contains_iff_mem] at h
    obtain ⟨hseq, hhash⟩ := checkValueHelper_valid h.1
    rw [getLastClosedLedger, hs.header] at hseq hhash
    -- the validators of the ledger before are those in force
    have hbefore : value.ledgerSeq - 1 = s.lastClosedLedger.seq := by rw [hseq]; simp
    rw [getValidators, hbefore, hs.stored] at hset
    obtain rfl := Option.some.inj (hs.validators.symm.trans hset)
    exact ⟨hseq, hhash, h.2⟩

theorem newSet_unchanged {closing : ClosingLedger}
    (h : (s.newSet value closing).2 = false) : (s.newSet value closing).1 = s.validators := by
  unfold newSet at h ⊢
  split at h
  · cases h
  · rename_i hfork
    rw [if_neg hfork]
    rw [Option.isSome_eq_false_iff, Option.isNone_iff_eq_none] at h
    rw [h]
    rfl

variable {bySync : Bool} {value : ConsensusRequest} {proof : ProofText} {closing : ClosingLedger}

theorem close_validators (hs : Loaded n s) :
    (s.close n bySync value proof closing).validators = (s.newSet value closing).1 ∧
      (s.close n bySync value proof closing).validatorsDb
        (n.crypto (n.serializeValidators (s.newSet value closing).1)) = some (s.newSet value closing).1 := by
  unfold close
  dsimp only
  cases hset : (s.newSet value closing).2 with
  | true =>
    rw [if_pos rfl]
    exact ⟨rfl, Function.update_self ..⟩
  | false =>
    rw [if_neg Bool.false_ne_true, newSet_unchanged hset, ← hs.hashed]
    exact ⟨rfl, hs.validators⟩

theorem close_closed : (s.close n bySync value proof closing).closed =
    s.closed ++ [⟨s.closedHeader n value closing, value, proof, (s.newSet value closing).1, bySync⟩] := by
  unfold close
  dsimp only
  split <;> rfl

theorem close_loaded (hs : Loaded n s) : Loaded n (s.close n bySync value proof closing) := by
  refine ⟨rfl, Function.update_self .., ?_, ?_⟩
  · rw [(close_validators hs).1]
    rfl
  · rw [(close_validators hs).1]
    exact (close_validators hs).2

theorem closeLedger_extends (hs : Loaded n s) (hlast : s.lastClosedLedger.seq ≠ Int64.maxValue)
    (h : s.closeLedger n bySync value proof = some t) : Extends n s t := by
  unfold closeLedger at h
  split at h
  · rename_i hcheck
    obtain ⟨hseq, hhash, hproof⟩ := checkValueAndProof_spec hs hcheck
    split at h
    · cases h
    · rename_i closing hclosing
      cases h
      refine ⟨close_loaded hs, _, close_closed, ⟨?_, hhash, rfl, rfl, hproof⟩, ?_⟩
      · change value.ledgerSeq.toInt = s.lastClosedLedger.seq.toInt + 1
        rw [hseq, SafeInt.toInt_add_one hlast]
      · exact congrArg (Prod.mk _) (close_validators hs).1.symm
  · cases h

/-! ### The entry points -/

theorem onConsent_extends (hs : Loaded n s) : Extends n s (s.onConsent n now value proof) := by
  unfold onConsent
  split
  · exact hs.extends_refl
  rename_i hlt
  split
  · have haside : Aside s { s with updateTime := now } := ⟨rfl, rfl, rfl, rfl, rfl, rfl⟩
    have hs' : Extends n s { s with updateTime := now } := haside.extends hs
    dsimp only
    cases hclose : closeLedger n false value proof { s with updateTime := now } with
    | none => exact hs'
    | some t =>
      refine hs'.trans (closeLedger_extends hs'.loaded ?_ hclose)
      -- there is a greater sequence
      exact fun hmax => hlt (hmax ▸ Int64.le_maxValue _)
  · exact hs.extends_refl

variable {peerId : Int64}

theorem receiveLoop_extends {valid : Bool} (l : List ConsensusRequest) (hs : Loaded n s) :
    Extends n s (receiveLoop n now peerId proof l s valid).1 := by
  induction l generalizing s valid with
  | nil => exact hs.extends_refl
  | cons value l ih =>
    unfold receiveLoop
    split
    · exact hs.extends_refl
    rename_i hlast
    split
    · split
      · exact onProbation_aside.extends hs
      · rename_i hclose
        have hnext := closeLedger_extends hs hlast hclose
        exact hnext.trans (ih hnext.loaded)
    · exact ih hs

theorem receiveLedgers_extends {ledgers : Ledgers} (hs : Loaded n s) :
    Extends n s (s.receiveLedgers n now ledgers peerId).1 := by
  unfold receiveLedgers
  split
  · rename_i first last itm _ _ _
    have hpeer : Extends n s { s with peers := s.peers.insert peerId { itm with sendTime := 0, gl := {} } } :=
      Aside.extends ⟨rfl, rfl, rfl, rfl, rfl, rfl⟩ hs
    dsimp only
    split
    · exact hpeer.trans (onProbation_aside.extends hpeer.loaded)
    · exact hpeer.trans (receiveLoop_extends _ hpeer.loaded)
  · exact hs.extends_refl

theorem onReceiveLedgers_extends {ledgers : Ledgers} (hs : Loaded n s) :
    Extends n s (s.onReceiveLedgers n now ledgers peerId) := by
  unfold onReceiveLedgers
  split
  · exact hs.extends_refl
  · have hreceived : Extends n s (s.receiveLedgers n now ledgers peerId).1 := receiveLedgers_extends hs
    refine hreceived.trans (Aside.extends (Aside.ite ?_ .refl) hreceived.loaded)
    -- the next ledgers are asked for, and the greatest sequence is noted
    exact .ite (.noted (.ite requestConsensusValues_aside .refl)) (.ite requestConsensusValues_aside .refl)

theorem step_extends (hs : Loaded n s) (e : Int64 × Event) : Extends n s (s.step n e) := by
  obtain ⟨now, e⟩ := e
  cases e with
  | consent value proof => exact onConsent_extends hs
  | ledgers ledgers peerId => exact onReceiveLedgers_extends hs
  | timer activePeers => exact onTimer_aside.extends hs

theorem run_extends (hs : Loaded n s) (events : List (Int64 × Event)) : Extends n s (s.run n events) := by
  induction events generalizing s with
  | nil => exact hs.extends_refl
  | cons e events ih => exact (step_extends hs e).trans (ih (step_extends hs e).loaded)

/-- Whatever arrives, the ledgers that are closed follow one another without a gap, each with the hash of the one
before it and with a proof by the validators of that time. -/
theorem closed_chain (n : LedgerNode) (s : LedgerManager) (hs : Loaded n s) (events : List (Int64 × Event)) :
    ∃ l, (s.run n events).closed = s.closed ++ l ∧ Chain n s.tip l (s.run n events).tip ∧
      (s.run n events).lastClosedLedger.seq.toInt = s.lastClosedLedger.seq.toInt + l.length := by
  obtain ⟨l, hl, hchain⟩ := (run_extends hs events).chain
  exact ⟨l, hl, hchain, hchain.seq⟩

/-- A node with hashes that mark their argument, on which the execution of a value changes no setting. -/
def plainLedgerNode : LedgerNode where
  toKeys := Pbft.plainKeys
  crypto text := "#" ++ text
  serializeValue value := value.previousLedgerHash ++ "x"
  byteSize _ := 0
  serializeLedger header _ := header.previousHash ++ "l"
  serializeValidators validators := String.join (validators.map fun v => v.address)
  serializeFees _ := "f"
  hardforkPoints := []
  closeInterval := 10
  syncProcess _ _ :=
    some { header := {}, transactionEnvs := [], votedValidators := none, votedFees := none, rootHash := "r" }

/-- The configuration with the validator `a`. -/
def plainGenesis : GenesisConfigure :=
  { account := "g", validators := ["a"], fees := { gasPrice := 0, baseReserve := 0 }, slogan := "" }

def commitOfA (seq : Int64) (digest : String) : ProofText :=
  .commits [Pbft.signedAs "a" { type := .commit, commit := some { sequence := seq, valueDigest := digest } }]

/-- The second ledger comes from the consensus. After a while without ledgers a peer is asked, and the third one
comes from there. -/
def twoLedgers : List (Int64 × Event) :=
  [(1, .consent { txset := [], closeTime := 10, ledgerSeq := 2, previousLedgerHash := "#l" }
      (commitOfA 2 "##lx")),
    (40000000, .timer [7]),
    (40000001, .ledgers
      { values := [{ txset := [], closeTime := 20, ledgerSeq := 3, previousLedgerHash := "##ll",
                     previousProof := commitOfA 2 "##lx" }]
        maxSeq := 3
        proof := commitOfA 3 "###llx"
        chainId := 0 } 7)]

theorem closed_chain_two :
    ∃ s, createGenesisAccount plainLedgerNode plainGenesis "r" = some s ∧
      (s.run plainLedgerNode twoLedgers).closed.map (fun c => (c.header.seq, c.bySync)) =
        [(2, false), (3, true)] ∧
      ∃ l, (s.run plainLedgerNode twoLedgers).closed = s.closed ++ l ∧
        Chain plainLedgerNode s.tip l (s.run plainLedgerNode twoLedgers).tip ∧
        (s.run plainLedgerNode twoLedgers).lastClosedLedger.seq.toInt =
          s.lastClosedLedger.seq.toInt + l.length := by
  refine ⟨_, rfl, by decide +kernel, closed_chain plainLedgerNode _ ?_ twoLedgers⟩
  have h : createGenesisAccount plainLedgerNode plainGenesis "r" = some _ := rfl
  exact createGenesisAccount_loaded h

end LedgerManager
end OpenSesame
