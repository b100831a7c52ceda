import OpenSesame.Consensus.Network
import OpenSesame.Ledger.CloseLedger

/-! # `glue/glue_manager.cpp`: a node with its consensus and its ledgers

The consensus asks `CheckValue` about the value of a `PRE-PREPARE` and gives what it executes to `OnValueCommited`; both
look at the last closed ledger. `UpdateValidators` is posted when a ledger is closed, and so is an event of its own.
The result of `SyncPreProcess` is an argument, and so is what a proposal takes from the queue and the execution of its
transactions. -/

namespace OpenSesame
open Protocol

structure GlueNode where
  consensus : PbftNode
  ledger : LedgerNode
  /-- `ConsensusValue::ParseFromString`: what is read, and whether the text is read to its end. -/
  parseValue : String → ConsensusRequest × Bool
  keys_eq : consensus.toKeys = ledger.toKeys
  crypto_eq : consensus.crypto = ledger.crypto
  /-- The sequence that is written is read again. -/
  parse_serialize : ∀ value, (parseValue (ledger.serializeValue value)).1.ledgerSeq = value.ledgerSeq

namespace GlueManager
variable (n : GlueNode) (now : Int64)

def checkValue (preProcessed : Bool) (value : String) (s : LedgerManager) : CheckValueResult :=
  let (consensusValue, parsed) := n.parseValue value
  if !parsed then .mayvalid
  else
    match checkValueHelper n.ledger s consensusValue now with
    | .valid => if preProcessed then .valid else .mayvalid
    | ret => ret

/-- `OnValueCommited`; what is read of the value is taken, whether it was read to its end or not. -/
def onValueCommited (c : Commited) (s : LedgerManager) : LedgerManager :=
  s.onConsent n.ledger now (n.parseValue c.value).1 (if c.proof.isEmpty then .empty else .commits c.proof)

/-- `StartConsensus` of a leader: the text it gives to `Request`. A last consensus value that is still valid is taken;
otherwise the proposal is completed with what is known of the last closed ledger. -/
def startConsensus (lastConsValue : String) (preProcessed : Bool) (proposal : ConsensusRequest) (s : LedgerManager) :
    String :=
  if lastConsValue ≠ "" ∧ checkValue n now preProcessed lastConsValue s = .valid then
    n.ledger.serializeValue (n.parseValue lastConsValue).1
  else
    let lcl := s.getLastClosedLedger
    n.ledger.serializeValue
      { proposal with ledgerSeq := lcl.seq + 1, previousLedgerHash := lcl.hash, previousProof := s.proof }

end GlueManager

def Pbft.isLeader (s : Pbft) : Bool := s.isValidator && decide (s.primary s.viewNumber = s.replicaId)

structure Site where
  consensus : Pbft := {}
  ledger : LedgerManager

namespace Site

inductive Event where
  | recv (env : PbftEnv) (preProcessed : Bool)
  | startConsensus (lastConsValue : String) (preProcessed : Bool) (proposal : ConsensusRequest)
  | timer
  | txTimeout
  | respondTimer (timer : ℕ)
  | updateValidators (validators : ValidatorSet) (proof : ProofText)
  | ledger (e : LedgerManager.Event)

variable (n : GlueNode)

/-- What the consensus gets from an event. -/
def consensusEvent (s : Site) (now : Int64) : Event → Option Pbft.Event
  | .recv env preProcessed =>
    some (.recv env (GlueManager.checkValue n now preProcessed env.pbft.getPrePrepare.value s.ledger))
  | .startConsensus lastConsValue preProcessed proposal =>
    if s.consensus.isLeader then
      some (.request (GlueManager.startConsensus n now lastConsValue preProcessed proposal s.ledger))
    else none
  | .timer => some .timer
  | .txTimeout => some .txTimeout
  | .respondTimer timer => some (.respondTimer timer)
  | .updateValidators validators proof => some (.updateValidators validators proof)
  | .ledger _ => none

/-- The consensus takes an event, and the ledger what is executed in it. -/
def consensusStep (s : Site) (now : Int64) (e : Pbft.Event) : Site :=
  let consensus := Pbft.step n.consensus s.consensus (now, e)
  { consensus := consensus
    ledger := (consensus.commited.drop s.consensus.commited.length).foldl
      (fun ledger c => GlueManager.onValueCommited n now c ledger) s.ledger }

def step (s : Site) (e : Int64 × Event) : Site :=
  match s.consensusEvent n e.1 e.2, e.2 with
  | some e', _ => s.consensusStep n e.1 e'
  | none, .ledger e' => { s with ledger := s.ledger.step n.ledger (e.1, e') }
  | none, _ => s

def run (s : Site) (events : List (Int64 × Event)) : Site := events.foldl (step n) s

end Site

/-- Nodes on a network, each with the ledgers it starts with. -/
structure SiteNetwork extends Network where
  parseValue : String → ConsensusRequest × Bool
  site : Address → GlueNode
  site_node : ∀ a, (site a).consensus = node a
  site_parseValue : ∀ a ∈ honest, (site a).parseValue = parseValue
  start : Address → LedgerManager

namespace SiteNetwork
variable (N : SiteNetwork)

abbrev Schedule := List (Address × Int64 × Site.Event)

def after (schedule : Schedule) (a : Address) : Site :=
  Site.run (N.site a) { ledger := N.start a } (Interleave.eventsOf a schedule)

def Unforgeable (schedule : Schedule) : Prop :=
  Interleave.Each (fun before a e => a ∈ N.honest → ∀ env preProcessed, e.2 = .recv env preProcessed →
    N.Genuine (fun b => (N.after before b).consensus) env) schedule

/-- At most `(n - 1) / 3` of the validators do not follow the protocol, whatever validators there are. -/
def FewFaulty (schedule : Schedule) : Prop :=
  ∀ a ∈ N.honest, ∀ now validators proof, (a, now, Site.Event.updateValidators validators proof) ∈ schedule →
    N.toNetwork.FewFaulty validators

end SiteNetwork
end OpenSesame
