import OpenSesame.Consensus.Pbft
import OpenSesame.Lib.Interleave

/-! # Replicas on a network

The nodes that follow the protocol, and nothing about the others. A schedule is an order of the events of the honest
nodes: a message may come late, twice, in any order or never, and the messages of the other nodes are free. The only
bound is that no one signs for an honest node. -/

namespace OpenSesame
open Protocol (PbftEnv)

/-- The envelopes that an envelope carries. -/
def Protocol.PbftEnv.parts (env : PbftEnv) : List PbftEnv :=
  let newView := env.pbft.getNewView
  let raw := env.pbft.getViewChangeWithRawvalue
  let set := raw.preparedSet.getD {}
  newView.viewChanges ++ newView.prePrepare.toList ++ raw.viewChangeEnv.toList ++ set.prePrepare.toList ++ set.prepare

/-- An envelope is another one, or is carried by it at some depth. -/
inductive Within : PbftEnv → PbftEnv → Prop
  | self (env : PbftEnv) : Within env env
  | part {env inner outer : PbftEnv} (hpart : inner ∈ outer.parts) (h : Within env inner) : Within env outer

/-- A replica has signed a message: one that it has sent, or the `VIEW-CHANGE` in it. -/
def Pbft.Signed (s : Pbft) (pbft : Protocol.Pbft) : Prop :=
  ∃ env ∈ s.sent, env.pbft = pbft ∨ pbft.type = .viewChange ∧
      ∃ inner, env.pbft.getViewChangeWithRawvalue.viewChangeEnv = some inner ∧ inner.pbft = pbft

structure Network where
  keys : Keys
  crypto : String → String
  /-- The nodes that follow the protocol. -/
  honest : Finset Address
  node : Address → PbftNode
  node_keys : ∀ a ∈ honest, (node a).toKeys = keys
  node_crypto : ∀ a ∈ honest, (node a).crypto = crypto
  node_address : ∀ a ∈ honest, keys.encAddress (node a).encPublicKey = a

namespace Network
variable (N : Network)

abbrev Schedule := List (Address × Int64 × Pbft.Event)

def replica (schedule : Schedule) (a : Address) : Pbft := Pbft.run (N.node a) (Interleave.eventsOf a schedule)

/-- Whatever an envelope carries that verifies as a message of an honest node was signed by that node. -/
def Genuine (states : Address → Pbft) (env : PbftEnv) : Prop :=
  ∀ part, Within part env → N.keys.encAddress part.signature.publicKey ∈ N.honest →
    N.keys.verify part.pbft part.signature.signData part.signature.publicKey = true →
    (states (N.keys.encAddress part.signature.publicKey)).Signed part.pbft

/-- Signatures are unforgeable: the messages that come to honest nodes are genuine. -/
def Unforgeable (schedule : Schedule) : Prop :=
  Interleave.Each (fun before a e => a ∈ N.honest → ∀ env checkValue, e.2 = .recv env checkValue →
    N.Genuine (N.replica before) env) schedule

/-- The validators of every honest node are those it has got with its first event. -/
def Fixed (validators : ValidatorSet) (schedule : Schedule) : Prop :=
  ∀ a ∈ N.honest, ∀ e rest, Interleave.eventsOf a schedule = e :: rest →
    e.2 = .updateValidators validators .empty ∧ ∀ e' ∈ rest, ∀ set proof, e'.2 ≠ .updateValidators set proof

/-- At most `(n - 1) / 3` of the `n` validators do not follow the protocol. -/
def FewFaulty (validators : ValidatorSet) : Prop :=
  (validators.addresses.toFinset \ N.honest).card ≤ (validators.addresses.toFinset.card - 1) / 3

end Network
end OpenSesame
