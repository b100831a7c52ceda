import OpenSesame.Consensus.Network
import OpenSesame.Theorems.Consensus.Execution

/-! # What honest nodes have signed

What a replica executes has the votes of a quorum. -/

namespace OpenSesame
open Pbft Consensus List
open Protocol (PbftEnv)
variable {validators : ValidatorSet} {states : Address → Pbft} {env : PbftEnv} {c : Commited}

namespace Pbft
variable {n : PbftNode} {D : PbftEnv → Prop} {s : Pbft}

theorem keeps_sent (env : PbftEnv) : Keeps n D .any fun s => Shape n D s ∧ env ∈ s.sent where
  shape _ h := h.1
  move s t h hst := by
    refine ⟨h.1.move hst, ?_⟩
    cases hst with
    | side hst => rw [hst.sent]; exact h.2
    | send => exact mem_append_left _ h.2
    | _ => exact h.2

theorem mem_sendMessage {env env' : PbftEnv} (h : env ∈ s.sent) : env ∈ (s.sendMessage env').sent := by
  unfold sendMessage
  split
  · exact mem_append_left _ h
  · exact h

theorem mem_sent_step {e : Int64 × Event} (hshape : Shape n (fun _ => True) s) (hroomy : Roomy s)
    (h : env ∈ s.sent) : env ∈ (step n s e).sent := by
  obtain ⟨now, e⟩ := e
  refine ((keeps_sent env).step ⟨hshape, h⟩ hroomy (fun _ _ _ => trivial) (fun _ _ _ _ => Keeps.allowed_any) ?_ ?_).2
  · rintro value -
    refine ⟨hshape.request, ?_⟩
    rcases request_cases n now value s with hsame | ⟨-, -, -, hrequest⟩
    · rwa [hsame]
    · rw [hrequest]
      exact mem_sendMessage h
  · rintro validators proof -
    refine ⟨hshape.updateValidators, ?_⟩
    rcases updateValidators_cases n validators proof s with hu | ⟨-, hu⟩ | ⟨-, hu⟩
    · rwa [hu]
    · rw [hu, (adoptValidators_frame validators _).1]
      exact h
    · rw [hu]
      change env ∈ (adoptValidators n validators _ s).sent
      rw [(adoptValidators_frame validators _).1]
      exact h

theorem mem_sent_append {events more : List (Int64 × Event)}
    (hroomy : Meets n (fun s _ => Roomy s) (events ++ more)) (h : env ∈ (run n events).sent) :
    env ∈ (run n (events ++ more)).sent := by
  induction more using reverseRecOn with
  | nil => rwa [append_nil]
  | append_singleton more e ih =>
    rw [← append_assoc] at hroomy ⊢
    have hbefore : Meets n (fun s _ => Roomy s) (events ++ more) := fun before e' after heq =>
      hroomy before e' (after ++ [e]) (by rw [heq, append_assoc, cons_append])
    rw [run_concat]
    exact mem_sent_step ((shape_run hbefore).mono fun _ _ => trivial) (hroomy _ e [] rfl) (ih hbefore)

/-! ### Which validators a replica has had -/

structure Among (n : PbftNode) (D : PbftEnv → Prop) (M : ValidatorMap → Prop) (s : Pbft) : Prop where
  shape : Shape n D s
  validators : M s.validators
  commited : ∀ c ∈ s.commited, M c.validators

theorem keeps_among (M : ValidatorMap → Prop) : Keeps n D .any (Among n D M) where
  shape _ h := h.shape
  move s t h hst := by
    refine ⟨h.shape.move hst, ?_, ?_⟩
    · cases hst with
      | side hst => rw [hst.validators]; exact h.validators
      | _ => exact h.validators
    · cases hst with
      | side hst => rw [hst.commited]; exact h.commited
      | execute =>
        intro c hc
        rcases mem_append.mp hc with hc | hc
        · exact h.commited c hc
        · rw [mem_singleton.mp hc]
          exact h.validators
      | _ => exact h.commited

variable {M : ValidatorMap → Prop}

theorem Among.request {now : Int64} {value : String} (h : Among n D M s) : Among n D M (request n now value s).1 := by
  rcases request_cases n now value s with hsame | ⟨-, -, -, hrequest⟩
  · rwa [hsame]
  · have hsent : ∀ env, ((requested n now value s).sendMessage env).validators = s.validators ∧
        ((requested n now value s).sendMessage env).commited = s.commited := by
      intro env
      unfold sendMessage
      split <;> exact ⟨rfl, rfl⟩
    obtain ⟨hvalidators, hcommited⟩ := hsent (n.newPrePrepare s value (s.lastExeSeq + 1))
    refine ⟨h.shape.request, ?_, ?_⟩
    · rw [hrequest, hvalidators]
      exact h.validators
    · rw [hrequest, hcommited]
      exact h.commited

theorem adoptValidators_among {newSeq : Int64} (h : M s.validators) (hnew : M (validatorMap validators.addresses)) :
    M (s.adoptValidators n validators newSeq).validators := by
  simp only [adoptValidators]
  split_ifs
  · exact hnew
  · exact h
  · exact hnew
  · exact h

theorem Among.updateValidators {proof : ProofText} (h : Among n D M s) (hnew : M (validatorMap validators.addresses)) :
    Among n D M (s.updateValidators n validators proof) := by
  have hvalidators : M (s.adoptValidators n validators (s.fromProof proof).2).validators :=
    adoptValidators_among h.validators hnew
  have hcommited := (adoptValidators_frame (n := n) (s := s) validators (s.fromProof proof).2).2.1
  refine ⟨h.shape.updateValidators, ?_, ?_⟩ <;>
    rcases updateValidators_cases n validators proof s with hu | ⟨-, hu⟩ | ⟨-, hu⟩ <;> rw [hu]
  · exact h.validators
  · exact hvalidators
  · exact hvalidators
  · exact h.commited
  · rw [hcommited]
    exact h.commited
  · change ∀ c ∈ (s.adoptValidators n validators (s.fromProof proof).2).commited, M c.validators
    rw [hcommited]
    exact h.commited

theorem validators_run {events : List (Int64 × Event)} (h : Meets n (fun s _ => Roomy s) events) :
    ∀ c ∈ (run n events).commited, c.validators = ∅ ∨ ∃ now validators proof,
      (now, .updateValidators validators proof) ∈ events ∧ c.validators = validatorMap validators.addresses := by
  let M (m : ValidatorMap) : Prop := m = ∅ ∨ ∃ now validators proof,
    (now, .updateValidators validators proof) ∈ events ∧ m = validatorMap validators.addresses
  suffices hrun : ∀ events', events' <+: events → Among n (Delivered events') M (run n events') from
    (hrun events (prefix_refl _)).commited
  intro events'
  induction events' using reverseRecOn with
  | nil => exact fun _ => ⟨shape_start, .inl rfl, nofun⟩
  | append_singleton events' e ih =>
    obtain ⟨now, e⟩ := e
    rintro ⟨rest, rfl⟩
    rw [run_concat]
    have hbefore := ih (append_assoc .. ▸ prefix_append _ _)
    have hs : Among n (Delivered (events' ++ [(now, e)])) M (run n events') :=
      ⟨hbefore.shape.mono fun _ => Delivered.mono, hbefore.validators, hbefore.commited⟩
    refine (keeps_among M).step hs ?_ (fun _ _ => delivered_last) (fun _ _ _ _ => Keeps.allowed_any)
      (fun _ _ => hs.request) ?_
    · exact h events' (now, e) rest (by rw [append_assoc, singleton_append])
    · rintro validators proof rfl
      refine hs.updateValidators (.inr ⟨now, validators, proof, ?_, rfl⟩)
      simp

/-! ### Signers -/

def Voted (s : Pbft) (sequence : Int64) (digest : String) : Prop :=
  ∃ env ∈ s.sent, env.pbft.type = .commit ∧ env.pbft.getCommit.sequence = sequence ∧
    env.pbft.getCommit.valueDigest = digest

theorem Genuine.voted {N : Network} (h : N.Genuine states env)
    (hhonest : N.keys.encAddress env.signature.publicKey ∈ N.honest)
    (hverify : N.keys.verify env.pbft env.signature.signData env.signature.publicKey = true)
    (htype : env.pbft.type = .commit) :
    (states (N.keys.encAddress env.signature.publicKey)).Voted env.pbft.getCommit.sequence
      env.pbft.getCommit.valueDigest := by
  obtain ⟨sent, hsent, hsame | ⟨hinner, -⟩⟩ := h env (.self env) hhonest hverify
  · exact ⟨sent, hsent, by rw [hsame]; exact htype, by rw [hsame], by rw [hsame]⟩
  · exact absurd (htype.symm.trans hinner) nofun

theorem Supported.voted {N : Network} (h : Supported n D c)
    (hkeys : n.toKeys = N.keys) (hcrypto : n.crypto = N.crypto) (hD : ∀ env, D env → N.Genuine states env) :
    ∃ F : Finset Address, getQuorumSize c.validators.size + 1 ≤ F.card ∧ ∀ a ∈ F, a ∈ c.validators ∧
      (a ∈ N.honest → (states a).Voted c.requestSeq (N.crypto c.value)) := by
  obtain ⟨S, hcard, hS⟩ := h
  have : Nonempty PbftEnv := ⟨.empty⟩
  choose! env hdelivered htype hdigest hsequence hsigned using hS
  rw [hkeys] at hsigned
  refine ⟨S.image fun id => N.keys.encAddress (env id).signature.publicKey, ?_, ?_⟩
  · rwa [Finset.card_image_of_injOn]
    -- one address has one number
    intro id hid id' hid' heq
    have hmember := (hsigned id hid).member
    rw [show N.keys.encAddress _ = N.keys.encAddress _ from heq] at hmember
    exact Option.some.inj (hmember.symm.trans (hsigned id' hid').member)
  · intro a ha
    obtain ⟨id, hid, rfl⟩ := Finset.mem_image.mp ha
    refine ⟨Std.TreeMap.mem_iff_isSome_getElem?.mpr ?_, fun hhonest => ?_⟩
    · rw [(hsigned id hid).member]
      rfl
    · have hvoted := Genuine.voted (hD _ (hdelivered id hid)) hhonest (hsigned id hid).verified (htype id hid)
      rwa [hsequence id hid, hdigest id hid, hcrypto] at hvoted

theorem Supported.validators_ne (h : Supported n D c) : c.validators ≠ ∅ := by
  obtain ⟨S, hcard, hS⟩ := h
  obtain ⟨id, hid⟩ := Finset.card_pos.mp (Nat.lt_of_lt_of_le (Nat.succ_pos _) hcard)
  obtain ⟨env, -, -, -, -, hsigned⟩ := hS id hid
  intro hnone
  have hmember := hsigned.member
  rw [hnone] at hmember
  cases hmember

theorem size_validatorMap_card (l : List Address) : (validatorMap l).size = l.toFinset.card := by
  rw [← Table.card_keys]
  congr 1
  ext a
  rw [mem_toFinset, mem_toFinset, Std.TreeMap.mem_keys, mem_validatorMap]

end Pbft

namespace Network
variable {N : Network}

theorem FewFaulty.common {F F' : Finset Address} (h : N.FewFaulty validators)
    (hF : F ⊆ validators.addresses.toFinset) (hF' : F' ⊆ validators.addresses.toFinset)
    (hcard : getQuorumSize validators.addresses.toFinset.card + 1 ≤ F.card)
    (hcard' : getQuorumSize validators.addresses.toFinset.card + 1 ≤ F'.card) :
    ∃ a ∈ F, a ∈ F' ∧ a ∈ N.honest := by
  by_contra hnone
  have hfaulty : F ∩ F' ⊆ validators.addresses.toFinset \ N.honest := by
    intro a ha
    obtain ⟨haF, haF'⟩ := Finset.mem_inter.mp ha
    exact Finset.mem_sdiff.mpr ⟨hF haF, fun hhonest => hnone ⟨a, haF, haF', hhonest⟩⟩
  have hinter := Finset.card_le_card hfaulty
  have hunion := Finset.card_le_card (Finset.union_subset hF hF')
  have hsum := Finset.card_union_add_card_inter F F'
  have hoverlap := quorum_overlap validators.addresses.toFinset.card
  unfold FewFaulty at h
  omega

theorem quorum_of_supported {n : PbftNode} {D : PbftEnv → Prop}
    (hvalidators : c.validators = validatorMap validators.addresses) (h : Pbft.Supported n D c)
    (hkeys : n.toKeys = N.keys) (hcrypto : n.crypto = N.crypto) (hD : ∀ env, D env → N.Genuine states env) :
    ∃ F ⊆ validators.addresses.toFinset, getQuorumSize validators.addresses.toFinset.card + 1 ≤ F.card ∧
        ∀ a ∈ F, a ∈ N.honest → (states a).Voted c.requestSeq (N.crypto c.value) := by
  obtain ⟨F, hcard, hF⟩ := h.voted hkeys hcrypto hD
  rw [hvalidators, size_validatorMap_card] at hcard
  refine ⟨F, fun a ha => ?_, hcard, fun a ha => (hF a ha).2⟩
  have hmem := (hF a ha).1
  rw [hvalidators, mem_validatorMap] at hmem
  exact mem_toFinset.mpr hmem

theorem Genuine.mono {states states' : Address → Pbft} (h : N.Genuine states env)
    (hsent : ∀ a ∈ N.honest, ∀ e ∈ (states a).sent, e ∈ (states' a).sent) : N.Genuine states' env := by
  intro part hwithin hhonest hverify
  obtain ⟨e, he, hsigned⟩ := h part hwithin hhonest hverify
  exact ⟨e, hsent _ hhonest e he, hsigned⟩

theorem Unforgeable.delivered {schedule : Schedule} {a : Address} (h : N.Unforgeable schedule)
    (hroomy : ∀ b ∈ N.honest, Pbft.Meets (N.node b) (fun s _ => Pbft.Roomy s) (Interleave.eventsOf b schedule))
    (ha : a ∈ N.honest) (henv : Pbft.Delivered (Interleave.eventsOf a schedule) env) :
    N.Genuine (N.replica schedule) env := by
  obtain ⟨now, checkValue, hmem⟩ := henv
  obtain ⟨before, after, rfl⟩ := append_of_mem (Interleave.mem_eventsOf.mp hmem)
  have hbefore := h before a _ after rfl ha env checkValue rfl
  refine hbefore.mono fun b hb e he => ?_
  have hb := hroomy b hb
  rw [Interleave.eventsOf_append] at hb
  rw [replica, Interleave.eventsOf_append]
  exact mem_sent_append hb he

end Network

/-! ### Fixed networks -/

namespace Pbft

def sameMessage (p q : Protocol.Pbft) : Bool :=
  p.newView.isNone && q.newView.isNone && p.viewChangeWithRawvalue.isNone && q.viewChangeWithRawvalue.isNone &&
    decide (p.roundNumber = q.roundNumber ∧ p.type = q.type ∧ p.prePrepare = q.prePrepare ∧ p.prepare = q.prepare ∧
      p.commit = q.commit ∧ p.viewChange = q.viewChange ∧ p.chainId = q.chainId)

theorem eq_of_sameMessage {p q : Protocol.Pbft} (h : sameMessage p q = true) : p = q := by
  obtain ⟨⟩ := p
  obtain ⟨⟩ := q
  simp only [sameMessage, Bool.and_eq_true, Option.isNone_iff_eq_none, decide_eq_true_eq] at h
  obtain ⟨⟨⟨⟨rfl, rfl⟩, rfl⟩, rfl⟩, rfl, rfl, rfl, rfl, rfl, rfl, rfl⟩ := h
  rfl

def signs (s : Pbft) (pbft : Protocol.Pbft) : Bool :=
  s.sent.any fun env => sameMessage env.pbft pbft || pbft.type == .viewChange &&
      env.pbft.getViewChangeWithRawvalue.viewChangeEnv.any fun inner => sameMessage inner.pbft pbft

theorem signed_of_signs {s : Pbft} {pbft : Protocol.Pbft} (h : s.signs pbft = true) : s.Signed pbft := by
  obtain ⟨env, henv, hsame⟩ := any_eq_true.mp h
  refine ⟨env, henv, ?_⟩
  rcases Bool.or_eq_true_iff.mp hsame with hsame | hsame
  · exact .inl (eq_of_sameMessage hsame)
  · rw [Bool.and_eq_true, beq_iff_eq, Option.any_eq_true] at hsame
    obtain ⟨htype, inner, hinner, hsame⟩ := hsame
    exact .inr ⟨htype, inner, hinner, eq_of_sameMessage hsame⟩

end Pbft

namespace Network

/-- The nodes with the fixed keys, of which some are honest. -/
def plain (honest : Finset Address) : Network where
  keys := plainKeys
  crypto value := "#" ++ value
  honest := honest
  node := plainNode
  node_keys _ _ := rfl
  node_crypto _ _ := rfl
  node_address _ _ := rfl

theorem plain_injective (honest : Finset Address) : Function.Injective (plain honest).crypto := fun _ _ h =>
  String.append_right_inj "#" |>.mp h

def genuineHere (honest : Finset Address) (states : Address → Pbft) (env : PbftEnv) : Bool :=
  env.parts.all (fun part => part.parts.isEmpty) && (env :: env.parts).all fun part =>
    !decide (part.signature.publicKey ∈ honest) || !(part.signature.signData == part.signature.publicKey) ||
      (states part.signature.publicKey).signs part.pbft

theorem genuine_of_here {honest : Finset Address}
    (h : genuineHere honest states env = true) : (plain honest).Genuine states env := by
  simp only [genuineHere, Bool.and_eq_true, all_eq_true, Bool.or_eq_true, Bool.not_eq_true',
    decide_eq_false_iff_not] at h
  intro part hwithin hhonest hverify
  have hmem : part ∈ env :: env.parts := by
    cases hwithin with
    | self => exact mem_cons_self
    | part hpart hrest =>
      cases hrest with
      | self => exact mem_cons_of_mem _ hpart
      | part hdeep =>
        rw [List.isEmpty_iff.mp (h.1 _ hpart)] at hdeep
        cases hdeep
  rcases h.2 part hmem with (hnot | hnot) | hsigns
  · exact absurd hhonest hnot
  · exact absurd (hnot.symm.trans hverify) nofun
  · exact signed_of_signs hsigns

end Network
end OpenSesame
