import OpenSesame.Theorems.Consensus.Check

/-! # `CheckProof`

The loop erases each validator it has met, so a proof that is accepted has as many signers as
commits, and all of them are validators. -/

namespace OpenSesame
open Consensus List
open Protocol (PbftEnv)
variable {hash : String} {k : Keys}

namespace Pbft

/-- The address an envelope is signed for. -/
def signer (k : Keys) (env : PbftEnv) : Address := k.encAddress env.signature.publicKey

/-- A `COMMIT` for the value with this hash, of a validator, with a signature that verifies. -/
structure CommitFor (k : Keys) (validators : ValidatorMap) (hash : String) (env : PbftEnv) : Prop where
  type : env.pbft.type = .commit
  content : ∃ commit, env.pbft.commit = some commit ∧ commit.valueDigest = hash
  signed : ∃ id, replicaIdOf env.pbft = some id ∧ SignedBy k validators id env

theorem CommitFor.of_erase {m : ValidatorMap} {a : Address} {env : PbftEnv}
    (h : CommitFor k (m.erase a) hash env) : CommitFor k m hash env ∧ signer k env ≠ a := by
  obtain ⟨id, hid, hsigned⟩ := h.signed
  obtain ⟨hne, hmember⟩ := Table.erase_eq_some hsigned.member
  exact ⟨⟨h.type, h.content, id, hid, hmember, hsigned.nonneg, hsigned.verified⟩, hne⟩

theorem checkCommits_cons {env : PbftEnv} {l : List PbftEnv} {m rest : ValidatorMap} :
    checkCommits k hash (env :: l) m = some rest ↔ env.pbft.chainId = k.chainId ∧ CommitFor k m hash env ∧
        checkCommits k hash l (m.erase (signer k env)) = some rest := by
  simp only [checkCommits]
  rw [Option.ite_none_right_eq_some]
  simp only [Bool.and_eq_true, beq_iff_eq, Option.isSome_iff_exists]
  constructor
  · rintro ⟨⟨⟨⟨⟨hcheck, htype⟩, commit, hcommit⟩, hdigest⟩, -⟩, hrest⟩
    rw [Protocol.Pbft.getCommit, hcommit] at hdigest
    exact ⟨(checkMessageItem_iff.mp hcheck).1, ⟨htype, ⟨commit, hcommit, hdigest⟩, signedBy_of_check hcheck⟩, hrest⟩
  · rintro ⟨hchain, ⟨htype, ⟨commit, hcommit, hdigest⟩, id, hid, hsigned⟩, hrest⟩
    have hplain : env.pbft.type ≠ .viewChangeWithRawValue := by rw [htype]; exact nofun
    refine ⟨⟨⟨⟨⟨?_, htype⟩, commit, hcommit⟩, ?_⟩, ?_⟩, hrest⟩
    · exact checkMessageItem_iff.mpr ⟨hchain, id, (checkReplicaId_of_plain hplain).trans hid, hsigned⟩
    · rw [Protocol.Pbft.getCommit, hcommit]
      exact hdigest
    · exact Table.contains_iff.mpr ⟨id, hsigned.member⟩

theorem checkCommits_spec {l : List PbftEnv} {m rest : ValidatorMap} (h : checkCommits k hash l m = some rest) :
    (∀ env ∈ l, CommitFor k m hash env) ∧ (l.map (signer k)).Nodup ∧ rest.size + l.length = m.size := by
  induction l generalizing m with
  | nil =>
    cases h
    exact ⟨nofun, nodup_nil, rfl⟩
  | cons env l ih =>
    obtain ⟨-, hcommit, hrest⟩ := checkCommits_cons.mp h
    obtain ⟨hall, hnodup, hsize⟩ := ih hrest
    obtain ⟨id, -, hsigned⟩ := hcommit.signed
    refine ⟨?_, ?_, ?_⟩
    · intro env' henv'
      rcases mem_cons.mp henv' with rfl | henv'
      · exact hcommit
      · exact (hall env' henv').of_erase.1
    · rw [map_cons, nodup_cons]
      refine ⟨fun hmem => ?_, hnodup⟩
      obtain ⟨env', henv', heq⟩ := mem_map.mp hmem
      exact (hall env' henv').of_erase.2 heq
    · have hcontains : m.contains (signer k env) = true := Table.contains_iff.mpr ⟨id, hsigned.member⟩
      have hpos : 0 < m.size := Table.size_pos hsigned.member
      rw [Std.TreeMap.size_erase, if_pos hcontains] at hsize
      rw [length_cons]
      omega

end Pbft

def ProofText.envelopes : ProofText → List PbftEnv
  | .commits l => l
  | _ => []

namespace Pbft

theorem checkProof_iff {validators : List Address} {proof : ProofText} :
    checkProof k validators hash proof = true ↔ proof ≠ .garbled ∧ ∃ rest,
      checkCommits k hash proof.envelopes (validatorMap validators) = some rest ∧
        getQuorumSize (validatorMap validators).size + 1 ≤ (validatorMap validators).size - rest.size := by
  cases proof with
  | garbled => simp [checkProof]
  | empty => simp [checkProof, ProofText.envelopes, checkCommits]
  | commits l =>
    simp only [checkProof, ProofText.envelopes]
    cases h : checkCommits k hash l (validatorMap validators) with
    | none => simp
    | some rest => simp

theorem signers_of_checkProof {validators : List Address} {proof : ProofText}
    (h : checkProof k validators hash proof = true) :
    ∃ S : Finset Address, getQuorumSize (validatorMap validators).size + 1 ≤ S.card ∧
      ∀ a ∈ S, a ∈ validators ∧ ∃ env ∈ proof.envelopes, signer k env = a ∧
        CommitFor k (validatorMap validators) hash env := by
  obtain ⟨-, rest, hrest, hsize⟩ := checkProof_iff.mp h
  obtain ⟨hall, hnodup, hcount⟩ := checkCommits_spec hrest
  refine ⟨(proof.envelopes.map (signer k)).toFinset, ?_, ?_⟩
  · rw [toFinset_card_of_nodup hnodup, length_map]
    omega
  · intro a ha
    obtain ⟨env, henv, rfl⟩ := mem_map.mp (mem_toFinset.mp ha)
    obtain ⟨id, -, hsigned⟩ := (hall env henv).signed
    refine ⟨mem_validatorMap.mp ?_, env, henv, rfl, hall env henv⟩
    exact Std.TreeMap.mem_iff_isSome_getElem?.mpr (Option.isSome_of_eq_some hsigned.member)

/-- Two proofs that are accepted under one set of `n` validators have at least `(n - 1) / 3 + 1` signers in
common, each of which has signed a `COMMIT` for either hash; one of them is honest if at most `(n - 1) / 3`
validators are not. -/
theorem checkProof_accountable (k : Keys) (validators : List Address) (hdistinct : validators.Nodup)
    (hash hash' : String) (proof proof' : ProofText) (h : checkProof k validators hash proof = true)
    (h' : checkProof k validators hash' proof' = true) :
    ∃ S : Finset Address, (validators.length - 1) / 3 + 1 ≤ S.card ∧ (∀ a ∈ S, a ∈ validators ∧
        (∃ env ∈ proof.envelopes, signer k env = a ∧ CommitFor k (validatorMap validators) hash env) ∧
        ∃ env ∈ proof'.envelopes, signer k env = a ∧ CommitFor k (validatorMap validators) hash' env) ∧
      ∀ byzantine : Finset Address, byzantine.card ≤ (validators.length - 1) / 3 → ∃ a ∈ S, a ∉ byzantine := by
  obtain ⟨S, hS, hsigned⟩ := signers_of_checkProof h
  obtain ⟨S', hS', hsigned'⟩ := signers_of_checkProof h'
  rw [size_validatorMap hdistinct] at hS hS'
  have hcard : (validators.length - 1) / 3 + 1 ≤ (S ∩ S').card := by
    have hunion : (S ∪ S').card ≤ validators.length := by
      rw [← toFinset_card_of_nodup hdistinct]
      refine Finset.card_le_card fun a ha => mem_toFinset.mpr ?_
      rcases Finset.mem_union.mp ha with ha | ha
      · exact (hsigned a ha).1
      · exact (hsigned' a ha).1
    have hsum := Finset.card_union_add_card_inter S S'
    have hoverlap := quorum_overlap validators.length
    omega
  refine ⟨S ∩ S', hcard, ?_, ?_⟩
  · intro a ha
    obtain ⟨haS, haS'⟩ := Finset.mem_inter.mp ha
    exact ⟨(hsigned a haS).1, (hsigned a haS).2, (hsigned' a haS').2⟩
  · intro byzantine hbyz
    by_contra hnone
    push Not at hnone
    have hsub : (S ∩ S').card ≤ byzantine.card := Finset.card_le_card hnone
    omega

/-- A proof with the commits of these validators. -/
def proofOf (hash : String) (signers : List (Address × Int64)) : ProofText :=
  .commits (signers.map fun a => signedAs a.1
    { type := .commit, commit := some { viewNumber := 1, sequence := 2, replicaId := a.2, valueDigest := hash } })

theorem checkProof_accountable_four : ∃ S : Finset Address, (4 - 1) / 3 + 1 ≤ S.card ∧
      (∀ a ∈ S, a ∈ ["a", "b", "c", "d"] ∧
        (∃ env ∈ (proofOf "x" [("a", 0), ("b", 1), ("c", 2)]).envelopes, signer plainKeys env = a ∧
          CommitFor plainKeys (validatorMap ["a", "b", "c", "d"]) "x" env) ∧
        ∃ env ∈ (proofOf "y" [("b", 1), ("c", 2), ("d", 3)]).envelopes, signer plainKeys env = a ∧
          CommitFor plainKeys (validatorMap ["a", "b", "c", "d"]) "y" env) ∧
      ∀ byzantine : Finset Address, byzantine.card ≤ (4 - 1) / 3 → ∃ a ∈ S, a ∉ byzantine :=
  checkProof_accountable plainKeys ["a", "b", "c", "d"] (by decide) "x" "y" _ _ (by decide +kernel) (by decide +kernel)

end Pbft
end OpenSesame
