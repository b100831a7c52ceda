import OpenSesame.Consensus.Pbft
import OpenSesame.Lib.Table

/-! # What the message checks establish

One lemma says what an envelope that passes `CheckMessageItem` has, whatever its type; the loops of
`CheckViewChangeWithRawValue` and `CheckProof` are read through it. -/

namespace OpenSesame
open List
open Protocol

namespace Consensus

theorem validatorMap_concat (l : List Address) (a : Address) :
    validatorMap (l ++ [a]) = (validatorMap l).insertIfNew a (Int64.ofNat l.length) := by
  unfold validatorMap
  rw [zipIdx_append, foldl_append, Nat.zero_add]
  rfl

theorem mem_validatorMap {l : List Address} {a : Address} : a ∈ validatorMap l ↔ a ∈ l := by
  induction l using reverseRecOn with
  | nil => exact ⟨fun h => absurd h Std.TreeMap.not_mem_emptyc, nofun⟩
  | append_singleton l b ih =>
    rw [validatorMap_concat, Std.TreeMap.mem_insertIfNew, Std.LawfulEqCmp.compare_eq_iff_eq, ih,
      mem_append, mem_singleton, or_comm, eq_comm]

theorem size_validatorMap {l : List Address} (h : l.Nodup) : (validatorMap l).size = l.length := by
  induction l using reverseRecOn with
  | nil => rfl
  | append_singleton l a ih =>
    obtain ⟨hl, -, hdisj⟩ := nodup_append.mp h
    have hal : a ∉ validatorMap l := fun ha => hdisj a (mem_validatorMap.mp ha) a (mem_singleton_self a) rfl
    rw [validatorMap_concat, Std.TreeMap.size_insertIfNew, if_neg hal, ih hl, length_append, length_singleton]

end Consensus

namespace Pbft

/-- Two sets of `GetQuorumSize + 1` validators have more validators in common than may be faulty. -/
theorem quorum_overlap (n : ℕ) : n + ((n - 1) / 3 + 1) ≤ 2 * (getQuorumSize n + 1) := by
  unfold getQuorumSize
  dsimp only
  split_ifs <;> omega

/-! ### One envelope -/

/-- `env` carries a signature that verifies, of the validator with the number `id`. -/
structure SignedBy (k : Keys) (validators : ValidatorMap) (id : Int64) (env : PbftEnv) : Prop where
  member : validators[k.encAddress env.signature.publicKey]? = some id
  nonneg : 0 ≤ id
  verified : k.verify env.pbft env.signature.signData env.signature.publicKey = true

variable {validators : ValidatorMap} {k : Keys} {env : PbftEnv}

theorem SignedBy.unique {id id' : Int64}
    (h : SignedBy k validators id env) (h' : SignedBy k validators id' env) : id = id' :=
  Option.some.inj (h.member.symm.trans h'.member)

theorem getValidatorIndex_nonneg {a : Address} {id : Int64} :
    (¬Consensus.getValidatorIndex a validators < 0 ∧ some id = some (Consensus.getValidatorIndex a validators)) ↔
      validators[a]? = some id ∧ 0 ≤ id := by
  unfold Consensus.getValidatorIndex
  cases h : validators[a]? with
  | none =>
    simp only [Option.getD_none, reduceCtorEq, false_and, iff_false, not_and]
    intro h'
    exact absurd (by decide) h'
  | some j =>
    simp only [Option.getD_some, Option.some.injEq, Int64.not_lt]
    constructor
    · rintro ⟨hj, rfl⟩
      exact ⟨rfl, hj⟩
    · rintro ⟨rfl, hj⟩
      exact ⟨hj, rfl⟩

theorem checkMessageItem_iff : checkMessageItem k validators env = true ↔ env.pbft.chainId = k.chainId ∧
        ∃ id, checkReplicaId k validators env.pbft = some id ∧ SignedBy k validators id env := by
  obtain ⟨pbft, sig⟩ := env
  simp only [checkMessageItem, Bool.and_eq_true, beq_iff_eq, Bool.not_eq_true', decide_eq_false_iff_not]
  constructor
  · rintro ⟨⟨⟨hchain, hid⟩, hcheck⟩, hverify⟩
    obtain ⟨hmember, hnonneg⟩ := getValidatorIndex_nonneg.mp ⟨hid, rfl⟩
    exact ⟨hchain, _, hcheck, hmember, hnonneg, hverify⟩
  · rintro ⟨hchain, id, hcheck, hsigned⟩
    obtain ⟨hid, heq⟩ := getValidatorIndex_nonneg.mpr ⟨hsigned.member, hsigned.nonneg⟩
    exact ⟨⟨⟨hchain, hid⟩, hcheck.trans heq⟩, hsigned.verified⟩

/-- The replica id in the content that the type of a message asks for. -/
def replicaIdOf (pbft : Protocol.Pbft) : Option Int64 :=
  match pbft.type with
  | .prePrepare => pbft.prePrepare.map (·.replicaId)
  | .prepare => pbft.prepare.map (·.replicaId)
  | .commit => pbft.commit.map (·.replicaId)
  | .viewChange => pbft.viewChange.map (·.replicaId)
  | .newView => pbft.newView.map (·.replicaId)
  | .viewChangeWithRawValue => pbft.viewChangeWithRawvalue.map (·.getViewChangeEnv.pbft.getViewChange.replicaId)
  | .other _ => none

theorem checkReplicaId_of_plain {pbft : Protocol.Pbft}
    (h : pbft.type ≠ .viewChangeWithRawValue) : checkReplicaId k validators pbft = replicaIdOf pbft := by
  obtain ⟨_, type, _⟩ := pbft
  cases type with
  | viewChangeWithRawValue => exact absurd rfl h
  | _ => rfl

theorem checkReplicaId_raw {pbft : Protocol.Pbft} {id : Int64} (h : pbft.type = .viewChangeWithRawValue) :
    checkReplicaId k validators pbft = some id ↔ ∃ raw, pbft.viewChangeWithRawvalue = some raw ∧
      checkViewChangeWithRawValue k validators raw = true ∧ raw.getViewChangeEnv.pbft.getViewChange.replicaId = id := by
  obtain ⟨_, type, _, _, _, _, _, raw, _⟩ := pbft
  obtain rfl : type = .viewChangeWithRawValue := h
  cases raw with
  | none => simp [checkReplicaId]
  | some raw => simp [checkReplicaId]

theorem signedBy_of_check (h : checkMessageItem k validators env = true) :
    ∃ id, replicaIdOf env.pbft = some id ∧ SignedBy k validators id env := by
  obtain ⟨-, id, hid, hsigned⟩ := checkMessageItem_iff.mp h
  refine ⟨id, ?_, hsigned⟩
  by_cases hraw : env.pbft.type = .viewChangeWithRawValue
  · obtain ⟨raw, hsome, -, rfl⟩ := (checkReplicaId_raw hraw).mp hid
    simp [replicaIdOf, hraw, hsome]
  · rwa [checkReplicaId_of_plain hraw] at hid

theorem prePrepare_of_check (h : checkMessageItem k validators env = true) (htype : env.pbft.type = .prePrepare) :
    SignedBy k validators env.pbft.getPrePrepare.replicaId env := by
  obtain ⟨id, hid, hsigned⟩ := signedBy_of_check h
  simp only [replicaIdOf, htype, Option.map_eq_some_iff] at hid
  obtain ⟨prePrepare, hsome, rfl⟩ := hid
  rwa [Protocol.Pbft.getPrePrepare, hsome]

/-- Keys for fixed inputs: an address is its own key, and a signature is the name of the signer. -/
def plainKeys : Keys where
  chainId := 0
  encAddress := id
  verify _ signData publicKey := signData == publicKey

/-- A message with the signature of `a`. -/
def signedAs (a : Address) (pbft : Protocol.Pbft) : PbftEnv :=
  { pbft := pbft, signature := { publicKey := a, signData := a } }

/-- The node `a`, with a hash that marks its argument. -/
def plainNode (a : Address) : PbftNode where
  toKeys := plainKeys
  crypto value := "#" ++ value
  encPublicKey := a
  sign _ := a
  verify_sign _ := beq_self_eq_true a

end Pbft
end OpenSesame
