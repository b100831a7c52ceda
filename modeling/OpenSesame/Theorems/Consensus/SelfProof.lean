import OpenSesame.Theorems.Consensus.Certificate
import OpenSesame.Theorems.Consensus.Execution

/-! # The proofs a replica makes

`TryExecuteValue` takes its proof from the commit buffer, where every envelope is kept that passed
the check of messages, whatever its digest. -/

namespace OpenSesame
open Consensus List
open Protocol
namespace Pbft

variable {n : PbftNode} {D : PbftEnv → Prop} {T : Rules} {s t : Pbft} {i : PbftInstanceIndex}
  {inst inst' : PbftInstance}

/-! ### The commits of a proof -/

variable {env : PbftEnv} {l : List PbftEnv} {keys : List String}

theorem firstOfKey_sub (h : env ∈ firstOfKey keys l) : env ∈ l ∧ env.signature.publicKey ∉ keys := by
  induction l generalizing keys with
  | nil => cases h
  | cons e l ih =>
    unfold firstOfKey at h
    split at h
    · obtain ⟨hmem, hkey⟩ := ih h
      exact ⟨mem_cons_of_mem _ hmem, hkey⟩
    · rcases mem_cons.mp h with rfl | h
      · exact ⟨mem_cons_self, ‹_›⟩
      · obtain ⟨hmem, hkey⟩ := ih h
        exact ⟨mem_cons_of_mem _ hmem, fun hk => hkey (mem_cons_of_mem _ hk)⟩

theorem firstOfKey_nodup : ((firstOfKey keys l).map fun env => env.signature.publicKey).Nodup := by
  induction l generalizing keys with
  | nil => exact nodup_nil
  | cons e l ih =>
    unfold firstOfKey
    split
    · exact ih
    · rw [map_cons, nodup_cons]
      refine ⟨fun hmem => ?_, ih⟩
      obtain ⟨env, henv, hkey⟩ := mem_map.mp hmem
      exact (firstOfKey_sub henv).2 (hkey ▸ mem_cons_self)

theorem mem_firstOfKey (h : env ∈ l) (hkey : env.signature.publicKey ∉ keys) :
    env.signature.publicKey ∈ (firstOfKey keys l).map fun env => env.signature.publicKey := by
  induction l generalizing keys with
  | nil => cases h
  | cons e l ih =>
    unfold firstOfKey
    split
    · rcases mem_cons.mp h with rfl | h
      · exact absurd ‹_› hkey
      · exact ih h hkey
    · rw [map_cons]
      by_cases heq : env.signature.publicKey = e.signature.publicKey
      · exact heq ▸ mem_cons_self
      · rcases mem_cons.mp h with rfl | h
        · exact absurd rfl heq
        · refine mem_cons_of_mem _ (ih h ?_)
          exact fun hk => (mem_cons.mp hk).elim heq hkey

variable {hash : String}

theorem CommitFor.erase {k : Keys} {m : ValidatorMap} {a : Address}
    (h : CommitFor k m hash env) (hne : signer k env ≠ a) : CommitFor k (m.erase a) hash env := by
  obtain ⟨id, hid, hsigned⟩ := h.signed
  refine ⟨h.type, h.content, id, hid, ?_, hsigned.nonneg, hsigned.verified⟩
  exact (Table.erase_of_ne hne).trans hsigned.member

theorem checkCommits_of_distinct {k : Keys} {m : ValidatorMap}
    (h : ∀ env ∈ l, env.pbft.chainId = k.chainId ∧ CommitFor k m hash env) (hnodup : (l.map (signer k)).Nodup) :
    ∃ rest, checkCommits k hash l m = some rest := by
  induction l generalizing m with
  | nil => exact ⟨m, rfl⟩
  | cons env l ih =>
    rw [map_cons, nodup_cons] at hnodup
    obtain ⟨hchain, hcommit⟩ := h env mem_cons_self
    have hrest : ∀ env' ∈ l, env'.pbft.chainId = k.chainId ∧ CommitFor k (m.erase (signer k env)) hash env' := by
      intro env' henv'
      obtain ⟨hchain', hcommit'⟩ := h env' (mem_cons_of_mem _ henv')
      refine ⟨hchain', hcommit'.erase fun heq => hnodup.1 ?_⟩
      exact heq ▸ mem_map_of_mem henv'
    obtain ⟨rest, heq⟩ := ih hrest hnodup.2
    exact ⟨rest, checkCommits_cons.mpr ⟨hchain, hcommit, heq⟩⟩

theorem checkProof_of_commits {k : Keys} {validators : List Address}
    (h : ∀ env ∈ l, env.pbft.chainId = k.chainId ∧ CommitFor k (validatorMap validators) hash env)
    (hnodup : (l.map (signer k)).Nodup)
    (hcard : getQuorumSize (validatorMap validators).size + 1 ≤ l.length) :
    checkProof k validators hash (.commits l) = true := by
  obtain ⟨rest, hrest⟩ := checkCommits_of_distinct h hnodup
  obtain ⟨-, -, hsize⟩ := checkCommits_spec hrest
  exact checkProof_iff.mpr ⟨nofun, rest, hrest, by omega⟩

/-! ### The commit buffer -/

/-- The commit buffer of an instance: one digest, one key for each address, and every commit that is counted. -/
structure Recorded (n : PbftNode) (validators : ValidatorMap) (inst : PbftInstance) : Prop where
  checked : ∀ env ∈ inst.msgBuf 2, checkMessageItem n.toKeys validators env = true
  uniform : ∀ env ∈ inst.msgBuf 2, ∀ env' ∈ inst.msgBuf 2,
    env.pbft.getCommit.valueDigest = env'.pbft.getCommit.valueDigest
  keys : ∀ env ∈ inst.msgBuf 2, ∀ env' ∈ inst.msgBuf 2, signer n.toKeys env = signer n.toKeys env' →
    env.signature.publicKey = env'.signature.publicKey
  kept : ∀ (id : Int64) commit, inst.commits[id]? = some commit → ∃ env ∈ inst.msgBuf 2, env.pbft.getCommit = commit

/-- A `COMMIT` agrees with those in a buffer: it has their digest, and the key of the one with its address. -/
def Agrees (k : Keys) (inst : PbftInstance) (env : PbftEnv) : Prop :=
  ∀ env' ∈ inst.msgBuf 2, env'.pbft.getCommit.valueDigest = env.pbft.getCommit.valueDigest ∧
    (signer k env' = signer k env → env'.signature.publicKey = env.signature.publicKey)

def agreeing (k : Keys) : Rules where
  traced _ := False
  fits inst env := env.pbft.type = .commit → Agrees k inst env

variable {validators : ValidatorMap}

theorem Recorded.push {t : ℕ} (h : Recorded n validators inst)
    (hcheck : checkMessageItem n.toKeys validators env = true) (hbuffer : env.pbft.type.buffer = some t)
    (hfits : env.pbft.type = .commit → Agrees n.toKeys inst env) : Recorded n validators (inst.push t env) := by
  have hcases : ∀ {e}, e ∈ (inst.push t env).msgBuf 2 → e ∈ inst.msgBuf 2 ∨ e = env ∧ Agrees n.toKeys inst env := by
    intro e he
    rcases mem_push he with he | ⟨rfl, rfl⟩
    · exact .inl he
    · exact .inr ⟨rfl, hfits (type_of_buffer_two hbuffer)⟩
  refine ⟨?_, ?_, ?_, ?_⟩
  · intro e he
    rcases hcases he with he | ⟨rfl, -⟩
    · exact h.checked e he
    · exact hcheck
  · intro e he e' he'
    rcases hcases he with hold | ⟨rfl, hagrees⟩ <;> rcases hcases he' with hold' | ⟨rfl, hagrees'⟩
    · exact h.uniform e hold e' hold'
    · exact (hagrees' e hold).1
    · exact (hagrees e' hold').1.symm
    · rfl
  · intro e he e' he' hsigner
    rcases hcases he with hold | ⟨rfl, hagrees⟩ <;> rcases hcases he' with hold' | ⟨rfl, hagrees'⟩
    · exact h.keys e hold e' hold' hsigner
    · exact (hagrees' e hold).2 hsigner
    · exact ((hagrees e' hold').2 hsigner.symm).symm
    · rfl
  · intro id commit hid
    obtain ⟨e, he, hcommit⟩ := h.kept id commit hid
    exact ⟨e, mem_push_of_mem he, hcommit⟩

theorem Recorded.advance (h : Recorded n s.validators inst) (ha : Advance n D (agreeing n.toKeys) s i inst inst') :
    Recorded n s.validators inst' := by
  cases ha with
  | quiet hs =>
    obtain ⟨hchecked, huniform, hkeys, hkept⟩ := h
    rw [← hs.msgBuf] at hchecked huniform hkeys hkept
    rw [← hs.commits] at hkept
    exact ⟨hchecked, huniform, hkeys, hkept⟩
  | push hcheck hbuffer _ _ _ hfits => exact h.push hcheck hbuffer hfits
  | prePrepare => exact ⟨h.checked, h.uniform, h.keys, h.kept⟩
  | prepare => exact ⟨h.checked, h.uniform, h.keys, h.kept⟩
  | prepared hphase =>
    rw [PbftInstance.toPrepared, if_pos (by omega)]
    exact ⟨h.checked, h.uniform, h.keys, h.kept⟩
  | @commit env _ _ _ _ _ hplace =>
    refine ⟨h.checked, h.uniform, h.keys, fun id commit hid => ?_⟩
    rcases Table.insertIfNew_eq_some hid with ⟨rfl, rfl⟩ | hid
    · exact ⟨env, hplace.resolve_right id, rfl⟩
    · exact h.kept id commit hid
  | commited => exact ⟨h.checked, h.uniform, h.keys, h.kept⟩

/-- The proof of what was executed is accepted for the hash of its value, under the validators at that time. -/
def Verifies (n : PbftNode) (c : Commited) : Prop :=
  (∃ l, validatorMap l = c.validators) ∧ ∀ l, validatorMap l = c.validators →
    checkProof n.toKeys l (n.crypto c.value) (.commits c.proof) = true

theorem Recorded.size_le (h : Recorded n validators inst) (hinst : InstanceShape n D validators i inst) :
    inst.commits.size ≤ (firstOfKey [] (inst.msgBuf 2)).length := by
  have hsub : inst.commits.keys.toFinset.image some ⊆
      ((firstOfKey [] (inst.msgBuf 2)).map fun env => env.signature.publicKey).toFinset.image
        fun key => validators[n.encAddress key]? := by
    intro o ho
    obtain ⟨id, hid, rfl⟩ := Finset.mem_image.mp ho
    obtain ⟨commit, hget⟩ := Table.mem_keys.mp (mem_toFinset.mp hid)
    obtain ⟨env, henv, rfl⟩ := h.kept id commit hget
    have hsigned := (commit_of_check (h.checked env henv) (hinst.commit_type henv)).2
    refine Finset.mem_image.mpr ⟨env.signature.publicKey, ?_, ?_⟩
    · exact mem_toFinset.mpr (mem_firstOfKey henv nofun)
    · exact hsigned.member.trans (congrArg some (hinst.commits id _ hget).2)
  calc inst.commits.size = (inst.commits.keys.toFinset.image some).card := by
        rw [Finset.card_image_of_injective _ (Option.some_injective _), Table.card_keys]
    _ ≤ _ := Finset.card_le_card hsub
    _ ≤ _ := Finset.card_image_le
    _ ≤ _ := toFinset_card_le _
    _ = _ := length_map _

theorem Recorded.nodup (h : Recorded n validators inst) :
    ((firstOfKey [] (inst.msgBuf 2)).map (signer n.toKeys)).Nodup := by
  have hkeys : ((firstOfKey [] (inst.msgBuf 2)).map fun env => env.signature.publicKey).Nodup := firstOfKey_nodup
  rw [List.Nodup, pairwise_map] at hkeys ⊢
  refine hkeys.imp_of_mem fun henv henv' hne heq => hne ?_
  exact h.keys _ (firstOfKey_sub henv).1 _ (firstOfKey_sub henv').1 heq

theorem Recorded.digest (h : Recorded n validators inst)
    (hdecided : Decided n D validators i inst) (hinst : InstanceShape n D validators i inst)
    (hphase : inst.phase = .commited) (henv : env ∈ inst.msgBuf 2) :
    env.pbft.getCommit.valueDigest = n.crypto inst.prePrepare.value := by
  have hpos : 0 < inst.commits.size := Nat.lt_of_lt_of_le (Nat.succ_pos _) (hdecided.enough hphase)
  rw [← Table.card_keys] at hpos
  obtain ⟨id, hid⟩ := Finset.card_pos.mp hpos
  obtain ⟨commit, hget⟩ := Table.mem_keys.mp (mem_toFinset.mp hid)
  obtain ⟨env', henv', rfl⟩ := h.kept id commit hget
  calc env.pbft.getCommit.valueDigest = env'.pbft.getCommit.valueDigest := h.uniform env henv env' henv'
    _ = inst.prePrepare.valueDigest := (hinst.commits id _ hget).1
    _ = n.crypto inst.prePrepare.value := hinst.digest hphase

theorem Recorded.verifies (h : Recorded n validators inst)
    (hdecided : Decided n D validators i inst) (hinst : InstanceShape n D validators i inst)
    (hlisted : ∃ l, validatorMap l = validators) (hphase : inst.phase = .commited) :
    Verifies n ⟨i.sequence, inst.prePrepare.value, firstOfKey [] (inst.msgBuf 2), validators⟩ := by
  refine ⟨hlisted, ?_⟩
  rintro l rfl
  refine checkProof_of_commits (fun env henv => ?_) h.nodup ((hdecided.enough hphase).trans (h.size_le hinst))
  have henv := (firstOfKey_sub henv).1
  have hcheck := h.checked env henv
  have htype := hinst.commit_type henv
  obtain ⟨⟨commit, hcommit⟩, -⟩ := commit_of_check hcheck htype
  have hdigest := h.digest hdecided hinst hphase henv
  rw [Protocol.Pbft.getCommit, hcommit] at hdigest
  exact ⟨(checkMessageItem_iff.mp hcheck).1, htype, ⟨commit, hcommit, hdigest⟩, signedBy_of_check hcheck⟩

theorem local_recorded : Local n D (agreeing n.toKeys)
    (fun validators i inst => Decided n D validators i inst ∧ Recorded n validators inst) (Verifies n) where
  start validators i inst hcommits hbuffer hphase := by
    refine ⟨(local_decided (T := .any)).start validators i inst hcommits hbuffer hphase, ?_, ?_, ?_, ?_⟩
    · rw [hbuffer]
      exact nofun
    · rw [hbuffer]
      exact nofun
    · rw [hbuffer]
      exact nofun
    · rw [hcommits]
      exact nofun
  advance _ _ _ _ _ h ha := ⟨h.1.advance ha, h.2.advance ha⟩
  execute _ _ _ hlisted hinst h hphase := h.2.verifies h.1 hinst hlisted hphase

/-! ### Runs -/

/-- The condition on a step: no wrap of the water mark; a `COMMIT` that passes the check and is for an instance
comes in the view of that instance and agrees with its buffer; no change of the validators while an instance
waits. -/
def KeepsProof (n : PbftNode) (s : Pbft) : Event → Prop
  | .recv env _ => Roomy s ∧ (checkMessageItem n.toKeys s.validators env = true → env.pbft.type = .commit →
      ∀ (i : PbftInstanceIndex) inst, indexOf env.pbft = some i → s.instances[i]? = some inst →
        i.viewNumber = s.viewNumber ∧ Agrees n.toKeys inst env)
  | .updateValidators validators _ => Roomy s ∧ (s.validatorChanged validators = true → NothingWaits s)
  | _ => Roomy s

theorem KeepsProof.roomy {e : Event} (h : KeepsProof n s e) : Roomy s := by
  cases e with
  | recv => exact h.1
  | updateValidators => exact h.1
  | _ => exact h

theorem KeepsProof.allowed {checkValue : CheckValueResult} (h : KeepsProof n s (.recv env checkValue))
    (hcheck : checkMessageItem n.toKeys s.validators env = true) : Keeps.Allowed (agreeing n.toKeys) s env where
  traced := by
    rintro ⟨htype, i, inst, hindex, hi, hview⟩
    exact hview (h.2 hcheck htype i inst hindex hi).1
  fits i inst hindex hi htype := (h.2 hcheck htype i inst hindex hi).2
  fresh _ _ := nofun

theorem recorded_run {events : List (Int64 × Event)} (h : Meets n (KeepsProof n) events) : Executes n (Delivered events)
      (fun validators i inst => Decided n (Delivered events) validators i inst ∧ Recorded n validators inst)
      (Verifies n) (run n events) := by
  refine run_induction (P := fun events s => Executes n (Delivered events)
    (fun validators i inst => Decided n (Delivered events) validators i inst ∧ Recorded n validators inst)
    (Verifies n) s) executes_start ?_ h
  rintro events ⟨now, e⟩ s hs hstep
  have hmono : ∀ env, Delivered events env → Delivered (events ++ [(now, e)]) env := fun _ => Delivered.mono
  have hs : Executes n (Delivered (events ++ [(now, e)])) (fun validators i inst =>
      Decided n (Delivered (events ++ [(now, e)])) validators i inst ∧ Recorded n validators inst) (Verifies n) s :=
    ⟨hs.shape.mono hmono, fun i inst hi hlt => (hs.waiting i inst hi hlt).imp_left fun h => h.mono hmono,
      hs.executed, hs.ordered⟩
  refine local_recorded.keeps.step hs hstep.roomy (fun _ _ => delivered_last) ?_ (fun _ _ => hs.request local_recorded) ?_
  · rintro env checkValue rfl
    exact hstep.allowed
  · rintro validators proof rfl
    exact hs.updateValidators hstep.2

/-- Every proof that a replica hands over with a value is accepted for the hash of the value, if the commits it gets
agree and come in the view of their instance, and the validators change only when nothing waits to be executed. -/
theorem own_proof_verifies (n : PbftNode) (events : List (Int64 × Event)) (h : Meets n (KeepsProof n) events) :
    ∀ c ∈ (run n events).commited, (∃ l, validatorMap l = c.validators) ∧ ∀ l, validatorMap l = c.validators →
        checkProof n.toKeys l (n.crypto c.value) (.commits c.proof) = true :=
  fun c hc => ((recorded_run h).executed c hc).2

/-! ### Fixed runs -/

/-- A `COMMIT` of the validator `a` arrives, for the view 0 and the sequence 2. -/
def commitArrives (a : Address) (replicaId : Int64) (digest : String) : Int64 × Event :=
  (1, .recv (signedAs a
    { type := .commit
      commit := some { viewNumber := 0, sequence := 2, replicaId := replicaId, valueDigest := digest } }) .valid)

def preparedFirst : List (Int64 × Event) :=
  [fourArrive, prePrepareArrives "x", prepareArrives "b" 1 "#x", prepareArrives "c" 2 "#x"]

/-- Three validators commit a value, and the fourth one has sent a `COMMIT` for another digest before. -/
def strayCommit : List (Int64 × Event) :=
  preparedFirst ++ [commitArrives "d" 3 "#y", commitArrives "a" 0 "#x", commitArrives "b" 1 "#x", commitArrives "c" 2 "#x"]

/-- The value is executed, and its proof is not accepted. -/
theorem own_proof_refused :
    ∃ c ∈ (run (plainNode "b") strayCommit).commited, c.value = "x" ∧ c.validators.toList = fourValidators.toList ∧
      checkProof plainKeys ["a", "b", "c", "d"] "#x" (.commits c.proof) = false := by
  decide +kernel

/-- The same without the message of the fourth validator. -/
def noStrayCommit : List (Int64 × Event) :=
  preparedFirst ++ [commitArrives "a" 0 "#x", commitArrives "b" 1 "#x", commitArrives "c" 2 "#x"]

theorem keepsProof_commit {checkValue : CheckValueResult} (hroomy : Roomy s) (hindex : indexOf env.pbft = some i)
    (hall : ((s.instances[i]?).all fun inst => decide (i.viewNumber = s.viewNumber) && (inst.msgBuf 2).all fun env' =>
      decide (env'.pbft.getCommit.valueDigest = env.pbft.getCommit.valueDigest) &&
        decide (signer n.toKeys env' ≠ signer n.toKeys env)) = true) : KeepsProof n s (.recv env checkValue) := by
  refine ⟨hroomy, fun _ _ j inst hj hi => ?_⟩
  obtain rfl := Option.some.inj (hindex.symm.trans hj)
  rw [hi, Option.all_some, Bool.and_eq_true, decide_eq_true_eq, all_eq_true] at hall
  refine ⟨hall.1, fun env' henv' => ?_⟩
  have hagrees := hall.2 env' henv'
  rw [Bool.and_eq_true, decide_eq_true_eq, decide_eq_true_eq] at hagrees
  exact ⟨hagrees.1, fun heq => absurd heq hagrees.2⟩

theorem noStrayCommit_keepsProof : Meets (plainNode "b") (KeepsProof (plainNode "b")) noStrayCommit := by
  have h₁ : Meets (plainNode "b") (KeepsProof (plainNode "b")) [fourArrive] :=
    meets_nil.concat ⟨by decide +kernel, fun _ => nofun⟩
  have h₂ : Meets (plainNode "b") (KeepsProof (plainNode "b")) preparedFirst :=
    ((h₁.concat (e := prePrepareArrives "x") ⟨by decide +kernel, nofun⟩).concat (e := prepareArrives "b" 1 "#x")
      ⟨by decide +kernel, nofun⟩).concat (e := prepareArrives "c" 2 "#x") ⟨by decide +kernel, nofun⟩
  refine ((h₂.concat (e := commitArrives "a" 0 "#x") ?_).concat (e := commitArrives "b" 1 "#x") ?_).concat
    (e := commitArrives "c" 2 "#x") ?_
  all_goals exact keepsProof_commit (by decide +kernel) rfl (by decide +kernel)

theorem own_proof_verifies_three :
    ∃ c ∈ (run (plainNode "b") noStrayCommit).commited, c.proof.length = 3 ∧ ∃ l,
      validatorMap l = c.validators ∧ checkProof plainKeys l "#x" (.commits c.proof) = true := by
  obtain ⟨c, hc, hvalue, hlength⟩ : ∃ c ∈ (run (plainNode "b") noStrayCommit).commited, c.value = "x" ∧
      c.proof.length = 3 := by decide +kernel
  obtain ⟨⟨l, hl⟩, hall⟩ := own_proof_verifies (plainNode "b") noStrayCommit noStrayCommit_keepsProof c hc
  have hcheck := hall l hl
  rw [hvalue] at hcheck
  exact ⟨c, hc, hlength, l, hl, hcheck⟩

end Pbft
end OpenSesame
