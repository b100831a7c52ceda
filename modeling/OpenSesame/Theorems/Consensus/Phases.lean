import OpenSesame.Theorems.Consensus.Calm

/-! # An instance by itself

What a message does to its instance depends on the instance, on the quorum and on whether the
replica is the primary. -/

namespace OpenSesame
open Protocol

variable {rounds : ℕ}

namespace PbftInstance

structure Setting where
  node : PbftNode
  now : Int64
  /-- The replica is the primary, and not the only node. -/
  leads : Bool
  quorum : ℕ
  ret : CheckValueResult

section
variable (c : Setting)

def takePrePrepare (prePrepare : PbftPrePrepare) (inst : PbftInstance) : PbftInstance :=
  if c.leads = true ∨ prePrepare.valueDigest ≠ c.node.crypto prePrepare.value ∨ c.ret = .invalid ∨
      inst.phase ≠ .none then inst
  else { inst with phase := .prePrepared, phaseItem := 0, prePrepare := prePrepare, checkValueResult := c.ret }

def takePrepare (prepare : PbftPrepare) (inst : PbftInstance) : PbftInstance :=
  if inst.prePrepare.valueDigest ≠ prepare.valueDigest then inst
  else if (inst.addPrepare prepare).prepares.size < c.quorum then inst.addPrepare prepare
  else if (inst.addPrepare prepare).toPrepared.checkValueResult = .valid then
    { (inst.addPrepare prepare).toPrepared with lastCommitSendTime := c.now }
  else (inst.addPrepare prepare).toPrepared

def takeCommit (commit : PbftCommit) (inst : PbftInstance) : PbftInstance :=
  if inst.prePrepare.valueDigest ≠ commit.valueDigest ∨ inst.commits.contains commit.replicaId = true then inst
  else if (inst.addCommit commit).commits.size ≥ c.quorum + 1 ∧ inst.phase.toNat < 3 then
    (inst.addCommit commit).toCommited c.now
  else inst.addCommit commit

def take (pbft : Protocol.Pbft) (inst : PbftInstance) : PbftInstance :=
  match pbft.type with
  | .prePrepare => inst.takePrePrepare c pbft.getPrePrepare
  | .prepare => inst.takePrepare c pbft.getPrepare
  | .commit => inst.takeCommit c pbft.getCommit
  | _ => inst

def meet (inst : PbftInstance) : PbftInstance := { inst with phaseItem := inst.phaseItem + 1 }

def takeAll : ℕ → PbftInstance → PbftInstance
  | 0, inst => inst
  | rounds + 1, inst =>
    match (inst.msgBuf inst.phase.toNat)[inst.phaseItem]? with
    | none => inst
    | some env => takeAll rounds (inst.meet.take c env.pbft)

def go (env : PbftEnv) (inst : PbftInstance) : PbftInstance :=
  if env.pbft.type.buffer.getD 0 < inst.phase.toNat then inst.take c env.pbft
  else inst.takeAll c ((inst.msgBuf 0).length + (inst.msgBuf 1).length + (inst.msgBuf 2).length)

end

def Met (inst : PbftInstance) : Prop := (inst.msgBuf inst.phase.toNat).length ≤ inst.phaseItem

def Filed (i : PbftInstanceIndex) (inst : PbftInstance) : Prop :=
  ∀ t, ∀ env ∈ inst.msgBuf t, env.pbft.type.buffer = some t ∧ Pbft.indexOf env.pbft = some i

def remaining (inst : PbftInstance) : ℕ :=
  match inst.phase with
  | .none => (inst.msgBuf 0).length - inst.phaseItem + (inst.msgBuf 1).length + (inst.msgBuf 2).length
  | .prePrepared => (inst.msgBuf 1).length - inst.phaseItem + (inst.msgBuf 2).length
  | .prepared => (inst.msgBuf 2).length - inst.phaseItem
  | .commited => 0

variable {c : Setting} {i : PbftInstanceIndex} {inst : PbftInstance} {pbft : Protocol.Pbft} {env : PbftEnv}

@[simp] theorem meet_phase : inst.meet.phase = inst.phase := rfl

@[simp] theorem meet_phaseItem : inst.meet.phaseItem = inst.phaseItem + 1 := rfl

@[simp] theorem meet_msgBuf : inst.meet.msgBuf = inst.msgBuf := rfl

/-! ### One message -/

theorem type_of_buffer {t : ℕ} {b a : PbftMessageType} (h : b.buffer = some t) (h' : a.buffer = some t) : b = a := by
  cases b <;> cases a <;> simp_all [PbftMessageType.buffer] <;> omega

theorem takePrePrepare_cases (c : Setting) (prePrepare : PbftPrePrepare) (inst : PbftInstance) :
    inst.takePrePrepare c prePrepare = inst ∨ inst.phase = .none ∧ inst.takePrePrepare c prePrepare = { inst with
          phase := .prePrepared, phaseItem := 0, prePrepare := prePrepare, checkValueResult := c.ret } := by
  unfold takePrePrepare
  split_ifs with h
  · exact .inl rfl
  · simp only [not_or, Decidable.not_not] at h
    exact .inr ⟨h.2.2.2, rfl⟩

theorem toPrepared_msgBuf : inst.toPrepared.msgBuf = inst.msgBuf := by
  unfold toPrepared
  split <;> rfl

theorem toPrepared_phase (inst : PbftInstance) :
    inst.toPrepared.phase = inst.phase ∧ inst.toPrepared.phaseItem = inst.phaseItem ∨
      inst.phase.toNat < 2 ∧ inst.toPrepared.phase = .prepared ∧ inst.toPrepared.phaseItem = 0 := by
  unfold toPrepared
  split
  · exact .inr ⟨‹_›, rfl, rfl⟩
  · exact .inl ⟨rfl, rfl⟩

theorem takePrepare_phase (c : Setting) (prepare : PbftPrepare) (inst : PbftInstance) :
    (inst.takePrepare c prepare).phase = inst.phase ∧ (inst.takePrepare c prepare).phaseItem = inst.phaseItem ∨
      inst.phase.toNat < 2 ∧ (inst.takePrepare c prepare).phase = .prepared ∧
        (inst.takePrepare c prepare).phaseItem = 0 := by
  unfold takePrepare
  split_ifs
  · exact .inl ⟨rfl, rfl⟩
  · exact .inl ⟨rfl, rfl⟩
  · exact toPrepared_phase (inst.addPrepare prepare)
  · exact toPrepared_phase (inst.addPrepare prepare)

theorem takeCommit_phase (c : Setting) (commit : PbftCommit) (inst : PbftInstance) :
    (inst.takeCommit c commit).phase = inst.phase ∧ (inst.takeCommit c commit).phaseItem = inst.phaseItem ∨
      inst.phase.toNat < 3 ∧ (inst.takeCommit c commit).phase = .commited ∧
        (inst.takeCommit c commit).phaseItem = 0 := by
  unfold takeCommit
  split_ifs with _ h
  · exact .inl ⟨rfl, rfl⟩
  · exact .inr ⟨h.2, rfl, rfl⟩
  · exact .inl ⟨rfl, rfl⟩

@[simp] theorem takePrePrepare_msgBuf (prePrepare : PbftPrePrepare) :
    (inst.takePrePrepare c prePrepare).msgBuf = inst.msgBuf := by
  unfold takePrePrepare
  split <;> rfl

@[simp] theorem takePrepare_msgBuf (prepare : PbftPrepare) : (inst.takePrepare c prepare).msgBuf = inst.msgBuf := by
  unfold takePrepare
  split_ifs
  · rfl
  · rfl
  · exact toPrepared_msgBuf
  · exact toPrepared_msgBuf

@[simp] theorem takeCommit_msgBuf (commit : PbftCommit) : (inst.takeCommit c commit).msgBuf = inst.msgBuf := by
  unfold takeCommit
  split_ifs <;> rfl

@[simp] theorem take_msgBuf : (inst.take c pbft).msgBuf = inst.msgBuf := by
  unfold take
  split <;> simp

theorem take_phase (c : Setting) (pbft : Protocol.Pbft) (inst : PbftInstance) :
    (inst.take c pbft).phase = inst.phase ∧ (inst.take c pbft).phaseItem = inst.phaseItem ∨
      inst.phase.toNat < (inst.take c pbft).phase.toNat ∧ (inst.take c pbft).phaseItem = 0 := by
  unfold take
  split
  · rcases takePrePrepare_cases c pbft.getPrePrepare inst with h | ⟨hphase, h⟩
    · rw [h]
      exact .inl ⟨rfl, rfl⟩
    · rw [h, hphase]
      exact .inr ⟨Nat.zero_lt_one, rfl⟩
  · rcases takePrepare_phase c pbft.getPrepare inst with h | ⟨hlt, hphase, hitem⟩
    · exact .inl h
    · rw [hphase]
      exact .inr ⟨hlt, hitem⟩
  · rcases takeCommit_phase c pbft.getCommit inst with h | ⟨hlt, hphase, hitem⟩
    · exact .inl h
    · rw [hphase]
      exact .inr ⟨hlt, hitem⟩
  · exact .inl ⟨rfl, rfl⟩

theorem take_phase_le : inst.phase.toNat ≤ (inst.take c pbft).phase.toNat := by
  rcases take_phase c pbft inst with ⟨h, -⟩ | ⟨h, -⟩
  · rw [h]
  · exact h.le

theorem take_phase_of_lt {t : ℕ} (hbuffer : pbft.type.buffer = some t) (hlt : t < inst.phase.toNat) :
    (inst.take c pbft).phase = inst.phase ∧ (inst.take c pbft).phaseItem = inst.phaseItem := by
  unfold take
  split
  · rcases takePrePrepare_cases c pbft.getPrePrepare inst with h | ⟨hphase, -⟩
    · rw [h]
      exact ⟨rfl, rfl⟩
    · rw [hphase] at hlt
      exact absurd hlt (Nat.not_lt_zero t)
  · rename_i htype
    obtain rfl : 1 = t := by simpa [htype, PbftMessageType.buffer] using hbuffer
    rcases takePrepare_phase c pbft.getPrepare inst with h | ⟨hlow, -⟩
    · exact h
    · exact absurd hlt (by omega)
  · rename_i htype
    obtain rfl : 2 = t := by simpa [htype, PbftMessageType.buffer] using hbuffer
    rcases takeCommit_phase c pbft.getCommit inst with h | ⟨hlow, -⟩
    · exact h
    · exact absurd hlt (by omega)
  · exact ⟨rfl, rfl⟩

theorem remaining_take (hbuffer : env.pbft.type.buffer = some inst.phase.toNat)
    (hitem : inst.phaseItem < (inst.msgBuf inst.phase.toNat).length) :
    (inst.meet.take c env.pbft).remaining < inst.remaining := by
  cases hphase : inst.phase with
  | none =>
    simp only [hphase, PbftInstancePhase.toNat] at hbuffer hitem
    simp only [take, type_of_buffer (a := .prePrepare) hbuffer rfl]
    rcases takePrePrepare_cases c env.pbft.getPrePrepare inst.meet with h | ⟨-, h⟩
    · simp only [h, remaining, meet_phase, meet_phaseItem, meet_msgBuf, hphase]
      omega
    · simp only [h, remaining, meet_msgBuf, hphase]
      omega
  | prePrepared =>
    simp only [hphase, PbftInstancePhase.toNat] at hbuffer hitem
    simp only [take, type_of_buffer (a := .prepare) hbuffer rfl]
    rcases takePrepare_phase c env.pbft.getPrepare inst.meet with ⟨h, hnext⟩ | ⟨-, h, hnext⟩
    · simp only [remaining, h, hnext, takePrepare_msgBuf, meet_phase, meet_phaseItem, meet_msgBuf, hphase]
      omega
    · simp only [remaining, h, hnext, takePrepare_msgBuf, meet_msgBuf, hphase]
      omega
  | prepared =>
    simp only [hphase, PbftInstancePhase.toNat] at hbuffer hitem
    simp only [take, type_of_buffer (a := .commit) hbuffer rfl]
    rcases takeCommit_phase c env.pbft.getCommit inst.meet with ⟨h, hnext⟩ | ⟨-, h, -⟩
    · simp only [remaining, h, hnext, takeCommit_msgBuf, meet_phase, meet_phaseItem, meet_msgBuf, hphase]
      omega
    · simp only [remaining, h, hphase]
      omega
  | commited =>
    rw [hphase] at hbuffer
    exact absurd (Pbft.Keeps.buffer_lt hbuffer) (Nat.lt_irrefl 3)

/-! ### The loop -/

theorem Filed.congr {inst' : PbftInstance} (hfiled : inst.Filed i) (h : inst'.msgBuf = inst.msgBuf) :
    inst'.Filed i := by
  unfold Filed
  rw [h]
  exact hfiled

@[simp] theorem takeAll_msgBuf : (inst.takeAll c rounds).msgBuf = inst.msgBuf := by
  induction rounds generalizing inst with
  | zero => rfl
  | succ rounds ih =>
    simp only [takeAll]
    split
    · rfl
    · rw [ih, take_msgBuf, meet_msgBuf]

theorem takeAll_phase_le : inst.phase.toNat ≤ (inst.takeAll c rounds).phase.toNat := by
  induction rounds generalizing inst with
  | zero => exact Nat.le_refl _
  | succ rounds ih =>
    simp only [takeAll]
    split
    · exact Nat.le_refl _
    · rename_i env _
      have hmeet : inst.meet.phase.toNat ≤ (inst.meet.take c env.pbft).phase.toNat := take_phase_le
      exact hmeet.trans ih

theorem takeAll_commited (h : inst.phase = .commited) : (inst.takeAll c rounds).phase = .commited := by
  have hle : inst.phase.toNat ≤ (inst.takeAll c rounds).phase.toNat := takeAll_phase_le
  rw [h] at hle
  revert hle
  cases (inst.takeAll c rounds).phase <;> simp [PbftInstancePhase.toNat]

theorem Filed.last (hfiled : inst.Filed i) : inst.msgBuf 3 = [] := by
  rw [List.eq_nil_iff_forall_not_mem]
  exact fun env henv => absurd (Pbft.Keeps.buffer_lt (hfiled 3 env henv).1) (Nat.lt_irrefl 3)

theorem takeAll_met (hfiled : inst.Filed i) (hrounds : inst.remaining ≤ rounds) : (inst.takeAll c rounds).Met := by
  induction rounds generalizing inst with
  | zero =>
    unfold takeAll Met
    cases hphase : inst.phase with
    | commited =>
      simp only [PbftInstancePhase.toNat, hfiled.last]
      exact Nat.zero_le _
    | _ =>
      simp only [remaining, hphase] at hrounds
      simp only [PbftInstancePhase.toNat]
      omega
  | succ rounds ih =>
    simp only [takeAll]
    split
    · rename_i hnone
      exact List.getElem?_eq_none_iff.mp hnone
    · rename_i env henv
      obtain ⟨hitem, -⟩ := List.getElem?_eq_some_iff.mp henv
      have hlt := remaining_take (c := c) (hfiled _ env (List.mem_of_getElem? henv)).1 hitem
      exact ih (hfiled.congr take_msgBuf) (by omega)

theorem remaining_le : inst.remaining ≤ (inst.msgBuf 0).length + (inst.msgBuf 1).length + (inst.msgBuf 2).length := by
  unfold remaining
  split <;> omega

theorem takeAll_opened (hphase : inst.phase = .none)
    (hopened : (inst.takeAll c rounds).phase ≠ .none) : ∃ env, env ∈ (inst.msgBuf 0).drop inst.phaseItem := by
  cases rounds with
  | zero => exact absurd hphase hopened
  | succ rounds =>
    simp only [takeAll] at hopened
    split at hopened
    · exact absurd hphase hopened
    · rename_i env henv
      rw [hphase] at henv
      exact ⟨env, List.mem_iff_getElem?.mpr ⟨0, by rw [List.getElem?_drop]; exact henv⟩⟩

end PbftInstance

namespace Pbft
open PbftInstance (Setting)

/-- The setting of the messages of a replica. -/
def setting (n : PbftNode) (now : Int64) (ret : CheckValueResult) (s : Pbft) : Setting where
  node := n
  now := now
  leads := decide (s.primary s.viewNumber = s.replicaId ∧ s.validators.size ≠ 1)
  quorum := s.quorum
  ret := ret

/-- No instance is so far ahead of the instance `i` that its execution erases it. -/
def NoneAhead (s : Pbft) (i : PbftInstanceIndex) : Prop :=
  1 ≤ s.lastExeSeq ∧ ∀ (j : PbftInstanceIndex) inst, s.instances[j]? = some inst →
    j.sequence.toInt < i.sequence.toInt + 5

/-- The replica `t` is `s` with the content `inst` of the instance `i`, unless that has been committed and erased;
other instances may have been erased too. -/
structure Follows (s : Pbft) (i : PbftInstanceIndex) (inst : PbftInstance) (t : Pbft) : Prop where
  validators : t.validators = s.validators
  replicaId : t.replicaId = s.replicaId
  viewNumber : t.viewNumber = s.viewNumber
  lastExeSeq : s.lastExeSeq ≤ t.lastExeSeq
  own : ∀ inst', t.instances[i]? = some inst' → inst' = inst
  gone : t.instances[i]? = none → inst.phase = .commited ∧ ¬NoneAhead s i
  others : ∀ (j : PbftInstanceIndex) inst', j ≠ i → t.instances[j]? = some inst' → s.instances[j]? = some inst'

variable {n : PbftNode} {now : Int64} {ret : CheckValueResult} {s t u : Pbft} {i : PbftInstanceIndex}
  {inst inst' : PbftInstance} {pbft : Protocol.Pbft} {env : PbftEnv}

theorem Follows.setting (h : Follows s i inst t) : t.setting n now ret = s.setting n now ret := by
  have hprimary : t.primary t.viewNumber = s.primary s.viewNumber := by
    rw [primary, primary, h.validators, h.viewNumber]
  have hquorum : t.quorum = s.quorum := by rw [quorum, quorum, h.validators]
  unfold Pbft.setting
  simp only [hprimary, hquorum, h.validators, h.replicaId]

theorem Follows.noneAhead (h : Follows s i inst t) (hnone : NoneAhead s i) : NoneAhead t i := by
  refine ⟨Int64.le_trans hnone.1 h.lastExeSeq, fun j inst' hj => ?_⟩
  by_cases hji : j = i
  · rw [hji]
    omega
  · exact hnone.2 j inst' (h.others j inst' hji hj)

theorem Follows.trans (h : Follows s i inst t) (h' : Follows t i inst' u) : Follows s i inst' u where
  validators := h'.validators.trans h.validators
  replicaId := h'.replicaId.trans h.replicaId
  viewNumber := h'.viewNumber.trans h.viewNumber
  lastExeSeq := Int64.le_trans h.lastExeSeq h'.lastExeSeq
  own := h'.own
  gone hgone := ⟨(h'.gone hgone).1, fun hnone => (h'.gone hgone).2 (h.noneAhead hnone)⟩
  others j inst'' hj hget := h.others j inst'' hj (h'.others j inst'' hj hget)

theorem Follows.refl (hi : s.instances[i]? = some inst) : Follows s i inst s where
  validators := rfl
  replicaId := rfl
  viewNumber := rfl
  lastExeSeq := Int64.le_refl _
  own _ hi' := Option.some.inj (hi'.symm.trans hi)
  gone hnone := absurd (hi.symm.trans hnone) nofun
  others _ _ _ hget := hget

theorem Follows.put : Follows s i inst (s.put i inst) where
  validators := rfl
  replicaId := rfl
  viewNumber := rfl
  lastExeSeq := Int64.le_refl _
  own _ hi := Option.some.inj (hi.symm.trans put_getElem)
  gone hnone := absurd (put_getElem.symm.trans hnone) nofun
  others _ _ hj hget := (Table.insert_of_ne hj).symm.trans hget

theorem Follows.sendMessage (h : Follows s i inst t) : Follows s i inst (t.sendMessage env) := by
  unfold Pbft.sendMessage
  split
  · exact ⟨h.validators, h.replicaId, h.viewNumber, h.lastExeSeq, h.own, h.gone, h.others⟩
  · exact h

/-! ### Execution erases instances only -/

theorem executeValues_frame (l : List (PbftInstanceIndex × PbftInstance)) (s : Pbft) :
    (executeValues l s).validators = s.validators ∧ (executeValues l s).replicaId = s.replicaId ∧
      (executeValues l s).viewNumber = s.viewNumber ∧
      ∀ (j : PbftInstanceIndex) inst, (executeValues l s).instances[j]? = some inst → s.instances[j]? = some inst := by
  induction l generalizing s with
  | nil => exact ⟨rfl, rfl, rfl, fun _ _ h => h⟩
  | cons p l ih =>
    obtain ⟨j, inst⟩ := p
    simp only [executeValues]
    split_ifs
    · exact ih s
    · obtain ⟨hvalidators, hid, hview, hsub⟩ := ih (executeValue j inst s)
      exact ⟨hvalidators, hid, hview, fun k inst' hk => (Table.filter_eq_some.mp (hsub k inst' hk)).1⟩
    · exact ⟨rfl, rfl, rfl, fun _ _ h => h⟩

theorem lastExeSeq_le_executeValues (l : List (PbftInstanceIndex × PbftInstance)) (s : Pbft) :
    s.lastExeSeq ≤ (executeValues l s).lastExeSeq := by
  induction l generalizing s with
  | nil => exact Int64.le_refl _
  | cons p l ih =>
    obtain ⟨i, inst⟩ := p
    simp only [executeValues]
    split_ifs with hle hready
    · exact ih s
    · have hlast : s.lastExeSeq ≤ (executeValue i inst s).lastExeSeq := by
        change _ ≤ s.lastExeSeq + 1
        rw [← hready.1]
        exact Int64.le_of_lt (Int64.not_le.mp hle)
      exact Int64.le_trans hlast (ih _)
    · exact Int64.le_refl _

theorem executeValues_stays {l : List (PbftInstanceIndex × PbftInstance)} (hstarted : 1 ≤ s.lastExeSeq)
    (hl : ∀ p ∈ l, p.1.sequence.toInt < i.sequence.toInt + 5) (hi : s.instances[i]? = some inst) :
    (executeValues l s).instances[i]? = some inst := by
  induction l generalizing s with
  | nil => exact hi
  | cons p l ih =>
    obtain ⟨j, inst'⟩ := p
    have hrest := fun q hq => hl q (List.mem_cons_of_mem _ hq)
    simp only [executeValues]
    split_ifs with hle hready
    · exact ih hstarted hrest hi
    · have hlt : s.lastExeSeq < j.sequence := Int64.not_le.mp hle
      have hstarted' : 1 ≤ (executeValue j inst' s).lastExeSeq := by
        change 1 ≤ s.lastExeSeq + 1
        rw [← hready.1]
        exact Int64.le_trans hstarted (Int64.le_of_lt hlt)
      have hkept : (!decide (i.sequence ≤ j.sequence - ckpInterval / 2)) = true := by
        have hahead : j.sequence.toInt < i.sequence.toInt + 5 := hl (j, inst') List.mem_cons_self
        have h1 : (1 : Int64).toInt = 1 := rfl
        have h5 : (ckpInterval / 2).toInt = 5 := by decide
        have := j.sequence.toInt_lt
        simp only [Bool.not_eq_true', decide_eq_false_iff_not, Int64.lt_iff_toInt_lt, Int64.le_iff_toInt_le]
          at hlt hstarted ⊢
        rw [SafeInt.toInt_sub_of_range] <;> omega
      have hfilter : (s.instances.filter fun k _ => !decide (k.sequence ≤ j.sequence - ckpInterval / 2))[i]? =
        some inst := by rw [Table.filter_eq_some]; exact ⟨hi, hkept⟩
      exact ih hstarted' hrest hfilter
    · exact hi

theorem Follows.tryExecuteValue (h : Follows s i inst t) (hphase : inst.phase = .commited) :
    Follows s i inst t.tryExecuteValue := by
  obtain ⟨hvalidators, hid, hview, hsub⟩ := executeValues_frame t.instances.toList t
  have hlast : t.lastExeSeq ≤ t.tryExecuteValue.lastExeSeq := lastExeSeq_le_executeValues t.instances.toList t
  refine ⟨hvalidators.trans h.validators, hid.trans h.replicaId, hview.trans h.viewNumber,
    Int64.le_trans h.lastExeSeq hlast, fun inst' hi => h.own inst' (hsub i inst' hi),
    fun hgone => ⟨hphase, fun hnone => ?_⟩, fun j inst' hj hget => h.others j inst' hj (hsub j inst' hget)⟩
  obtain ⟨hstarted, hahead⟩ := h.noneAhead hnone
  cases hi : t.instances[i]? with
  | none => exact (h.gone hi).2 hnone
  | some inst' =>
    have hstays := executeValues_stays hstarted (fun p hp => hahead p.1 p.2 (Table.mem_toList.mp hp)) hi
    exact absurd (hstays.symm.trans hgone) nofun

/-! ### The three phases -/

theorem follows_onPrePrepare (hi : s.instances[i]? = some inst) :
    Follows s i (inst.takePrePrepare (s.setting n now ret) pbft.getPrePrepare)
      (onPrePrepare n pbft i inst ret s).1 := by
  simp only [onPrePrepare, PbftInstance.takePrePrepare, Pbft.setting, decide_eq_true_eq]
  by_cases hleads : s.primary s.viewNumber = s.replicaId ∧ s.validators.size ≠ 1
  · rw [if_pos hleads, if_pos (.inl hleads)]
    exact .refl hi
  rw [if_neg hleads]
  by_cases hdigest : pbft.getPrePrepare.valueDigest = n.crypto pbft.getPrePrepare.value
  · rw [if_neg (not_not.mpr hdigest)]
    by_cases hret : ret = .invalid
    · rw [if_pos hret, if_pos (.inr (.inr (.inl hret)))]
      exact .refl hi
    rw [if_neg hret]
    by_cases hphase : inst.phase = .none
    · rw [if_neg (not_not.mpr hphase), if_neg (by simp [hleads, hdigest, hret, hphase])]
      split_ifs
      · exact .put
      · exact Follows.put.sendMessage
    · rw [if_pos hphase, if_pos (.inr (.inr (.inr hphase)))]
      split_ifs
      · exact .refl hi
      · exact .refl hi
      · exact (Follows.refl hi).sendMessage
  · rw [if_pos hdigest, if_pos (.inr (.inl hdigest))]
    exact .refl hi

theorem follows_onPrepare (hi : s.instances[i]? = some inst) :
    Follows s i (inst.takePrepare (s.setting n now ret) pbft.getPrepare) (onPrepare n now pbft i inst s).1 := by
  simp only [onPrepare]
  unfold PbftInstance.takePrepare
  by_cases hdigest : inst.prePrepare.valueDigest = pbft.getPrepare.valueDigest
  · rw [if_neg (not_not.mpr hdigest), if_neg (not_not.mpr hdigest)]
    by_cases hquorum : (inst.addPrepare pbft.getPrepare).prepares.size ≥ s.quorum
    · have hlow : ¬(inst.addPrepare pbft.getPrepare).prepares.size < (s.setting n now ret).quorum :=
        Nat.not_lt.mpr hquorum
      rw [if_pos hquorum, if_neg hlow]
      by_cases hvalid : (inst.addPrepare pbft.getPrepare).toPrepared.checkValueResult = .valid
      · rw [if_pos hvalid, if_pos hvalid]
        exact Follows.put.sendMessage
      · rw [if_neg hvalid, if_neg hvalid]
        exact .put
    · have hlow : (inst.addPrepare pbft.getPrepare).prepares.size < (s.setting n now ret).quorum :=
        Nat.lt_of_not_le hquorum
      rw [if_neg hquorum, if_pos hlow]
      exact .put
  · rw [if_pos hdigest, if_pos hdigest]
    exact .refl hi

theorem follows_onCommit (n : PbftNode) (ret : CheckValueResult) (hi : s.instances[i]? = some inst) :
    Follows s i (inst.takeCommit (s.setting n now ret) pbft.getCommit) (onCommit now pbft i inst s).1 := by
  simp only [onCommit]
  unfold PbftInstance.takeCommit
  by_cases hdigest : inst.prePrepare.valueDigest = pbft.getCommit.valueDigest
  · rw [if_neg (not_not.mpr hdigest)]
    by_cases hknown : inst.commits.contains pbft.getCommit.replicaId = true
    · rw [if_pos hknown, if_pos (.inr hknown)]
      exact .refl hi
    · rw [if_neg hknown, if_neg (by simp [hdigest, hknown])]
      by_cases hquorum : (inst.addCommit pbft.getCommit).commits.size ≥ s.quorum + 1 ∧
          (inst.addCommit pbft.getCommit).phase.toNat < 3
      · have hdone : (inst.addCommit pbft.getCommit).commits.size ≥ (s.setting n now ret).quorum + 1 ∧
            inst.phase.toNat < 3 := hquorum
        rw [if_pos hquorum, if_pos hdone]
        exact Follows.put.tryExecuteValue rfl
      · have hmore : ¬((inst.addCommit pbft.getCommit).commits.size ≥ (s.setting n now ret).quorum + 1 ∧
            inst.phase.toNat < 3) := hquorum
        rw [if_neg hquorum, if_neg hmore]
        exact .put
  · rw [if_pos hdigest, if_pos (.inl hdigest)]
    exact .refl hi

theorem follows_onMessage (hi : s.instances[i]? = some inst) :
    Follows s i (inst.take (s.setting n now ret) pbft) (onMessage n now pbft i inst ret s).1 := by
  unfold onMessage PbftInstance.take
  cases pbft.type with
  | prePrepare => exact follows_onPrePrepare hi
  | prepare => exact follows_onPrepare hi
  | commit => exact follows_onCommit n ret hi
  | _ => exact .refl hi

theorem follows_goLoop {doret : Bool} (hi : s.instances[i]? = some inst) :
    Follows s i (inst.takeAll (s.setting n now ret) rounds) (goLoop n now i ret rounds s doret).1 := by
  induction rounds generalizing s inst doret with
  | zero => exact .refl hi
  | succ rounds ih =>
    simp only [goLoop, hi, PbftInstance.takeAll]
    cases (inst.msgBuf inst.phase.toNat)[inst.phaseItem]? with
    | none => exact .refl hi
    | some env =>
      have hone : Follows s i (inst.meet.take (s.setting n now ret) env.pbft)
          (onMessage n now env.pbft i inst.meet ret (s.put i inst.meet)).1 :=
        Follows.put.trans (follows_onMessage put_getElem)
      change Follows s i ((inst.meet.take (s.setting n now ret) env.pbft).takeAll (s.setting n now ret) rounds)
        (goLoop n now i ret rounds
        (onMessage n now env.pbft i inst.meet ret (s.put i inst.meet)).1 _).1
      generalize (onMessage n now env.pbft i inst.meet ret (s.put i inst.meet)).1 = s' at hone
      cases hi' : s'.instances[i]? with
      | none =>
        have hstop : ∀ d, (goLoop n now i ret rounds s' d).1 = s' := by
          intro d
          cases rounds <;> simp [goLoop, hi']
        rw [hstop]
        obtain ⟨hphase, hahead⟩ := hone.gone hi'
        refine ⟨hone.validators, hone.replicaId, hone.viewNumber, hone.lastExeSeq,
          fun _ h => (by cases hi'.symm.trans h), fun _ => ⟨?_, hahead⟩, hone.others⟩
        -- what is left of the loop does not take the phase back
        exact PbftInstance.takeAll_commited hphase
      | some inst' =>
        rw [← hone.own inst' hi', ← hone.setting]
        exact hone.trans (ih hi')

theorem follows_go (hi : s.instances[i]? = some inst) :
    Follows s i (inst.go (s.setting n now ret) env) (go n now env i ret s).1 := by
  simp only [go, hi, PbftInstance.go]
  split
  · exact follows_onMessage hi
  · exact follows_goLoop hi

/-! ### A message of the three phases -/

theorem traceOutPbftCommit_cases (now : Int64) (s : Pbft) (htype : env.pbft.type = .commit)
    (hindex : indexOf env.pbft = some i) :
    (∃ inst, s.instances[i]? = some inst ∧ (traceOutPbftCommit now env s).1 = (onCommit now env.pbft i inst s).1) ∨
      Calm s (traceOutPbftCommit now env s).1 ∨
      i.sequence - s.lastExeSeq ≥ ckpInterval ∧ (traceOutPbftCommit now env s).1.lastExeSeq = i.sequence ∧
        (traceOutPbftCommit now env s).1.instances =
          s.instances.filter fun j _ => !decide (j.sequence ≤ i.sequence) := by
  obtain rfl : ⟨env.pbft.getCommit.viewNumber, env.pbft.getCommit.sequence⟩ = i := by
    simpa [indexOf, htype] using hindex
  unfold traceOutPbftCommit
  dsimp only
  split
  · rename_i inst hi
    exact .inl ⟨inst, hi, rfl⟩
  · split_ifs
    · exact .inr (.inl (.refl s))
    · unfold tryDoTraceOut
      split_ifs with hfar
      · exact .inr (.inr ⟨hfar.2, rfl, rfl⟩)
      · exact .inr (.inl (.of_eq rfl rfl rfl rfl))

def filed (s : Pbft) (now : Int64) (i : PbftInstanceIndex) (inst : PbftInstance) (env : PbftEnv) : Pbft :=
  (s.createInstance now i).put i (inst.push (env.pbft.type.buffer.getD 0) env)

theorem onRecv_phases (n : PbftNode) (now : Int64) (checkValue : CheckValueResult) (s : Pbft)
    (hcheck : checkMessageItem n.toKeys s.validators env = true) (hindex : indexOf env.pbft = some i) :
    ∃ ret, (onRecv n now env checkValue s).1 = (match s.createInstanceIfNotExist now env with
        | (s, some i) => go n now env i ret s
        | (s, none) => (s, false)).1 := by
  rw [onRecv, if_pos hcheck]
  cases htype : env.pbft.type with
  | prePrepare | prepare | commit => exact ⟨_, rfl⟩
  | _ => simp [indexOf, htype] at hindex

/-- A message of the three phases gets to its instance, which is made if it is not there: it is of the active view,
within the water marks and not executed. -/
def Joins (s : Pbft) (i : PbftInstanceIndex) : Prop :=
  i.viewNumber = s.viewNumber ∧ s.inWaterMark i.sequence = true ∧ s.viewActive = true ∧ s.lastExeSeq < i.sequence

instance (s : Pbft) (i : PbftInstanceIndex) : Decidable (s.Joins i) := inferInstanceAs (Decidable (_ ∧ _))

theorem onRecv_cases (n : PbftNode) (now : Int64) (checkValue : CheckValueResult) (s : Pbft)
    (hcheck : checkMessageItem n.toKeys s.validators env = true) (hindex : indexOf env.pbft = some i) :
    Calm s (onRecv n now env checkValue s).1 ∨ (env.pbft.type = .commit ∧ s.lastExeSeq < i.sequence ∧
        ((∃ inst, s.instances[i]? = some inst ∧
            (onRecv n now env checkValue s).1 = (onCommit now env.pbft i inst s).1) ∨
          i.sequence - s.lastExeSeq ≥ ckpInterval ∧ (onRecv n now env checkValue s).1.lastExeSeq = i.sequence ∧
            (onRecv n now env checkValue s).1.instances =
              s.instances.filter fun j _ => !decide (j.sequence ≤ i.sequence))) ∨
      ∃ inst ret, (s.instances[i]? = some inst ∨ s.instances[i]? = none ∧ inst = .new now) ∧
        s.Joins i ∧ (onRecv n now env checkValue s).1 = (go n now env i ret (s.filed now i inst env)).1 := by
  obtain ⟨ret, hphases⟩ := onRecv_phases n now checkValue s hcheck hindex
  rw [hphases]
  simp only [createInstanceIfNotExist, hindex]
  split_ifs with hout hcommit hactive hpassed
  · rcases traceOutPbftCommit_cases now s hcommit.2 hindex with h | h | h
    · exact .inr (.inl ⟨hcommit.2, hcommit.1, .inl h⟩)
    · exact .inl h
    · exact .inr (.inl ⟨hcommit.2, hcommit.1, .inr h⟩)
  · exact .inl (.refl s)
  · exact .inl (.refl s)
  · exact .inl (.refl s)
  · have hjoins : s.Joins i := by
      simp only [Bool.or_eq_true, Bool.not_eq_true', Bool.not_eq_false, bne_iff_ne, ne_eq, not_or,
        Decidable.not_not] at hout hactive
      exact ⟨hout.2.symm, hout.1, hactive, Int64.not_le.mp hpassed⟩
    cases hi : s.instances[i]? with
    | some inst =>
      have hsame : s.createInstance now i = s := by
        rw [createInstance, if_pos (Table.contains_iff.mpr ⟨inst, hi⟩)]
      refine .inr (.inr ⟨inst, ret, .inl rfl, hjoins, ?_⟩)
      simp only [filed, hsame, hi]
    | none =>
      have hnew : (s.createInstance now i).instances[i]? = some (.new now) := by
        rw [createInstance, if_neg fun h => by
          obtain ⟨inst, h⟩ := Table.contains_iff.mp h
          cases hi.symm.trans h]
        exact Table.filter_eq_some.mpr ⟨Std.TreeMap.getElem?_insert_self, by simp [Int64.lt_irrefl]⟩
      refine .inr (.inr ⟨.new now, ret, .inr ⟨rfl, rfl⟩, hjoins, ?_⟩)
      simp only [filed, hnew]

theorem filed_getElem {j : PbftInstanceIndex} (hne : j ≠ i)
    (hj : (s.filed now i inst env).instances[j]? = some inst') : s.instances[j]? = some inst' := by
  have hj : (s.createInstance now i).instances[j]? = some inst' := (Table.insert_of_ne hne).symm.trans hj
  unfold createInstance at hj
  split at hj
  · exact hj
  · exact (Table.insert_of_ne hne).symm.trans (Table.filter_eq_some.mp hj).1

theorem follows_filed {b : ℕ} (n : PbftNode) (now : Int64) (ret : CheckValueResult) (s : Pbft) (i : PbftInstanceIndex)
    (inst : PbftInstance) (hbuffer : env.pbft.type.buffer = some b) :
    Follows (s.filed now i inst env) i ((inst.push b env).go ((s.filed now i inst env).setting n now ret) env)
      (go n now env i ret (s.filed now i inst env)).1 := by
  refine follows_go (put_getElem.trans ?_)
  rw [hbuffer, Option.getD_some]

end Pbft
end OpenSesame
