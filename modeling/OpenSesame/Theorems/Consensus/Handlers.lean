import OpenSesame.Theorems.Consensus.Moves

/-! # The calls of a replica are sequences of moves

One lemma for each function of the model: what the moves keep, the function keeps. -/

namespace OpenSesame
open Protocol
namespace Pbft
namespace Keeps

variable {n : PbftNode} {D : PbftEnv → Prop} {T : Rules} {I : Pbft → Prop} {s : Pbft} {i : PbftInstanceIndex}
  {inst inst' : PbftInstance} {env : PbftEnv} {now : Int64}

theorem sendMessage (K : Keeps n D T I) (h : I s) (hsends : Sends n s env) : I (s.sendMessage env) := by
  unfold Pbft.sendMessage
  split
  · exact K.move _ _ h (.send hsends)
  · exact h

theorem side (K : Keeps n D T I) {t : Pbft} (h : I s) (hst : Side s t) : I t := K.move _ _ h (.side hst)

theorem put (K : Keeps n D T I) (h : I s) (hi : s.instances[i]? = some inst) (ha : Advance n D T s i inst inst') :
    I (s.put i inst') :=
  K.move _ _ h (.change hi (.single ha))

theorem executeValues (K : Keeps n D T I) {l : List (PbftInstanceIndex × PbftInstance)} (h : I s)
    (hl : ∀ p ∈ l, s.lastExeSeq < p.1.sequence → s.instances[p.1]? = some p.2) : I (executeValues l s) := by
  induction l generalizing s with
  | nil => exact h
  | cons p l ih =>
    obtain ⟨i, inst⟩ := p
    have hrest := fun q hq => hl q (List.mem_cons_of_mem _ hq)
    simp only [Pbft.executeValues]
    split_ifs with hle hnext
    · exact ih h hrest
    · obtain ⟨hnext, hphase⟩ := hnext
      have hlt : s.lastExeSeq < i.sequence := Int64.not_le.mp hle
      have hphase : inst.phase = .commited := by
        revert hphase
        cases inst.phase <;> decide
      refine ih (K.move _ _ h (.execute (hl _ List.mem_cons_self hlt) hphase hlt hnext)) ?_
      -- what is left of the list has not been erased if it is still to be executed
      intro q hq hlt'
      have hlt' : i.sequence < q.1.sequence := by rwa [hnext]
      refine Table.filter_eq_some.mpr ⟨hrest q hq (Int64.lt_trans hlt hlt'), ?_⟩
      have hstarted := (K.shape s h).started
      have h1 : (1 : Int64).toInt = 1 := rfl
      have h5 : (ckpInterval / 2).toInt = 5 := by decide
      simp only [Bool.not_eq_true', decide_eq_false_iff_not, Int64.lt_iff_toInt_lt,
        Int64.le_iff_toInt_le] at hlt hlt' hstarted ⊢
      have := i.sequence.toInt_lt
      rw [SafeInt.toInt_sub_of_range] <;> omega
    · exact h

theorem tryExecuteValue (K : Keeps n D T I) (h : I s) : I s.tryExecuteValue :=
  K.executeValues h fun _ hp _ => Table.mem_toList.mp hp

/-! ### The three phases -/

variable {ret : CheckValueResult}

theorem onPrePrepare (K : Keeps n D T I) (h : I s) (hi : s.instances[i]? = some inst)
    (henv : env ∈ inst.msgBuf 0) : I (Pbft.onPrePrepare n env.pbft i inst ret s).1 := by
  simp only [Pbft.onPrePrepare]
  split_ifs with hprimary hdigest hret hphase hvalue hvalid
  · exact h
  · exact h
  · exact h
  · exact h
  · exact h
  · exact K.sendMessage h (.other nofun)
  · exact K.put h hi (.prePrepare (not_not.mp hphase) henv (not_not.mp hdigest))
  · exact K.sendMessage (K.put h hi (.prePrepare (not_not.mp hphase) henv (not_not.mp hdigest))) (.other nofun)

theorem index_of_prepare (h : InstanceShape n D s.validators i inst) (henv : env ∈ inst.msgBuf 1) :
    env.pbft.getPrepare.viewNumber = i.viewNumber ∧ env.pbft.getPrepare.sequence = i.sequence := by
  obtain ⟨hbuffer, hindex, -⟩ := h.filed 1 env henv
  have htype : env.pbft.type = .prepare := by
    revert hbuffer
    cases env.pbft.type <;> simp [PbftMessageType.buffer]
  simp only [indexOf, htype, Option.some.injEq] at hindex
  rw [← hindex]
  exact ⟨rfl, rfl⟩

theorem toPrepared_phase : 2 ≤ inst.toPrepared.phase.toNat := by
  unfold PbftInstance.toPrepared
  split
  · exact Nat.le_refl 2
  · omega

theorem advances_toPrepared (hphase : 1 ≤ inst.phase.toNat) (hquorum : s.quorum ≤ inst.prepares.size) :
    Relation.ReflTransGen (Advance n D T s i) inst inst.toPrepared := by
  by_cases h2 : inst.phase.toNat < 2
  · exact .single (.prepared (by omega) hquorum)
  · rw [PbftInstance.toPrepared, if_neg h2]

theorem onPrepare (K : Keeps n D T I) (h : I s) (hi : s.instances[i]? = some inst) (henv : env ∈ inst.msgBuf 1)
    (hphase : 1 ≤ inst.phase.toNat) : I (Pbft.onPrepare n now env.pbft i inst s).1 := by
  obtain ⟨hview, hsequence⟩ := index_of_prepare ((K.shape s h).instances i inst hi) henv
  simp only [Pbft.onPrepare]
  split_ifs with hdigest hquorum hvalid
  · exact h
  · -- the quorum is reached, and the commit message goes out
    have hadd : Advance n D T s i inst (inst.addPrepare env.pbft.getPrepare) :=
      .prepare hphase henv (not_not.mp hdigest)
    have hput : I (s.put i { (inst.addPrepare env.pbft.getPrepare).toPrepared with lastCommitSendTime := now }) :=
      K.move _ _ h (.change hi ((Relation.ReflTransGen.single hadd).trans (advances_toPrepared hphase hquorum) |>.tail
          (.quiet ⟨rfl, rfl, rfl, rfl, rfl, rfl, rfl⟩)))
    refine K.sendMessage hput (.commit Std.TreeMap.getElem?_insert_self toPrepared_phase hview hsequence ?_)
    have hsame : (inst.addPrepare env.pbft.getPrepare).toPrepared.prePrepare = inst.prePrepare := by
      unfold PbftInstance.toPrepared
      split <;> rfl
    change _ = (inst.addPrepare env.pbft.getPrepare).toPrepared.prePrepare.valueDigest
    rw [hsame]
    exact (not_not.mp hdigest).symm
  · exact K.move _ _ h (.change hi ((Relation.ReflTransGen.single (.prepare hphase henv (not_not.mp hdigest))).trans
        (advances_toPrepared hphase hquorum)))
  · exact K.put h hi (.prepare hphase henv (not_not.mp hdigest))

theorem onCommit (K : Keeps n D T I) (h : I s) (hi : s.instances[i]? = some inst) (hphase : 2 ≤ inst.phase.toNat)
    (hD : D env) (hcheck : checkMessageItem n.toKeys s.validators env = true) (htype : env.pbft.type = .commit)
    (hindex : indexOf env.pbft = some i) (hplace : env ∈ inst.msgBuf 2 ∨ T.traced env) :
    I (Pbft.onCommit now env.pbft i inst s).1 := by
  simp only [Pbft.onCommit]
  split_ifs with hdigest hknown hquorum
  · exact h
  · exact h
  · have hadd : Advance n D T s i inst (inst.addCommit env.pbft.getCommit) :=
      .commit hphase hD hcheck htype hindex hplace (not_not.mp hdigest)
    have hphase' : (inst.addCommit env.pbft.getCommit).phase.toNat = 2 :=
      Nat.le_antisymm (Nat.le_of_lt_succ hquorum.2) hphase
    exact K.tryExecuteValue (K.move _ _ h (.change hi (.tail (.single hadd) (.commited hphase' hquorum.1))))
  · exact K.put h hi (.commit hphase hD hcheck htype hindex hplace (not_not.mp hdigest))

theorem buffer_lt {type : PbftMessageType} {t : ℕ} (h : type.buffer = some t) : t < 3 := by
  cases type <;> simp only [PbftMessageType.buffer, Option.some.injEq, reduceCtorEq] at h <;> omega

theorem onMessage (K : Keeps n D T I) {t : ℕ} (h : I s) (hi : s.instances[i]? = some inst)
    (hcheck : checkMessageItem n.toKeys s.validators env = true) (henv : env ∈ inst.msgBuf t)
    (hphase : t ≤ inst.phase.toNat) : I (Pbft.onMessage n now env.pbft i inst ret s).1 := by
  obtain ⟨hbuffer, hindex, hD⟩ := (K.shape s h).instances i inst hi |>.filed t env henv
  unfold Pbft.onMessage
  split
  · rename_i htype
    obtain rfl : 0 = t := by simpa [htype, PbftMessageType.buffer] using hbuffer
    exact K.onPrePrepare h hi henv
  · rename_i htype
    obtain rfl : 1 = t := by simpa [htype, PbftMessageType.buffer] using hbuffer
    exact K.onPrepare h hi henv hphase
  · rename_i htype
    obtain rfl : 2 = t := by simpa [htype, PbftMessageType.buffer] using hbuffer
    exact K.onCommit h hi hphase (hD htype) hcheck htype hindex (.inl henv)
  · exact h

theorem goLoop (K : Keeps n D T I) {rounds : ℕ} {doret : Bool} (h : I s) :
    I (Pbft.goLoop n now i ret rounds s doret).1 := by
  induction rounds generalizing s doret with
  | zero => exact h
  | succ rounds ih =>
    simp only [Pbft.goLoop]
    split
    · exact h
    · rename_i inst hi
      split
      · exact h
      · rename_i env henv
        have henv := List.mem_of_getElem? henv
        have hinst := (K.shape s h).instances i inst hi
        obtain ⟨hbuffer, -⟩ := hinst.filed _ env henv
        have hphase := buffer_lt hbuffer
        refine ih (K.onMessage (K.put h hi (.quiet ⟨rfl, rfl, rfl, rfl, rfl, rfl, rfl⟩))
          Std.TreeMap.getElem?_insert_self (hinst.checked hphase _ env henv) ?_ (le_refl inst.phase.toNat))
        exact henv

theorem go (K : Keeps n D T I) {t : ℕ} (h : I s) (hi : s.instances[i]? = some inst)
    (hcheck : checkMessageItem n.toKeys s.validators env = true) (hbuffer : env.pbft.type.buffer = some t)
    (henv : env ∈ inst.msgBuf t) : I (Pbft.go n now env i ret s).1 := by
  simp only [Pbft.go, hi, hbuffer, Option.getD_some]
  split
  · exact K.onMessage h hi hcheck henv (Nat.le_of_lt ‹_›)
  · exact K.goLoop h

/-! ### Catching up and new instances -/

theorem tryDoTraceOut (K : Keeps n D T I) (h : I s) (hlast : s.lastExeSeq < i.sequence) :
    I (Pbft.tryDoTraceOut i inst s) := by
  unfold Pbft.tryDoTraceOut
  split_ifs with hfar
  · refine K.side (K.move _ _ h (.catchUp hlast hfar.2)) ⟨rfl, rfl, rfl, rfl, rfl, rfl, rfl, rfl, ?_⟩
    exact fun hvc v vc hv => hvc v vc (Table.filter_eq_some.mp hv).1
  · exact h

theorem traceOutPbftCommit (K : Keeps n D T I) (h : I s) (hD : D env)
    (hcheck : checkMessageItem n.toKeys s.validators env = true) (htype : env.pbft.type = .commit)
    (hindex : indexOf env.pbft = some i) (hlast : s.lastExeSeq < i.sequence)
    (hview : ∀ inst, s.instances[i]? = some inst → i.viewNumber ≠ s.viewNumber ∧ T.traced env) :
    I (Pbft.traceOutPbftCommit now env s).1 := by
  obtain rfl : ⟨env.pbft.getCommit.viewNumber, env.pbft.getCommit.sequence⟩ = i := by
    simpa [indexOf, htype] using hindex
  unfold Pbft.traceOutPbftCommit
  dsimp only
  split
  · rename_i inst hi
    obtain ⟨hne, hT⟩ := hview inst hi
    exact K.onCommit h hi ((K.shape s h).older _ inst hi hne) hD hcheck htype hindex (.inr hT)
  · split_ifs
    · exact h
    · exact K.tryDoTraceOut (K.side h ⟨rfl, rfl, rfl, rfl, rfl, rfl, rfl, rfl, id⟩) hlast

theorem createInstance (K : Keeps n D T I) (now : Int64) (h : I s) (hview : i.viewNumber = s.viewNumber)
    (hlast : s.lastExeSeq < i.sequence) (hnear : i.sequence ≤ s.lastExeSeq + ckpInterval) :
    I (s.createInstance now i) ∧ ∃ inst, (s.createInstance now i).instances[i]? = some inst ∧
      (s.instances[i]? = some inst ∨ inst = .new now) := by
  unfold Pbft.createInstance
  by_cases hold : s.instances.contains i
  · rw [if_pos hold]
    obtain ⟨inst, hi⟩ := Table.contains_iff.mp hold
    exact ⟨h, inst, hi, .inl hi⟩
  · rw [if_neg hold]
    have hnew : s.instances[i]? = none := by
      rw [Option.eq_none_iff_forall_ne_some]
      exact fun inst hi => hold (Table.contains_iff.mpr ⟨inst, hi⟩)
    refine ⟨K.move _ _ (K.move _ _ h (.create hview hlast hnear hnew)) (.forget ?_), ?_⟩
    · intro j inst hj hp
      simp only [Bool.not_eq_false', Bool.and_eq_true, decide_eq_true_eq] at hp
      exact hview ▸ hp.1
    · refine ⟨.new now, Table.filter_eq_some.mpr ⟨Std.TreeMap.getElem?_insert_self, ?_⟩, .inr rfl⟩
      simp [Int64.lt_irrefl]

theorem inWaterMark_of_near {seq : Int64} (hsmall : s.lastExeSeq.toInt + 10 < 2 ^ 63)
    (hlast : s.lastExeSeq < seq) (hnear : seq.toInt ≤ s.lastExeSeq.toInt + 10) : s.inWaterMark seq = true := by
  have h10 : ckpInterval.toInt = 10 := rfl
  have hle := s.lastExeSeq.le_toInt
  simp only [inWaterMark, Bool.and_eq_true, decide_eq_true_eq]
  refine ⟨Int64.le_of_lt hlast, ?_⟩
  rw [Int64.le_iff_toInt_le, SafeInt.toInt_add_of_range] <;> omega

theorem createInstance_validators : (s.createInstance now i).validators = s.validators := by
  unfold Pbft.createInstance
  split <;> rfl

theorem createInstance_viewNumber : (s.createInstance now i).viewNumber = s.viewNumber := by
  unfold Pbft.createInstance
  split <;> rfl

theorem buffer_of_indexOf {pbft : Protocol.Pbft} (h : indexOf pbft = some i) : ∃ t, pbft.type.buffer = some t := by
  unfold indexOf at h
  split at h <;> simp_all [PbftMessageType.buffer]

/-- A commit message for an instance of another view than the one of the replica: it is counted, and not kept. -/
def Past (s : Pbft) (env : PbftEnv) : Prop :=
  env.pbft.type = .commit ∧ ∃ (i : PbftInstanceIndex) (inst : PbftInstance),
    indexOf env.pbft = some i ∧ s.instances[i]? = some inst ∧ i.viewNumber ≠ s.viewNumber

structure Allowed (T : Rules) (s : Pbft) (env : PbftEnv) : Prop where
  traced : Past s env → T.traced env
  fits : ∀ (i : PbftInstanceIndex) inst, indexOf env.pbft = some i → s.instances[i]? = some inst → T.fits inst env
  fresh : ∀ now, T.fits (.new now) env

theorem allowed_any : Allowed .any s env := ⟨fun _ => trivial, fun _ _ _ _ => trivial, fun _ => trivial⟩

theorem createInstanceIfNotExist (K : Keeps n D T I) (now : Int64) (h : I s)
    (hsmall : s.lastExeSeq.toInt + 10 < 2 ^ 63) (hD : D env) (hT : Allowed T s env)
    (hcheck : checkMessageItem n.toKeys s.validators env = true) :
    I (s.createInstanceIfNotExist now env).1 ∧ ∀ i, (s.createInstanceIfNotExist now env).2 = some i → ∃ inst t,
        (s.createInstanceIfNotExist now env).1.instances[i]? = some inst ∧ env.pbft.type.buffer = some t ∧
          env ∈ inst.msgBuf t ∧
          checkMessageItem n.toKeys (s.createInstanceIfNotExist now env).1.validators env = true := by
  unfold Pbft.createInstanceIfNotExist
  split
  · exact ⟨h, nofun⟩
  rename_i i hindex
  split_ifs with hout hcommit hactive hpassed
  · -- a commit message from another view, or from far ahead
    refine ⟨K.traceOutPbftCommit h hD hcheck hcommit.2 hindex hcommit.1 fun inst hi => ?_, nofun⟩
    have hview : i.viewNumber ≠ s.viewNumber := by
      intro hview
      have hwater := inWaterMark_of_near hsmall hcommit.1 ((K.shape s h).near i inst hi)
      simp [hwater, hview] at hout
    exact ⟨hview, hT.traced ⟨hcommit.2, i, inst, hindex, hi, hview⟩⟩
  · exact ⟨h, nofun⟩
  · exact ⟨h, nofun⟩
  · exact ⟨h, nofun⟩
  · simp only [Bool.or_eq_true, Bool.not_eq_true', bne_iff_ne, ne_eq, not_or, Bool.not_eq_false,
      Decidable.not_not] at hout
    have hnear : i.sequence ≤ s.lastExeSeq + ckpInterval := by
      have hwater := hout.1
      simp only [inWaterMark, Bool.and_eq_true, decide_eq_true_eq] at hwater
      exact hwater.2
    obtain ⟨hcreated, inst, hi, hfrom⟩ := K.createInstance now h hout.2.symm (Int64.not_le.mp hpassed) hnear
    obtain ⟨t, hbuffer⟩ := buffer_of_indexOf hindex
    simp only [hi, hbuffer, Option.getD_some, Option.some.injEq]
    have hcheck' : checkMessageItem n.toKeys (s.createInstance now i).validators env = true := by
      rwa [createInstance_validators]
    have hfits : T.fits inst env := by
      rcases hfrom with hold | rfl
      · exact hT.fits i inst hindex hold
      · exact hT.fresh now
    refine ⟨K.put hcreated hi (.push hcheck' hbuffer hindex hD ?_ hfits), ?_⟩
    · rw [createInstance_viewNumber]
      exact hout.2.symm
    · rintro j rfl
      exact ⟨_, t, Std.TreeMap.getElem?_insert_self, rfl, mem_push_self, hcheck'⟩

end Keeps

/-! ### View change and timers -/

/-- What the calls outside of the three phases do. What it takes the shape of the state to know is left to `C`. -/
inductive Rest (n : PbftNode) (C : Prop) : Pbft → Pbft → Prop
  | side {s t : Pbft} (h : Side s { t with vcInstances := s.vcInstances })
      (hvc : C → (∀ (v : Int64) vc, s.vcInstances[v]? = some vc → VcShape v vc) →
        ∀ (v : Int64) vc, t.vcInstances[v]? = some vc → VcShape v vc) : Rest n C s t
  | send {s : Pbft} {env : PbftEnv} (h : C → env.pbft.type ≠ .commit) : Rest n C s { s with sent := s.sent ++ [env] }
  | vote {s : Pbft} {i : PbftInstanceIndex} {inst : PbftInstance} {prepare : PbftPrepare} {round : Int64}
      (hi : s.instances[i]? = some inst) (hphase : 2 ≤ inst.phase.toNat) (hvalid : inst.checkValueResult = .valid)
      (h : C → prepare.viewNumber = i.viewNumber ∧ prepare.sequence = i.sequence ∧
        prepare.valueDigest = inst.prePrepare.valueDigest) :
      Rest n C s { s with sent := s.sent ++ [n.newCommit s prepare round] }
  | note {s : Pbft} {i : PbftInstanceIndex} {inst inst' : PbftInstance} (hi : s.instances[i]? = some inst)
      (h : Similar inst inst') (hitem : inst'.phaseItem = inst.phaseItem) : Rest n C s (s.put i inst')
  | enter {s : Pbft} {v : Int64} (h : C → s.viewNumber < v) : Rest n C s (s.enterView v)

structure Rests (n : PbftNode) (D : PbftEnv → Prop) (C : Prop) (I : Pbft → Prop) : Prop where
  shape : ∀ s, C → I s → Shape n D s
  rest : ∀ s t, I s → Rest n C s t → I t

theorem sendMessage_viewNumber {s : Pbft} {env : PbftEnv} : (s.sendMessage env).viewNumber = s.viewNumber := by
  unfold Pbft.sendMessage
  split <;> rfl

theorem put_getElem {s : Pbft} {i : PbftInstanceIndex} {inst : PbftInstance} :
    (s.put i inst).instances[i]? = some inst := Std.TreeMap.getElem?_insert_self

theorem sendMessage_getElem {s : Pbft} {i : PbftInstanceIndex} {inst : PbftInstance} {env : PbftEnv}
    (h : s.instances[i]? = some inst) : (s.sendMessage env).instances[i]? = some inst := by
  unfold Pbft.sendMessage
  split <;> exact h

namespace Rests

variable {n : PbftNode} {D : PbftEnv → Prop} {C : Prop} {I : Pbft → Prop} {s : Pbft} {i : PbftInstanceIndex}
  {inst inst' : PbftInstance} {env : PbftEnv} {v now : Int64} {vc : PbftVcInstance}

variable (K : Rests n D C I)
include K

theorem sendMessage (h : I s) (htype : C → env.pbft.type ≠ .commit) : I (s.sendMessage env) := by
  unfold Pbft.sendMessage
  split
  · exact K.rest _ _ h (.send htype)
  · exact h

theorem side {t : Pbft} (h : I s) (hst : Side s { t with vcInstances := s.vcInstances })
    (hvc : t.vcInstances = s.vcInstances) : I t :=
  K.rest _ _ h (.side hst fun _ hold => hvc ▸ hold)

theorem clearViewChanges (h : I s) : I s.clearViewChanges :=
  K.rest _ _ h (.side ⟨rfl, rfl, rfl, rfl, rfl, rfl, rfl, rfl, id⟩ fun _ hvc v vc hv =>
    hvc v vc (Table.filter_eq_some.mp hv).1)

theorem putVc (h : I s) (hvc : C → VcShape v vc) : I (s.putVc v vc) := by
  refine K.rest _ _ h (.side ⟨rfl, rfl, rfl, rfl, rfl, rfl, rfl, rfl, id⟩ fun hC hold v' vc' hv' => ?_)
  rcases Table.insert_eq_some hv' with ⟨rfl, rfl⟩ | ⟨-, hv'⟩
  · exact hvc hC
  · exact hold v' vc' hv'

theorem enterView (h : I s) (hv : C → s.viewNumber < v) : I (s.enterView v) :=
  K.rest _ _ h (.enter hv)

theorem onViewChanged {value : String} (h : I s) : I (s.onViewChanged value) :=
  K.side h ⟨rfl, rfl, rfl, rfl, rfl, rfl, rfl, rfl, id⟩ rfl

theorem processQuorumViewChange (h : I s) (hvc : C → VcShape vc.viewNumber vc)
    (hv : C → s.viewNumber < vc.viewNumber) : I (s.processQuorumViewChange n now vc) := by
  unfold Pbft.processQuorumViewChange
  split
  · exact K.side h ⟨rfl, rfl, rfl, rfl, rfl, rfl, rfl, rfl, id⟩ rfl
  · have hsent : I (s.sendMessage (n.newNewView s vc)) := K.sendMessage h fun _ => nofun
    have hentered : I ((s.sendMessage (n.newNewView s vc)).enterView vc.viewNumber) :=
      K.enterView hsent (by rwa [sendMessage_viewNumber])
    exact K.onViewChanged (K.clearViewChanges (K.putVc hentered fun hC => ⟨rfl, (hvc hC).viewChange, nofun⟩))

omit K in
theorem addViewChange_shape {v : Int64} {vc : PbftVcInstance} (hvc : VcShape v vc)
    (htype : env.pbft.type ≠ .commit) : VcShape v (addViewChange env s vc) := by
  have hown : VcShape v { vc with viewChangeMsg := some env } :=
    ⟨hvc.viewNumber, fun msg hmsg => Option.some.inj hmsg ▸ htype, hvc.newView⟩
  simp only [addViewChange]
  split_ifs <;> split <;> try split_ifs
  all_goals first
    | exact ⟨hown.viewNumber, hown.viewChange, hown.newView⟩
    | exact ⟨hvc.viewNumber, hvc.viewChange, hvc.newView⟩

omit K in
theorem viewChange_shape (h : Shape n D s) (v seq now : Int64) :
    VcShape v ((s.vcInstances[v]?).getD { viewNumber := v, seq := seq, lastProposeTime := now }) := by
  cases hvc : s.vcInstances[v]? with
  | none => exact ⟨rfl, nofun, nofun⟩
  | some vc => exact h.viewChanges v vc hvc

theorem onViewChangeWithRawValue (h : I s) (htype : env.pbft.type ≠ .commit) :
    I (Pbft.onViewChangeWithRawValue n now env s).1 := by
  simp only [Pbft.onViewChangeWithRawValue]
  generalize env.pbft.getViewChangeWithRawvalue.getViewChangeEnv.pbft.getViewChange = viewChange
  have hvc (hC : C) := addViewChange_shape (s := s)
    (viewChange_shape (K.shape s hC h) viewChange.viewNumber viewChange.sequence now) htype
  split_ifs with heq hlt hquorum
  · exact h
  · exact h
  · refine K.processQuorumViewChange (K.putVc h hvc) (fun hC => ?_) fun hC => ?_
    · rw [(hvc hC).viewNumber]
      exact hvc hC
    · rw [(hvc hC).viewNumber]
      exact Int64.lt_of_le_of_ne (Int64.not_lt.mp hlt) fun h => heq h.symm
  · exact K.putVc h hvc

theorem changeComplete (h : I s) : I (s.changeComplete now v) := by
  unfold Pbft.changeComplete
  split
  · exact h
  · rename_i vc hvc
    refine K.putVc h fun hC => ?_
    have hshape := (K.shape s hC h).viewChanges v vc hvc
    exact ⟨hshape.viewNumber, hshape.viewChange, hshape.newView⟩

theorem onNewView (h : I s) : I (Pbft.onNewView n now env s).1 := by
  have htimer : I { s with timers := s.timers.erase s.newViewRepondTimer } :=
    K.side h ⟨rfl, rfl, rfl, rfl, rfl, rfl, rfl, rfl, id⟩ rfl
  simp only [Pbft.onNewView]
  split_ifs with heq hlt
  · exact h
  · exact h
  · exact htimer
  · split
    · exact htimer
    · split_ifs
      · exact htimer
      · have hv : s.viewNumber < env.pbft.getNewView.viewNumber :=
          Int64.lt_of_le_of_ne (Int64.not_lt.mp hlt) fun h => heq h.symm
        exact K.onViewChanged (K.clearViewChanges (K.changeComplete (K.enterView htimer fun _ => hv)))

theorem onTxTimeout (h : I s) : I (s.onTxTimeout n) := by
  unfold Pbft.onTxTimeout
  split
  · have hinactive : I { s with viewActive := false } := K.side h ⟨rfl, rfl, rfl, rfl, rfl, rfl, rfl, rfl, id⟩ rfl
    exact K.sendMessage hinactive fun _ => nofun
  · exact h

theorem onRespondTimer {timer : ℕ} (h : I s) : I (s.onRespondTimer n timer) := by
  unfold Pbft.onRespondTimer
  split
  · exact h
  · have herased : I { s with timers := s.timers.erase timer } :=
      K.side h ⟨rfl, rfl, rfl, rfl, rfl, rfl, rfl, rfl, id⟩ rfl
    dsimp only
    split
    · exact herased
    · exact K.sendMessage herased fun _ => nofun

omit K in
theorem onTxTimeout_instances : (s.onTxTimeout n).instances = s.instances := by
  unfold Pbft.onTxTimeout Pbft.sendMessage
  split
  · dsimp only
    split <;> rfl
  · rfl

theorem onTimerInstance (h : I s) : I (s.onTimerInstance n now i) := by
  unfold Pbft.onTimerInstance
  split
  · exact h
  rename_i inst hi
  have hstored (hC : C) := ((K.shape s hC h).instances i inst hi).stored
  dsimp only
  generalize hs' : (if (inst.isExpire now && !inst.haveSendViewchange) = true then s.onTxTimeout n else s) = s'
  have h' : I s' := by
    rw [← hs']
    split
    · exact K.onTxTimeout h
    · exact h
  have hi' : s'.instances[i]? = some inst := by
    rw [← hs']
    split
    · rw [onTxTimeout_instances]
      exact hi
    · exact hi
  have hput : I (s'.put i { inst with
      haveSendViewchange := inst.haveSendViewchange || (inst.isExpire now && !inst.haveSendViewchange) }) :=
    K.rest _ _ h' (.note hi' ⟨rfl, rfl, rfl, rfl, rfl, rfl, rfl⟩ rfl)
  split
  · exact hput
  · rename_i msg hmsg
    split
    · refine K.rest _ _ (K.sendMessage hput fun hC => ?_)
        (.note (sendMessage_getElem put_getElem) ⟨rfl, rfl, rfl, rfl, rfl, rfl, rfl⟩ rfl)
      exact hstored hC msg hmsg
    · exact hput

theorem onTimerCommit (h : I s) : I (s.onTimerCommit n now) := by
  unfold Pbft.onTimerCommit
  split
  · exact h
  rename_i i inst hfind
  have hi : s.instances[i]? = some inst := Table.mem_toList.mp (List.mem_reverse.mp (List.mem_of_find?_eq_some hfind))
  have hphase : 2 ≤ inst.phase.toNat := by
    have := List.find?_some hfind
    simpa using this
  split
  · rename_i hagain
    split
    · exact h
    · rename_i id prepare l hprepares
      have hmem : (id, prepare) ∈ inst.prepares.toList := by
        rw [hprepares]
        exact List.mem_cons_self
      have hvote : ∀ round, I (s.sendMessage (n.newCommit s prepare round)) := by
        intro round
        unfold Pbft.sendMessage
        split
        · refine K.rest _ _ h (.vote hi hphase hagain.1 fun hC => ?_)
          have hinst := (K.shape s hC h).instances i inst hi
          obtain ⟨hdigest, env, henv, rfl, -⟩ := hinst.prepares id prepare (Table.mem_toList.mp hmem)
          obtain ⟨hview, hsequence⟩ := Keeps.index_of_prepare hinst henv
          exact ⟨hview, hsequence, hdigest⟩
        · exact h
      exact K.rest _ _ (hvote _) (.note (sendMessage_getElem hi) ⟨rfl, rfl, rfl, rfl, rfl, rfl, rfl⟩ rfl)
  · exact h

theorem onTimerViewChange (h : I s) : I (s.onTimerViewChange n now v) := by
  unfold Pbft.onTimerViewChange
  split
  · exact h
  rename_i vc hvc
  have hshape (hC : C) := (K.shape s hC h).viewChanges v vc hvc
  split
  · exact h
  rename_i msg hmsg
  split
  · refine K.putVc (K.sendMessage h fun hC => ?_) fun hC =>
      ⟨(hshape hC).viewNumber, (hshape hC).viewChange, (hshape hC).newView⟩
    exact (hshape hC).viewChange msg hmsg
  · exact h

theorem onTimerNewView (h : I s) : I (s.onTimerNewView n now) := by
  unfold Pbft.onTimerNewView
  split
  · exact h
  rename_i v vc hfind
  have hshape (hC : C) := (K.shape s hC h).viewChanges v vc
    (Table.mem_toList.mp (List.mem_reverse.mp (List.mem_of_find?_eq_some hfind)))
  refine K.putVc (K.sendMessage h fun hC => ?_) fun hC =>
    ⟨(hshape hC).viewNumber, (hshape hC).viewChange, (hshape hC).newView⟩
  exact (hshape hC).newView

omit K in
theorem foldl {α : Type} {f : Pbft → α → Pbft} {l : List α} (hf : ∀ s a, I s → I (f s a)) (h : I s) :
    I (l.foldl f s) := by
  induction l generalizing s with
  | nil => exact h
  | cons a l ih => exact ih (hf s a h)

theorem onTimer (h : I s) : I (s.onTimer n now) := by
  have hinstances : I (s.instances.keys.foldl (fun s i => s.onTimerInstance n now i) s) :=
    foldl (fun s i h => K.onTimerInstance h) h
  exact K.onTimerNewView (foldl (fun s v h => K.onTimerViewChange h) (K.onTimerCommit hinstances))

end Rests

namespace Keeps

variable {n : PbftNode} {D : PbftEnv → Prop} {T : Rules} {I : Pbft → Prop} {s : Pbft} {env : PbftEnv} {now : Int64}

theorem rests (K : Keeps n D T I) : Rests n D True I where
  shape s _ h := K.shape s h
  rest s t h hst := by
    cases hst with
    | side hst hvc => exact K.side h { hst with viewChanges := hvc trivial }
    | send htype => exact K.move _ _ h (.send (.other (htype trivial)))
    | vote hi hphase _ hprepare =>
      obtain ⟨hview, hsequence, hdigest⟩ := hprepare trivial
      exact K.move _ _ h (.send (.commit hi hphase hview hsequence hdigest))
    | note hi hs _ => exact K.put h hi (.quiet hs)
    | enter hv => exact K.move _ _ h (.enter (hv trivial))

theorem recvPhases (K : Keeps n D T I) (now : Int64) (ret : CheckValueResult) (h : I s)
    (hsmall : s.lastExeSeq.toInt + 10 < 2 ^ 63) (hD : D env) (hT : Allowed T s env)
    (hcheck : checkMessageItem n.toKeys s.validators env = true) :
    I (match s.createInstanceIfNotExist now env with
      | (s, some i) => Pbft.go n now env i ret s
      | (s, none) => (s, false)).1 := by
  obtain ⟨hcreated, hgiven⟩ := K.createInstanceIfNotExist now h hsmall hD hT hcheck
  split
  · rename_i hresult
    rw [hresult] at hcreated hgiven
    obtain ⟨inst, t, hi, hbuffer, henv, hcheck'⟩ := hgiven _ rfl
    exact K.go hcreated hi hcheck' hbuffer henv
  · rename_i hresult
    rw [hresult] at hcreated
    exact hcreated

theorem onRecv (K : Keeps n D T I) {checkValue : CheckValueResult} (h : I s)
    (hsmall : s.lastExeSeq.toInt + 10 < 2 ^ 63) (hD : D env)
    (hT : checkMessageItem n.toKeys s.validators env = true → Allowed T s env) : I
      (Pbft.onRecv n now env checkValue s).1 := by
  by_cases hcheck : checkMessageItem n.toKeys s.validators env = true
  · have hphases := fun ret => K.recvPhases now ret h hsmall hD (hT hcheck) hcheck
    rw [Pbft.onRecv, if_pos hcheck]
    cases htype : env.pbft.type with
    | prePrepare => exact hphases _
    | prepare => exact hphases _
    | commit => exact hphases _
    | viewChange => exact h
    | newView => exact K.rests.onNewView h
    | viewChangeWithRawValue => exact K.rests.onViewChangeWithRawValue h (by rw [htype]; rintro ⟨⟩)
    | other => exact h
  · rw [Pbft.onRecv, if_neg hcheck]
    exact h

end Keeps
end Pbft
end OpenSesame
