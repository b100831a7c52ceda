import OpenSesame.Theorems.Ledger.Block

/-! # A nested failure is not masked

A script may catch the exception of a host function and go on, but the result of its contract keeps
the error. -/

namespace OpenSesame
open Protocol StateOption TransactionFrm V8Contract OperationFrm

variable {α β : Type} {w : World}

/-! ### Computations without nested calls -/

/-- No nested call fails. -/
structure Quiet (m : LedgerM α) : Prop where
  failed : ∀ {s a t}, m s = some (a, t) → t.trace.failed = s.trace.failed

variable {m : LedgerM α}

theorem Quiet.respects (h : Quiet m) {n : ℕ} {P : LedgerContext → Prop} :
    Respects (Same fun s => s.trace.failed = n) (fun _ => True) P m :=
  .of_invariant (fun _ _ hok => hok) fun _ hs hm _ => (h.failed hm).trans hs

theorem quiet_of_run (h : ∀ s, ∃ a t, m s = some (a, t) ∧ t.trace.failed = s.trace.failed) : Quiet m := by
  refine ⟨?_⟩
  intro s a t hs
  obtain ⟨a', t', hs', hfailed⟩ := h s
  cases hs.symm.trans hs'
  exact hfailed

theorem quiet_of_option {f : LedgerContext → Option α} {g : LedgerContext → LedgerContext}
    (hm : ∀ s, m s = (f s).map fun a => (a, g s)) (h : ∀ s, (g s).trace.failed = s.trace.failed) : Quiet m := by
  refine ⟨?_⟩
  intro s a t hs
  rw [hm, Option.map_eq_some_iff] at hs
  obtain ⟨_, -, hs⟩ := hs
  cases hs
  exact h s

theorem respects_quiet {n : ℕ} {P : LedgerContext → Prop}
    (h : ∀ s, ∃ a t, m s = some (a, t) ∧ t.trace.failed = s.trace.failed) :
    Respects (Same fun s => s.trace.failed = n) (fun _ => True) P m :=
  (quiet_of_run h).respects

def quietDiscipline (w : World) (n : ℕ) : Discipline w where
  rel := Same fun s => s.trace.failed = n
  ok _ := True
  getEntry _ _ := respects_quiet fun _ => ⟨_, _, rfl, rfl⟩
  deref _ _ := (quiet_of_option (fun _ => rfl) fun _ => rfl).respects
  alterEntry _ _ _ _ _ := respects_quiet fun _ => ⟨_, _, rfl, rfl⟩
  addEntry _ _ _ _ _ := respects_quiet fun _ => ⟨_, _, rfl, rfl⟩
  nonceIncrease _ _ := respects_quiet fun _ => ⟨_, _, rfl, rfl⟩
  commit _ := respects_quiet fun _ => ⟨_, _, rfl, rfl⟩
  newStackFrameEnv _ := respects_quiet fun _ => ⟨_, _, rfl, rfl⟩
  getValidators _ := respects_quiet fun _ => ⟨_, _, rfl, rfl⟩
  updateFeeConfig _ _ := respects_quiet fun _ => ⟨_, _, rfl, rfl⟩
  updateNewValidators _ _ := respects_quiet fun _ => ⟨_, _, rfl, rfl⟩
  askLedger := respects_quiet fun _ => ⟨_, _, rfl, rfl⟩
  askTx _ _ _ := respects_quiet fun _ => ⟨_, _, rfl, rfl⟩
  alterTx _ _ _ := respects_quiet fun _ => ⟨_, _, rfl, rfl⟩
  pushTx _ := respects_quiet fun _ => ⟨_, _, rfl, rfl⟩
  pushAgain _ := respects_quiet fun _ => ⟨_, _, rfl, rfl⟩
  popTx := (quiet_of_option (congrFun popTx_eq) fun _ => rfl).respects
  stackSize := respects_quiet fun _ => ⟨_, _, rfl, rfl⟩
  getBottomTx := (quiet_of_option (fun _ => rfl) fun _ => rfl).respects
  getTopTx := (quiet_of_option (fun _ => rfl) fun _ => rfl).respects
  trip _ _ := respects_quiet fun _ => ⟨_, _, rfl, rfl⟩

theorem quiet_of_good (h : ∀ n, (quietDiscipline w n).Good m) : Quiet m := by
  refine ⟨?_⟩
  intro s a t hs
  exact (h s.trace.failed).invariant trivial rfl hs trivial

theorem quiet_of_all (h : ∀ S : Discipline w, S.Good m) : Quiet m := quiet_of_good fun n => h (quietDiscipline w n)

theorem topEnvironment_quiet (w : World) : Quiet topEnvironment := quiet_of_all fun S : Discipline w => S.topEnvironment

theorem Quiet.good (h : Quiet m) (n : ℕ) : (quietDiscipline w n).Good m := h.respects

structure Admits (G : α → LedgerContext → Prop) (m : LedgerM α) : Prop where
  failed : ∀ {s a t}, m s = some (a, t) → G a t → t.trace.failed = s.trace.failed

def Succeeds (r : Result) (_ : LedgerContext) : Prop := r.code = .success

namespace Admits
variable {G : α → LedgerContext → Prop} {m m' : LedgerM α}

theorem of_quiet (h : Quiet m) : Admits G m := ⟨fun hs _ => h.failed hs⟩

protected theorem pure (a : α) : Admits G (pure a) := by
  refine ⟨?_⟩
  intro s b t h _
  cases h
  rfl

theorem bind_quiet {m : LedgerM β} {k : β → LedgerM α} (hm : Quiet m) (hk : ∀ b, Admits G (k b)) :
    Admits G (m >>= k) := by
  refine ⟨?_⟩
  intro s a t h hG
  obtain ⟨b, u, hs, hu⟩ := of_bind h
  exact ((hk b).failed hu hG).trans (hm.failed hs)

theorem bind {F : β → LedgerContext → Prop} {m : LedgerM β} {k : β → LedgerM α} (hm : Admits F m)
    (hk : ∀ b, Admits G (k b)) (hgood : ∀ {b s a t}, k b s = some (a, t) → G a t → F b s) :
    Admits G (m >>= k) := by
  refine ⟨?_⟩
  intro s a t h hG
  obtain ⟨b, u, hs, hu⟩ := of_bind h
  exact ((hk b).failed hu hG).trans (hm.failed hs (hgood hu hG))

theorem ite {c : Prop} [Decidable c] (h : c → Admits G m) (h' : ¬c → Admits G m') : Admits G (if c then m else m') := by
  split
  · exact h ‹_›
  · exact h' ‹_›

end Admits

/-! ### Operations -/

section Operation
variable {execute : ContractParameter → LedgerM Result} (hexec : ∀ p, Admits Succeeds (execute p))
  (tran : Transaction) (d index : ℕ) (source : Address) (src : AccountFrm)

include hexec in
theorem callContract_admits (code input : String) (dest sender : Address) (asset : Asset) (amount : Int64) :
    Admits Succeeds (callContract w execute tran index code input dest sender asset amount) := by
  refine .ite (fun _ => .pure _) fun _ => .bind_quiet ?_ hexec
  exact quiet_of_all fun S => S.contractParameter ..

include hexec in
theorem initContract_admits (sender dest : Address) (o : OperationCreateAccount) :
    Admits Succeeds (initContract w execute tran index sender dest o) := by
  refine .bind_quiet (quiet_of_all fun S => S.contractParameter ..) fun p => ?_
  refine .bind (hexec p) (fun r => .ite (fun _ => .pure _) fun _ => .pure _) ?_
  intro r s a t h ha
  split at h
  · assumption
  · cases h
    exact ha

include hexec in
theorem createAccount_admits (o : OperationCreateAccount) :
    Admits Succeeds (createAccount w execute tran d index source src o) := by
  refine .bind_quiet (quiet_of_all fun S => S.getEntry ..) fun r => ?_
  cases r with
  | some _ => exact .pure _
  | none =>
    refine .ite (fun _ => .pure _) fun _ => ?_
    split
    · exact .pure _
    · refine .ite (fun _ => .pure _) fun _ => ?_
      split
      · exact .pure _
      · refine .bind_quiet (quiet_of_run fun _ => ⟨_, _, rfl, rfl⟩) fun _ => .ite (fun _ => .pure _) fun _ => ?_
        refine .bind_quiet (quiet_of_run fun _ => ⟨_, _, rfl, rfl⟩) fun _ => .ite (fun _ => .pure _) fun _ => ?_
        exact initContract_admits hexec ..

include hexec in
theorem payAsset_admits (o : OperationPayAsset) : Admits Succeeds (payAsset w execute tran d index source src o) := by
  refine .bind_quiet (quiet_of_all fun S => S.getEntry ..) fun r => ?_
  cases r with
  | none => exact .pure _
  | some dst =>
    refine .bind_quiet (quiet_of_all fun S => S.transferPaid ..) fun r => ?_
    exact .ite (fun _ => .pure _) fun _ => callContract_admits hexec ..

include hexec in
theorem sendCoin_admits (o : OperationPayCoin) : Admits Succeeds (sendCoin w execute tran d index source src o) := by
  refine .bind_quiet (quiet_of_all fun S : Discipline w => S.transferCoin ..) fun r => ?_
  exact .ite (fun _ => .pure _) fun _ => callContract_admits hexec ..

include hexec in
theorem payCoin_admits (o : OperationPayCoin) : Admits Succeeds (payCoin w execute tran d index source src o) := by
  unfold payCoin
  dsimp only
  split
  · exact .pure _
  · refine .ite (fun _ => .pure _) fun _ => ?_
    refine .bind_quiet (quiet_of_all fun S => S.getEntry ..) fun r => ?_
    cases r with
    | some _ => exact sendCoin_admits hexec ..
    | none =>
      refine .ite (fun _ => .pure _) fun _ => ?_
      exact .bind_quiet (quiet_of_run fun _ => ⟨_, _, rfl, rfl⟩) fun _ => sendCoin_admits hexec ..

include hexec in
theorem applyOperation_admits (op : Operation) : Admits Succeeds (apply w execute tran d index op) := by
  refine .bind_quiet (quiet_of_all fun S => S.getEntry ..) fun r => ?_
  cases r with
  | none => exact .pure _
  | some src =>
    dsimp only
    split
    all_goals first | exact .pure _ | skip
    · exact createAccount_admits hexec ..
    · exact payAsset_admits hexec ..
    · exact .of_quiet (quiet_of_all fun S => S.issueAsset ..)
    · exact .of_quiet (quiet_of_all fun S => S.setMetaData ..)
    · exact .of_quiet (quiet_of_run fun _ => ⟨_, _, rfl, rfl⟩)
    · exact .of_quiet (quiet_of_run fun _ => ⟨_, _, rfl, rfl⟩)
    · exact payCoin_admits hexec ..
    · exact .of_quiet (quiet_of_run fun _ => ⟨_, _, rfl, rfl⟩)

end Operation

/-! ### Transactions -/

variable {s t : LedgerContext} {r : Result}

section Transaction
variable {execute : ContractParameter → LedgerM Result} (hexec : ∀ p, Admits Succeeds (execute p)) (i : ℕ)

def Passes (ret : Bool) (t : LedgerContext) : Prop := ret = true ∨ (t.txs i).result.code = .success

theorem not_passes_of_error {ret : Bool} (hr : (r.code != .success) = true)
    (h : (alterResult i (fun _ => r) >>= fun _ => pure false) s = some (ret, t)) :
    ¬Passes i ret t := by
  obtain ⟨_, u, hu, h⟩ := of_bind h
  cases hu
  cases h
  rintro (hret | hcode)
  · cases hret
  · simp only [Function.update_self] at hcode
    simp [hcode] at hr

include hexec in
theorem applyOperations_admits (d : ℕ) (env : TransactionEnv) (boolContract : Bool) (l : List Operation) :
    ∀ index descs, Admits (Passes i) (applyOperations w execute i d env boolContract index l descs) := by
  induction l with
  | nil =>
    intro index descs
    exact .bind_quiet (quiet_of_run fun _ => ⟨_, _, rfl, rfl⟩) fun _ => .pure _
  | cons op l ih =>
    intro index descs
    refine .bind_quiet (quiet_of_run fun _ => ⟨_, _, rfl, rfl⟩) fun _ => ?_
    refine .bind_quiet (quiet_of_run fun _ => ⟨_, _, rfl, rfl⟩) fun mode => ?_
    refine .bind_quiet (quiet_of_all fun S => S.checkSignatureIf ..) fun signed => ?_
    refine .ite (fun _ => ?_) fun _ => ?_
    · exact .bind_quiet (quiet_of_run fun _ => ⟨_, _, rfl, rfl⟩) fun _ => .pure _
    refine .bind (applyOperation_admits hexec ..) (fun r => .ite (fun _ => ?_) fun _ => ?_) ?_
    · exact .bind_quiet (quiet_of_run fun _ => ⟨_, _, rfl, rfl⟩) fun _ => .pure _
    · exact .bind_quiet (quiet_of_run fun _ => ⟨_, _, rfl, rfl⟩) fun _ => ih _ _
    · intro r s ret t h hpass
      split at h
      · exact absurd hpass (not_passes_of_error i ‹_› h)
      · simpa [Succeeds] using ‹¬(r.code != .success) = true›

include hexec in
theorem applyTransaction_admits (d : ℕ) (boolContract : Bool) :
    Admits (Passes i) (apply w execute i d boolContract) := by
  refine .bind_quiet (quiet_of_run fun _ => ⟨_, _, rfl, rfl⟩) fun _ => ?_
  refine .bind_quiet (quiet_of_option (fun _ => rfl) fun _ => rfl) fun bottom => ?_
  refine .bind_quiet (quiet_of_all fun S => S.addActualFee ..) fun paid => ?_
  refine .ite (fun _ => .pure _) fun _ => ?_
  refine .bind_quiet (quiet_of_run fun _ => ⟨_, _, rfl, rfl⟩) fun env => ?_
  exact applyOperations_admits hexec ..

end Transaction

/-! ### Scripts -/

theorem finishResult_code {f : Finish} (h : (finishResult w r f).code = .success) : r.code = .success := by
  unfold finishResult at h
  cases f with
  | notCompiled desc =>
    dsimp only at h
    split at h
    · cases h
    · exact h
  | runFailed desc =>
    dsimp only at h
    split at h
    · unfold failCode at h
      split at h
      · assumption
      · exact h
    · exact h
  | noFunction desc => cases h
  | callFailed desc =>
    dsimp only at h
    split at h
    · assumption
    · exact h
  | returned v => exact h

/-- What the runs of scripts have in common: one that only reads has no nested calls, and any other one shows that
a nested call has failed. -/
structure Candid (run : Bool → ContractParameter → LedgerM (Finish × Result)) : Prop where
  query : ∀ p, Quiet (run true p)
  call : ∀ p, Admits (fun r _ => r.2.code = .success) (run false p)

section Script
variable {run : Bool → ContractParameter → LedgerM (Finish × Result)} (hrun : Candid run)

include hrun in
theorem execute_admits (type : Int32) (p : ContractParameter) : Admits Succeeds (execute w run type p) := by
  refine .bind_quiet (quiet_of_all fun S => S.readRules.tooDeep) fun _ => ?_
  refine .ite (fun _ => .pure _) fun _ => .ite (fun _ => .pure _) fun _ => ?_
  refine .bind (hrun.call p) (fun _ => .pure _) ?_
  intro r s a t h ha
  cases h
  exact finishResult_code ha

include hrun in
theorem applyOrCharge_admits (i d : ℕ) (valid : Bool) :
    Admits (fun _ t => (t.txs i).result.code = .success) (applyOrCharge w run i d valid) := by
  refine .ite (fun _ => ?_) fun _ => ?_
  · refine .bind_quiet (quiet_of_run fun _ => ⟨_, _, rfl, rfl⟩) fun _ => ?_
    refine .bind (applyTransaction_admits (execute_admits hrun 0) ..) (fun _ => .pure _) ?_
    intro ret s a t h ht
    cases h
    exact .inr ht
  · refine .bind_quiet (quiet_of_option (fun _ => rfl) fun _ => rfl) fun bottom => ?_
    exact .bind_quiet (quiet_of_all fun S => S.addActualFee ..) fun _ => .pure _

theorem endPushed (i d : ℕ) (h : (do
      let r ← askTx i result
      if r.code = .feeNotEnough ∨ r.code = .contractTooManyTransactions then
        onlyIf w.checkVersionGt1002 popTx
        return r
      onlyIf (r.code = .success) (commit (d + 1))
      popTx
      return r : LedgerM Result) s = some (r, t)) :
    r = (s.txs i).result ∧ t.trace.failed = s.trace.failed := by
  obtain ⟨r', u, hask, h⟩ := of_bind h
  cases hask
  have hpop : Quiet popTx := quiet_of_option (congrFun popTx_eq) fun _ => rfl
  split at h
  · obtain ⟨_, v, hv, h⟩ := of_bind h
    cases h
    exact ⟨rfl, (quiet_of_good fun n => (quietDiscipline w n).onlyIf (hpop.good n)).failed hv⟩
  · obtain ⟨_, v, hv, h⟩ := of_bind h
    obtain ⟨_, x, hx, h⟩ := of_bind h
    cases h
    refine ⟨rfl, (hpop.failed hx).trans ?_⟩
    exact (quiet_of_good fun n => (quietDiscipline w n).onlyIf ((quietDiscipline w n).commit d)).failed hv

include hrun in
theorem applyPushed_admits (i d : ℕ) (env : TransactionEnv) : Admits Succeeds (applyPushed w run i d env) := by
  refine .bind_quiet (quiet_of_all fun S => S.txNonceIncrease i d) fun _ => ?_
  refine .bind_quiet (quiet_of_run fun _ => ⟨_, _, rfl, rfl⟩) fun size => ?_
  refine .bind_quiet (quiet_of_run fun _ => ⟨_, _, rfl, rfl⟩) fun r => ?_
  refine .bind_quiet (quiet_of_run fun _ => ⟨_, _, rfl, rfl⟩) fun _ => ?_
  refine .bind (applyOrCharge_admits hrun i d _) (fun _ => ⟨fun h _ => (endPushed i d h).2⟩) ?_
  intro _ s r t h hr
  exact (endPushed i d h).1 ▸ hr

include hrun in
theorem doTransaction_admits (env : TransactionEnv) : Admits Succeeds (doTransaction w run env) := by
  refine .bind_quiet (topEnvironment_quiet w) fun d => ?_
  refine .bind_quiet (quiet_of_all fun S => S.getEntry ..) fun r => ?_
  cases r with
  | none => exact ⟨nofun⟩
  | some source =>
    refine .bind_quiet (quiet_of_run fun _ => ⟨_, _, rfl, rfl⟩) fun size => .ite (fun _ => ?_) fun _ => ?_
    · refine .bind_quiet (quiet_of_option (fun _ => rfl) fun _ => rfl) fun bottom => ?_
      exact .bind_quiet (quiet_of_run fun _ => ⟨_, _, rfl, rfl⟩) fun _ => .pure _
    · refine .bind_quiet (quiet_of_run fun _ => ⟨_, _, rfl, rfl⟩) fun i => ?_
      exact applyPushed_admits hrun ..

/-! ### Host functions -/

def Unmarred (a : Reply × Result) (_ : LedgerContext) : Prop := a.2.code = .success

theorem noteResult_success (hr : r.code = .success)
    (h : noteResult r s = some ((), t)) : t.trace.failed = s.trace.failed := by
  cases h
  simp [hr]

theorem settle_unmarred {c : V8Contract} {answer : Json} (h : (c.settle r answer).2.code = .success) :
    r.code = .success ∧ c.result.code = .success := by
  unfold settle at h
  split at h
  · rename_i hr
    simp [show r.code = .success from h] at hr
  · rename_i hr
    exact ⟨by simpa using hr, h⟩

/-- The result of the contract `c` after a host function is what it was before, unless there was an error. -/
structure Keeps (c : V8Contract) (m : LedgerM (Reply × Result)) : Prop extends Admits Unmarred m where
  result : ∀ {s a t}, m s = some (a, t) → a.2.code = .success → c.result.code = .success

namespace Keeps
variable {c : V8Contract}

protected theorem pure (reply : Reply) : Keeps c (pure (reply, c.result)) where
  toAdmits := .pure _
  result := by
    intro s a t h ha
    cases h
    exact ha

theorem bind_quiet {m : LedgerM β} {k : β → LedgerM (Reply × Result)} (hm : Quiet m) (hk : ∀ b, Keeps c (k b)) :
    Keeps c (m >>= k) where
  toAdmits := .bind_quiet hm fun b => (hk b).toAdmits
  result := by
    intro s a t h ha
    obtain ⟨b, u, -, hu⟩ := of_bind h
    exact (hk b).result hu ha

theorem ite {p : Prop} [Decidable p] {m m' : LedgerM (Reply × Result)} (h : p → Keeps c m) (h' : ¬p → Keeps c m') :
    Keeps c (if p then m else m') := by
  split
  · exact h ‹_›
  · exact h' ‹_›

theorem of_call {m : LedgerM Result} {k : Result → LedgerM (Reply × Result)} (hm : Admits Succeeds m)
    (hk : ∀ {r s a t}, k r s = some (a, t) → a.2.code = .success →
      r.code = .success ∧ c.result.code = .success ∧ t.trace.failed = s.trace.failed) : Keeps c (m >>= k) where
  failed := by
    intro s a t h ha
    obtain ⟨r, u, hr, h⟩ := of_bind h
    obtain ⟨hsuccess, -, hfailed⟩ := hk h ha
    exact hfailed.trans (hm.failed hr hsuccess)
  result := by
    intro s a t h ha
    obtain ⟨r, u, hr, h⟩ := of_bind h
    exact (hk h ha).2.1

end Keeps

theorem settled {c : V8Contract} {answer : Json} {a : Reply × Result}
    (h : (noteResult r >>= fun _ => pure (c.settle r answer)) s = some (a, t)) (ha : a.2.code = .success) :
    r.code = .success ∧ c.result.code = .success ∧ t.trace.failed = s.trace.failed := by
  obtain ⟨_, u, hnote, h⟩ := of_bind h
  cases h
  obtain ⟨hsuccess, hresult⟩ := settle_unmarred ha
  exact ⟨hsuccess, hresult, noteResult_success hsuccess hnote⟩

variable (c : V8Contract)

include hrun in
theorem transact_keeps (op : Operation) (answer : Result → Json) : Keeps c (transact w run c op answer) :=
  .of_call (doTransaction_admits hrun _) settled

theorem stepBottom_quiet (w : World) (step : Int32) : Quiet (stepBottom step) :=
  quiet_of_all fun S : Discipline w => S.stepBottom step

include hrun in
theorem withAmount_keeps (amount desc : String) (op : Int64 → Operation) (answer : Result → Json) :
    Keeps c (withAmount w run c amount desc op answer) := by
  refine .bind_quiet (stepBottom_quiet w 100) fun _ => ?_
  split
  · exact .pure _
  · exact transact_keeps hrun ..

include hrun in
theorem setMetaData_keeps (key value : String) (isDel : Bool) : Keeps c (setMetaData w run c key value isDel) :=
  .bind_quiet (stepBottom_quiet w 100) fun _ => .ite (fun _ => .pure _) fun _ => transact_keeps hrun ..

include hrun in
theorem callBackDelegateCall_keeps (a : Address) (input : String) : Keeps c (callBackDelegateCall w run c a input) := by
  refine .bind_quiet (stepBottom_quiet w 100) fun _ => ?_
  refine .bind_quiet (topEnvironment_quiet w) fun d => ?_
  refine .bind_quiet (quiet_of_all fun S => S.getEntry ..) fun frm => ?_
  split
  · exact .pure _
  · refine .bind_quiet (quiet_of_option (fun _ => rfl) fun _ => rfl) fun i => ?_
    refine .bind_quiet (quiet_of_run fun _ => ⟨_, _, rfl, rfl⟩) fun _ => ?_
    refine .of_call (execute_admits hrun _ _) ?_
    intro r s x t h hx
    obtain ⟨_, u, hpop, h⟩ := of_bind h
    obtain ⟨hsuccess, hresult, hfailed⟩ := settled h hx
    have hpop' : Quiet popTx := quiet_of_option (congrFun popTx_eq) fun _ => rfl
    exact ⟨hsuccess, hresult, hfailed.trans (hpop'.failed hpop)⟩

theorem callBackConfigFee_keeps (fees : Json) : Keeps c (callBackConfigFee w c fees) := by
  refine .ite (fun _ => .pure _) fun _ => ?_
  refine .bind_quiet (topEnvironment_quiet w) fun d => ?_
  exact .bind_quiet (quiet_of_run fun _ => ⟨_, _, rfl, rfl⟩) fun _ => .pure _

theorem callBackSetValidators_keeps (validators : Json) : Keeps c (callBackSetValidators w c validators) := by
  refine .ite (fun _ => .pure _) fun _ => ?_
  refine .bind_quiet (topEnvironment_quiet w) fun d => ?_
  exact .bind_quiet (quiet_of_run fun _ => ⟨_, _, rfl, rfl⟩) fun _ => .pure _

include hrun in
theorem readCall_quiet (call : HostCall) (h : call.writes = false) : Quiet (hostCall w run c call) :=
  quiet_of_good fun n => (quietDiscipline w n).readRules.readCall (fun p => (hrun.query p).good n) c call h

theorem readCall_result (call : HostCall) (h : call.writes = false) {a : Reply × Result}
    (hcall : hostCall w run c call s = some (a, t)) : a.2 = c.result := by
  cases call with
  | compute | getBalance _ | getAccountAsset _ _ | getAccountMetadata _ _ | getContractProperty _ | load _
  | getValidators | contractQuery _ _ | delegateQuery _ _ =>
    obtain ⟨_, u, -, hend⟩ := of_bind hcall
    cases hend
    rfl
  | _ => cases h

include hrun in
theorem hostCall_keeps (call : HostCall) : Keeps c (hostCall w run c call) := by
  cases call with
  | store key value => exact setMetaData_keeps hrun ..
  | del key => exact setMetaData_keeps hrun ..
  | configFee fees => exact callBackConfigFee_keeps ..
  | setValidators validators => exact callBackSetValidators_keeps ..
  | payCoin dest amount input remark => exact withAmount_keeps hrun ..
  | issueAsset code amount => exact withAmount_keeps hrun ..
  | payAsset dest issuer code amount input remark => exact withAmount_keeps hrun ..
  | tlog topic datas => exact .bind_quiet (stepBottom_quiet w 100) fun _ => transact_keeps hrun ..
  | delegateCall a input => exact callBackDelegateCall_keeps hrun ..
  | contractCall dest asset amount input => exact withAmount_keeps hrun ..
  | contractCreate balance code input => exact withAmount_keeps hrun ..
  | _ =>
    refine ⟨.of_quiet (readCall_quiet hrun c _ rfl), ?_⟩
    intro s a t h ha
    exact readCall_result c _ rfl h ▸ ha

/-! ### Whole scripts -/

theorem writes_of_readonly {call : HostCall} (hc : c.readonly = true) (h : c.available w call = true) :
    call.writes = false := by
  cases call <;> simp_all [available, HostCall.writes]

theorem steps_cases {n : ℕ} {σ : w.engine.State} {a : Finish × Result} (h : steps w run (n + 1) c σ s = some (a, t)) :
    (a.2 = c.result ∧ t = s) ∨
      (∃ memory remain late thrown u σ', internalCheckTime memory remain late s = some (thrown, u) ∧
        steps w run n c σ' u = some (a, t)) ∨
      (∃ σ', steps w run n c σ' s = some (a, t)) ∨
      (∃ call r u σ', c.available w call = true ∧ hostCall w run c call s = some (r, u) ∧
        steps w run n { c with result := r.2 } σ' u = some (a, t)) := by
  unfold steps at h
  cases hnext : w.engine.next σ with
  | finish f =>
    rw [hnext] at h
    cases h
    exact .inl ⟨rfl, rfl⟩
  | checkTime memory remain late k =>
    rw [hnext] at h
    obtain ⟨thrown, u, hu, h⟩ := of_bind h
    exact .inr (.inl ⟨memory, remain, late, thrown, u, _, hu, h⟩)
  | host call k =>
    rw [hnext] at h
    by_cases hcall : c.available w call = true
    · simp only [hcall] at h
      obtain ⟨r, u, hu, h⟩ := of_bind h
      exact .inr (.inr (.inr ⟨call, r, u, _, hcall, hu, h⟩))
    · simp only [hcall] at h
      exact .inr (.inr (.inl ⟨_, h⟩))

theorem internalCheckTime_quiet (w : World) (memory remain : Int64) (late : Bool) :
    Quiet (internalCheckTime memory remain late) :=
  quiet_of_all fun S : Discipline w => S.internalCheckTime memory remain late

include hrun in
theorem steps_quiet (n : ℕ) : ∀ c σ, c.readonly = true → Quiet (steps w run n c σ) := by
  induction n with
  | zero => exact fun _ _ _ => ⟨nofun⟩
  | succ n ih =>
    intro c σ hc
    refine ⟨?_⟩
    intro s a t h
    rcases steps_cases c h with ⟨-, rfl⟩ | ⟨_, _, _, thrown, u, σ', hu, h⟩ | ⟨σ', h⟩ | ⟨call, r, u, σ', hcall, hu, h⟩
    · rfl
    · exact ((ih _ _ hc).failed h).trans ((internalCheckTime_quiet w ..).failed hu)
    · exact (ih _ _ hc).failed h
    · have hread : Quiet (hostCall w run c call) := readCall_quiet hrun c call (writes_of_readonly c hc hcall)
      exact ((ih { c with result := r.2 } σ' hc).failed h).trans (hread.failed hu)

include hrun in
theorem steps_unmarred (n : ℕ) : ∀ c σ {s t : LedgerContext} {a : Finish × Result},
    steps w run n c σ s = some (a, t) → a.2.code = .success →
      c.result.code = .success ∧ t.trace.failed = s.trace.failed := by
  induction n with
  | zero => exact fun _ _ _ _ _ h => nomatch h
  | succ n ih =>
    intro c σ s t a h ha
    rcases steps_cases c h with ⟨hresult, rfl⟩ | ⟨_, _, _, thrown, u, σ', hu, h⟩ | ⟨σ', h⟩ | ⟨call, r, u, σ', -, hu, h⟩
    · exact ⟨hresult ▸ ha, rfl⟩
    · obtain ⟨hresult, hfailed⟩ := ih _ _ h ha
      exact ⟨hresult, hfailed.trans ((internalCheckTime_quiet w ..).failed hu)⟩
    · exact ih _ _ h ha
    · -- the result after the host function is not an error, so it was none before
      obtain ⟨hresult, hfailed⟩ := ih _ _ h ha
      have hkeeps : Keeps c (hostCall w run c call) := hostCall_keeps hrun c call
      exact ⟨hkeeps.result hu hresult, hfailed.trans (hkeeps.failed hu hresult)⟩

end Script

theorem runScript_candid (fuel : ℕ) : Candid (runScript w fuel) := by
  induction fuel with
  | zero => exact ⟨fun _ => ⟨nofun⟩, fun _ => ⟨nofun⟩⟩
  | succ n ih =>
    refine ⟨fun p => steps_quiet ih n _ _ rfl, fun p => ⟨?_⟩⟩
    intro s a t h ha
    exact (steps_unmarred ih n _ _ h ha).2

theorem applyTop_admits (fuel i : ℕ) : Admits (Passes i) (LedgerFrm.applyTop w fuel i) :=
  applyTransaction_admits (execute_admits (runScript_candid fuel) 0) i 0 false

/-! ### The transaction on top -/

namespace LedgerFrm
variable {fuel : ℕ} {env : TransactionEnv} {r : Result} {fee fee' : Int64}

/-- What is done with a top transaction once it is charged, in one of the three ways to apply a block. -/
inductive Body (w : World) (fuel : ℕ) (fee : Int64) : (ℕ → LedgerM (Verdict × Int64)) → Prop
  | enforced (late : Bool) : Body w fuel fee fun i => enforced w fuel late i fee
  | followed (expired : Bool) : Body w fuel fee fun i => followed w fuel expired i fee

theorem settleTop_quiet (i : ℕ) : Quiet (settleTop w i fee) := by
  refine ⟨?_⟩
  intro s a t h
  obtain ⟨total, u, hreturn, h⟩ := of_bind h
  obtain ⟨d, x, henv, h⟩ := of_bind h
  obtain ⟨_, y, hcommit, h⟩ := of_bind h
  cases h
  cases hcommit
  have hxu := (quiet_of_all fun S : Discipline w => S.environmentOf i).failed henv
  exact hxu.trans ((quiet_of_all fun S : Discipline w => S.returnFee i fee).failed hreturn)

theorem followed_eq_some {i : ℕ} {expired : Bool} {v : Verdict}
    (h : followed w fuel expired i fee s = some ((v, fee'), t)) :
    (v = .expired ∧ fee' = fee ∧ SameBase s t ∧ t.trace = s.trace ∧ t.transactionStack = s.transactionStack) ∨
      ∃ ret x, applyTop w fuel i s = some (ret, x) ∧ (ret = false ∧ v = .failed ∧ fee' = fee ∧ t = x ∨
          ret = true ∧ v = .applied ∧ settleTop w i fee x = some (fee', t)) := by
  cases expired with
  | true =>
    obtain ⟨_, u, hu, h⟩ := of_bind h
    cases hu
    obtain ⟨heq, rfl⟩ := of_pure h
    cases heq
    exact .inl ⟨rfl, rfl, ⟨rfl, rfl, rfl, rfl, rfl⟩, rfl, rfl⟩
  | false =>
    obtain ⟨ret, x, happly, h⟩ := of_bind h
    refine .inr ⟨ret, x, happly, ?_⟩
    cases ret with
    | false =>
      obtain ⟨heq, rfl⟩ := of_pure h
      cases heq
      exact .inl ⟨rfl, rfl, rfl, rfl⟩
    | true =>
      obtain ⟨total, y, hsettle, h⟩ := of_bind h
      obtain ⟨heq, rfl⟩ := of_pure h
      cases heq
      exact .inr ⟨rfl, rfl, hsettle⟩

/-- A top transaction in which a nested call has failed is not applied, and the `stor_` of the block is what it
was. -/
theorem Body.not_applied {body : ℕ → LedgerM (Verdict × Int64)} (hbody : Body w fuel fee body) {i : ℕ}
    {v : Verdict} (h : body i s = some ((v, fee'), t))
    (hfailed : t.trace.failed ≠ s.trace.failed) : v ≠ .applied ∧ fee' = fee ∧ SameBase s t := by
  cases hbody with
  | enforced late =>
    obtain ⟨ret, x, expired, y, happly, hexpire, hcases⟩ := enforced_eq_some h
    have hbase := applyTop_base happly
    have hbase : SameBase s x := ⟨hbase.1, hbase.2, hbase.3, hbase.4, hbase.5⟩
    rcases hcases with ⟨-, rfl, rfl, rfl⟩ | ⟨-, -, rfl, rfl, rfl⟩ | ⟨-, rfl, rfl, hx⟩
    · cases hexpire
      exact ⟨nofun, rfl, hbase.trans ⟨rfl, rfl, rfl, rfl, rfl⟩⟩
    · exact ⟨nofun, rfl, hbase⟩
    · have hquiet := (applyTop_admits fuel i).failed happly (.inl rfl)
      exact absurd (((settleTop_quiet i).failed hx).trans hquiet) hfailed
  | followed expired =>
    rcases followed_eq_some h with ⟨rfl, rfl, hbase, htrace, -⟩ | ⟨ret, x, happly, ⟨-, rfl, rfl, rfl⟩ | ⟨rfl, rfl, hx⟩⟩
    · exact absurd (congrArg Trace.failed htrace) hfailed
    · exact ⟨nofun, rfl, applyTop_base happly⟩
    · have hquiet : x.trace.failed = s.trace.failed := (applyTop_admits fuel i).failed happly (.inl rfl)
      exact absurd (((settleTop_quiet i).failed hx).trans hquiet) hfailed

theorem enter_failed {i : ℕ} {s u : LedgerContext} (h : enter w env r s = some (i, u)) :
    u.trace.failed = s.trace.failed := by
  obtain ⟨j, x, hpush, h⟩ := of_bind h
  obtain ⟨-, rfl⟩ := Prod.mk.inj (Option.some.inj hpush)
  obtain ⟨_, y, hnonce, h⟩ := of_bind h
  obtain ⟨_, z, hcommit, h⟩ := of_bind h
  obtain ⟨-, rfl⟩ := Prod.mk.inj (Option.some.inj hcommit)
  obtain ⟨rfl, rfl⟩ := of_pure h
  have hquiet : Quiet (TransactionFrm.nonceIncrease w j 0) := quiet_of_all fun S => S.txNonceIncrease j 0
  have hfailed := hquiet.failed hnonce
  exact hfailed

/-- If a nested call fails, `Apply` of the top transaction returns `false`, and the accounts and settings of the block
are what they are when nothing is done after the fee was charged and the nonce increased. -/
theorem nested_failure_surfaces (w : World) (fuel : ℕ) :
    (∀ i s ret t, applyTop w fuel i s = some (ret, t) → t.trace.failed ≠ s.trace.failed → ret = false) ∧
      ∀ env r fee body s tx fee' t, Body w fuel fee body → transaction w env r body s = some ((tx, fee'), t) →
        t.trace.failed ≠ s.trace.failed → tx.verdict ≠ .applied ∧ ∃ tx' t',
            transaction w env r (fun _ => pure (tx.verdict, fee)) s = some ((tx', fee'), t') ∧ t'.envs = t.envs := by
  constructor
  · intro i s ret t h hfailed
    by_contra hret
    exact hfailed ((applyTop_admits fuel i).failed h (.inl (by simpa using hret)))
  · intro env r fee body s tx fee' t hbody h hfailed
    obtain ⟨i, u, v, x, henter, hrun, hleave, rfl⟩ := transaction_eq_some.mp h
    obtain ⟨hstack, rfl⟩ := leave_eq_some.mp hleave
    rw [afterLeave_trace, ← enter_failed henter] at hfailed
    obtain ⟨hv, rfl, hbase⟩ := hbody.not_applied hrun hfailed
    have hpushed : u.transactionStack ≠ [] := by
      rw [(enter_quiet henter).1]
      exact List.cons_ne_nil _ _
    have hleave' : leave u = some ((), afterLeave u) := leave_eq_some.mpr ⟨hpushed, rfl⟩
    refine ⟨hv, _, afterLeave u, transaction_eq_some.mpr ⟨i, u, v, u, henter, rfl, hleave', rfl⟩, ?_⟩
    rw [afterLeave_envs, afterLeave_envs, between_congr hbase.accounts hbase.settings]

/-- A script that tries to pay more than there is, catches the exception and returns. -/
def catchingEngine : Engine where
  State := Bool
  boot _ _ := false
  next tried := if tried then .finish (.returned (.bool true)) else .host (.payCoin "a" "1000000" "" "") fun _ => true

/-- A ledger with the account `a`, and the account `c` that has the script. -/
def catchingWorld : World :=
  smallWorld (smallDb [{ address := "a", balance := 1000, priv := some ownPriv },
    { address := "c", balance := 0, priv := some ownPriv, contract := some { payload := "main" } }]) catchingEngine

def payScript : TransactionEnv :=
  { transaction :=
      { sourceAddress := "a", nonce := 1, feeLimit := 500, gasPrice := 1
        operations := [{ type := .payCoin, payCoin := { destAddress := "c", amount := 1 } }] } }

theorem nested_failure_surfaces_caught : ∃ tx fee' t,
      transaction catchingWorld payScript {} (fun i => enforced catchingWorld 5 false i 500)
        (.start { txset := [payScript], closeTime := 0, ledgerSeq := 2 }) = some ((tx, fee'), t) ∧
      t.trace.failed = 1 ∧ tx.verdict ≠ .applied ∧ ∃ tx' t',
        transaction catchingWorld payScript {} (fun _ => pure (tx.verdict, 500))
          (.start { txset := [payScript], closeTime := 0, ledgerSeq := 2 }) = some ((tx', fee'), t') ∧
        t'.envs = t.envs := by
  have hfailed : ((transaction catchingWorld payScript {} (fun i => enforced catchingWorld 5 false i 500)
      (.start { txset := [payScript], closeTime := 0, ledgerSeq := 2 })).map fun r => r.2.trace.failed) = some 1 := by
    decide +kernel
  obtain ⟨⟨⟨tx, fee'⟩, t⟩, hrun, hfailed⟩ := Option.map_eq_some_iff.mp hfailed
  refine ⟨tx, fee', t, hrun, hfailed, ?_⟩
  refine (nested_failure_surfaces catchingWorld 5).2 _ _ _ _ _ _ _ _ (.enforced false) hrun ?_
  rw [hfailed]
  exact Nat.one_ne_zero

end LedgerFrm

end OpenSesame
