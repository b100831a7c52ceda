import OpenSesame.Lib.Respects
import OpenSesame.Ledger.LedgerFrm

/-! # What every transaction respects

Whatever a script does, it works through a few primitives on the state of the ledger. -/

namespace OpenSesame
open Protocol TransactionFrm Environments V8Contract OperationFrm

def TransactionFrm.unchecked (t : TransactionFrm) : TransactionFrm :=
  { t with enableCheck := false }

/-- The account is in none of the layers a lookup in the frame of depth `d` reads or passes over, or some lookup
passed over a layer before. -/
def Absent (w : World) (d : ℕ) (a : Address) (s : LedgerContext) : Prop :=
  s.trace.missed = true ∨ AtomMap.near w.db.accountFromDB s.envs.accounts d a = none ∧ s.envs.passesOver d a = false

def HostCall.writes : HostCall → Bool
  | .store .. | .del _ | .configFee _ | .setValidators _ | .payCoin .. | .issueAsset .. | .payAsset .. | .tlog ..
  | .delegateCall .. | .contractCall .. | .contractCreate .. => true
  | _ => false

theorem popTx_eq : popTx = fun s => (if s.transactionStack = [] then none else some ()).map fun a =>
      (a, { s with transactionStack := s.transactionStack.tail }) := by
  funext s
  unfold popTx
  split <;> rfl

/-! ### Changes of accounts -/

/-- What an account is called and who may act for it. -/
def AccountFrm.title (x : AccountFrm) : Address × AccountPrivilege := (x.info.address, x.info.privilege)

/-- The change of the privileges an operation makes. -/
def privilegeChange (op : Operation) : Option (AccountFrm → AccountFrm) :=
  match op.type with
  | .setSignerWeight => some (setSignerWeight op.setSignerWeight)
  | .setThreshold => some (setThreshold op.setThreshold)
  | .setPrivilege => some (setPrivilege op.setPrivilege)
  | _ => none

/-- Only the privileges of an account change. -/
structure OnlyPrivilege (f : AccountFrm → AccountFrm) : Prop where
  frame : ∀ x, f x = { x with info := { x.info with priv := (f x).info.priv } }

namespace OnlyPrivilege
variable {f g : AccountFrm → AccountFrm}

theorem nonce (h : OnlyPrivilege f) (x : AccountFrm) : (f x).nonce = x.nonce := by
  rw [h.frame]
  rfl

theorem id : OnlyPrivilege fun x => x := ⟨fun _ => rfl⟩

theorem mapPriv (change : AccountPrivilege → AccountPrivilege) : OnlyPrivilege (AccountFrm.mapPriv change) :=
  ⟨fun _ => rfl⟩

theorem mapThresholds (change : AccountThreshold → AccountThreshold) :
    OnlyPrivilege (AccountFrm.mapThresholds change) := ⟨fun _ => rfl⟩

theorem comp (hf : OnlyPrivilege f) (hg : OnlyPrivilege g) : OnlyPrivilege fun x => f (g x) := by
  refine ⟨fun x => ?_⟩
  rw [hf.frame, hg.frame]

theorem ite {c : Prop} [Decidable c] (hf : OnlyPrivilege f) (hg : OnlyPrivilege g) :
    OnlyPrivilege fun x => if c then f x else g x := by
  by_cases hc : c
  · simpa only [if_pos hc] using hf
  · simpa only [if_neg hc] using hg

theorem foldl {α : Type} {step : α → AccountFrm → AccountFrm} (h : ∀ y, OnlyPrivilege (step y)) (l : List α) :
    OnlyPrivilege fun x => l.foldl (fun x y => step y x) x := by
  induction l with
  | nil => exact id
  | cons y l ih => exact ih.comp (h y)

theorem updateSigners (signers : List Signer) : OnlyPrivilege (OperationFrm.updateSigners signers) :=
  foldl (fun _ => mapPriv _) signers

theorem updateTypeThresholds (l : List OperationTypeThreshold) : OnlyPrivilege (OperationFrm.updateTypeThresholds l) :=
  foldl (fun _ => mapThresholds _) l

theorem of_privilegeChange {op : Operation} {change : AccountFrm → AccountFrm}
    (h : privilegeChange op = some change) : OnlyPrivilege change := by
  unfold privilegeChange at h
  split at h
  · cases h
    exact (updateSigners _).comp (ite (mapPriv _) id)
  · cases h
    exact (updateTypeThresholds _).comp (ite (mapThresholds _) id)
  · cases h
    exact (updateTypeThresholds _).comp ((ite (mapThresholds _) id).comp ((updateSigners _).comp (ite (mapPriv _) id)))
  · cases h

end OnlyPrivilege

theorem newAccount_eq (o : OperationCreateAccount) (dest : Address) : (newAccount o dest).info =
        { address := dest, balance := o.initBalance, priv := some (o.priv.getD {})
          contract := some (o.contract.getD {}) } ∧
      (newAccount o dest).assets = Overlay.empty := by
  have hfold (l : List KeyPair) : ∀ frm : AccountFrm,
      (l.foldl (fun frm kp => frm.setMetaData { kp with version := 1 }) frm).info = frm.info ∧
        (l.foldl (fun frm kp => frm.setMetaData { kp with version := 1 }) frm).assets = frm.assets := by
    induction l with
    | nil => exact fun _ => ⟨rfl, rfl⟩
    | cons kp l ih => exact fun frm => ih _
  exact hfold o.metadatas _

/-! ### Access to accounts -/

/-- A relation between runs that access to accounts respects. `kept` is what it asks of the titles of the accounts that
are written. -/
structure Access (w : World) where
  rel : LedgerContext → LedgerContext → Prop
  ok : LedgerContext → Prop
  kept : Address → Address × AccountPrivilege → Prop := fun _ _ => True
  created (a : Address) : kept a (AccountFrm.creatAccountFrm a 0).title := by exact fun _ => trivial
  getEntry (d : ℕ) (a : Address) : Respects rel ok anyState (getEntry w d a)
  deref (d : ℕ) (a : Address) : Respects rel ok anyState (deref d a)
  alterEntry (d : ℕ) (a : Address) {f : AccountFrm → AccountFrm} (h : ∀ x, (f x).nonce = x.nonce)
    (hk : ∀ x, kept a x.title → kept a (f x).title) : Respects rel ok anyState (alterEntry d a f)
  addEntry (d : ℕ) (a : Address) {frm : AccountFrm} (h : frm.nonce = 0) (hk : kept a frm.title) :
    Respects rel ok (Absent w d a) (addEntry d a frm)

variable {s t : LedgerContext} {w : World}

theorem absent_of_getEntry {d : ℕ} {a : Address} (h : getEntry w d a s = some (none, t)) : Absent w d a t := by
  obtain ⟨hr, rfl⟩ := Prod.mk.inj (Option.some.inj h)
  rw [getEntry_fst] at hr
  have hacc : (s.envs.getEntry w.db d a).2.accounts = s.envs.accounts := by
    rw [getEntry_accounts, hr]
    rfl
  by_cases hover : s.envs.passesOver d a
  · exact .inl (by simp [hover])
  · refine .inr ⟨by rw [hacc]; exact hr, ?_⟩
    rw [passesOver, hacc, ← passesOver]
    simpa using hover

theorem absent_congr {d : ℕ} {a : Address} (hs : Absent w d a s)
    (hacc : ∀ i, t.envs.accounts i a = s.envs.accounts i a) (htr : t.trace = s.trace) : Absent w d a t := by
  simpa only [Absent, AtomMap.near, passesOver, hacc, htr] using hs

theorem absent_of_alterEntry {d : ℕ} {a b : Address} {f : AccountFrm → AccountFrm}
    (hs : Absent w d a s) (h : alterEntry d b f s = some ((), t)) : Absent w d a t := by
  cases h
  rcases hs with hmissed | ⟨hnear, hover⟩
  · exact .inl hmissed
  · refine absent_congr (.inr ⟨hnear, hover⟩) (fun i => ?_) rfl
    rw [alterEntry_accounts]
    by_cases hab : a = b
    · subst hab
      have hjoin : (s.envs.accounts (d + 1) a).join = none := by
        rcases hL : s.envs.accounts (d + 1) a with - | - | frm
        · rfl
        · rfl
        · simp [AtomMap.near, hL] at hnear
      rw [hjoin]
      rfl
    · exact Overlay.hold_of_ne hab i

namespace Access
variable {w : World} (S : Access w)

abbrev Good {α : Type} (m : LedgerM α) : Prop := Respects S.rel S.ok anyState m

theorem alter (d : ℕ) (a : Address) {f : AccountFrm → AccountFrm}
    (h : ∀ x, ((f x).nonce, (f x).title) = (x.nonce, x.title)) : S.Good (OpenSesame.alterEntry d a f) :=
  S.alterEntry d a (fun x => (Prod.mk.inj (h x)).1) fun x hx => (Prod.mk.inj (h x)).2.symm ▸ hx

theorem onlyIf {c : Bool} {m : LedgerM Unit} (h : S.Good m) : S.Good (onlyIf c m) := .ite (fun _ => h) fun _ => .pure _

theorem crash {α : Type} : S.Good (crash : LedgerM α) := .of_none fun _ => rfl

theorem payFee (env : TransactionEnv) (totalFee : Int64) : S.Good (payFee w env totalFee) := by
  refine .bind (S.getEntry ..) fun r => ?_
  cases r with
  | none => exact .pure _
  | some source =>
    dsimp only
    split
    · exact .pure _
    · split
      · exact .pure _
      · exact .bind (S.alter _ _ fun _ => rfl) fun _ => .pure _

theorem allocateAverage (average : Int64) (l : List Validator) :
    ∀ left, S.Good (LedgerFrm.allocateAverage w average l left) := by
  induction l with
  | nil => exact fun _ => .pure _
  | cons v l ih =>
    intro left
    refine .bind_after (S.getEntry 0 v.address) fun r => .bind ?_ fun _ => .bind (S.deref 0 v.address) fun frm => ?_
    · refine .ite (fun hr => (S.addEntry _ _ rfl (S.created _)).weaken ?_) fun _ => .pure _
      rintro t ⟨s, -, hs⟩
      obtain rfl := Option.isNone_iff_eq_none.mp hr
      exact absent_of_getEntry hs
    · split
      · exact .pure _
      · exact .bind (S.alter _ _ fun _ => rfl) fun _ => ih _

theorem allocateLeft (l : List Validator) (seq left : Int64) : S.Good (LedgerFrm.allocateLeft l seq left) := by
  refine .ite (fun _ => .pure _) fun _ => .ite (fun _ => S.crash) fun _ => ?_
  split
  · exact S.crash
  · refine .bind (S.deref ..) fun frm => ?_
    split
    · exact .pure _
    · exact .bind (S.alter _ _ fun _ => rfl) fun _ => .pure _

theorem allocateRewardDirectly (seq reward : Int64) : S.Good (LedgerFrm.allocateRewardDirectly w seq reward) := by
  unfold LedgerFrm.allocateRewardDirectly
  split
  · exact .pure _
  · exact .pure _
  · refine .bind (S.allocateAverage ..) fun r => ?_
    cases r with
    | none => exact .pure _
    | some left => exact S.allocateLeft ..

theorem payReward (seq reward : Int64) : S.Good (LedgerFrm.payReward w seq reward) := by
  refine .ite (fun _ => .bind (S.getEntry ..) fun r => ?_) fun _ => S.allocateRewardDirectly ..
  cases r with
  | none => exact S.allocateRewardDirectly ..
  | some frm =>
    dsimp only
    split
    · exact .pure _
    · exact .bind (S.alter _ _ fun _ => rfl) fun _ => .pure _

end Access

structure OperationDiscipline (w : World) extends Access w where
  askLedger : Respects rel ok anyState askLedger
  askTx {β : Type} (i : ℕ) {g : TransactionFrm → β} (h : ∀ t, g t.unchecked = g t) :
    Respects rel ok anyState (askTx i g)
  getBottomTx : Respects rel ok anyState getBottomTx

namespace OperationDiscipline
variable {w : World} (S : OperationDiscipline w)

theorem getAsset (d : ℕ) (a : Address) (frm : AccountFrm) (key : AssetKey) : S.Good (getAsset w d a frm key) := by
  refine .bind (S.alter d a fun x => ?_) fun _ => .pure _
  unfold AccountFrm.getAsset
  split
  · rfl
  · split <;> rfl

theorem getMetaData (d : ℕ) (a : Address) (frm : AccountFrm) (key : String) : S.Good (getMetaData w d a frm key) := by
  refine .bind (S.alter d a fun x => ?_) fun _ => .pure _
  unfold AccountFrm.getMetaData
  split
  · rfl
  · split <;> rfl

theorem environmentOf (i : ℕ) : S.Good (environmentOf i) := by
  refine .bind (S.askTx i fun _ => rfl) fun r => ?_
  cases r with
  | none => exact S.crash
  | some d => exact .pure d

/-! ### Operations -/

section Operation
variable {execute : ContractParameter → LedgerM Result} (hexec : ∀ p, S.Good (execute p))
  (tran : Transaction) (d index : ℕ) (source : Address) (src : AccountFrm)

theorem contractParameter (init : Bool) (code input : String) (this sender : Address) (asset : Asset) (amount : Int64) :
    S.Good (contractParameter w tran index init code input this sender asset amount) :=
  .bind S.getBottomTx fun bottom => .bind (S.askTx bottom fun _ => rfl) fun _ => .bind S.askLedger fun _ => .pure _

include hexec in
theorem callContract (code input : String) (dest sender : Address) (asset : Asset) (amount : Int64) :
    S.Good (callContract w execute tran index code input dest sender asset amount) :=
  .ite (fun _ => .pure _) fun _ => .bind (S.contractParameter ..) hexec

include hexec in
theorem initContract (sender dest : Address) (o : OperationCreateAccount) :
    S.Good (initContract w execute tran index sender dest o) :=
  .bind (S.contractParameter ..) fun p => .bind (hexec p) fun _ => .ite (fun _ => .pure _) fun _ => .pure _

include hexec in
theorem createAccount (o : OperationCreateAccount)
    (hnew : S.kept (newAddress w tran index o) (newAccount o (newAddress w tran index o)).title) :
    S.Good (createAccount w execute tran d index source src o) := by
  refine .bind_after (S.getEntry ..) fun r => ?_
  cases r with
  | some _ => exact .pure _
  | none =>
    refine .ite (fun _ => .pure _) fun _ => ?_
    split
    · exact .pure _
    · refine .ite (fun _ => .pure _) fun _ => ?_
      split
      · exact .pure _
      · refine .bind_after (Respects.of_any (S.alter _ _ fun _ => rfl)) fun _ => ?_
        refine .ite (fun _ => .pure _) fun _ => ?_
        -- the destination was not found, and the change of the source did not make it
        refine .bind ((S.addEntry _ _ (congrArg Account.nonce (newAccount_eq ..).1) hnew).weaken ?_) fun _ => ?_
        · rintro t ⟨u, ⟨s, -, hs⟩, hu⟩
          exact absent_of_alterEntry (absent_of_getEntry hs) hu
        · exact .ite (fun _ => .pure _) fun _ => S.initContract hexec ..

theorem issueAsset (o : OperationIssueAsset) : S.Good (OperationFrm.issueAsset w d source src o) := by
  unfold OperationFrm.issueAsset
  refine .bind (S.getAsset ..) fun r => ?_
  cases r with
  | none => exact .bind (S.alter _ _ fun _ => rfl) fun _ => .pure _
  | some held =>
    dsimp only
    split
    · exact .pure _
    · exact .bind (S.alter _ _ fun _ => rfl) fun _ => .pure _

theorem transferAsset (dest : Address) (asset : Asset) :
    S.Good (OperationFrm.transferAsset w d source dest src asset) := by
  unfold OperationFrm.transferAsset
  refine .bind (S.getAsset ..) fun r => ?_
  cases r with
  | none => exact .pure _
  | some held =>
    refine .ite (fun _ => .pure _) fun _ => ?_
    split
    · exact .pure _
    · refine .ite (fun _ => .pure _) fun _ => .bind (S.alter _ _ fun _ => rfl) fun _ =>
        .bind (S.deref ..) fun dst => .bind (S.getAsset ..) fun there => ?_
      cases there with
      | none => exact .bind (S.alter _ _ fun _ => rfl) fun _ => .pure _
      | some there =>
        dsimp only
        split
        · exact .pure _
        · exact .bind (S.alter _ _ fun _ => rfl) fun _ => .pure _

theorem transferPaid (dest : Address) (asset : Option Asset) : S.Good (transferPaid w d source dest src asset) := by
  cases asset with
  | none => exact .pure _
  | some asset => exact S.transferAsset ..

include hexec in
theorem payAsset (o : OperationPayAsset) : S.Good (payAsset w execute tran d index source src o) := by
  refine .bind (S.getEntry ..) fun r => ?_
  cases r with
  | none => exact .pure _
  | some dst => exact .bind (S.transferPaid ..) fun _ => .ite (fun _ => .pure _) fun _ => S.callContract hexec ..

theorem setMetaData (o : OperationSetMetadata) : S.Good (setMetaData w d source src o) := by
  refine .bind (S.getMetaData ..) fun r => ?_
  cases r with
  | some held =>
    refine .ite (fun _ => ?_) fun _ => ?_
    · refine .ite (fun _ => .pure _) fun _ => .ite (fun _ => .pure _) fun _ => ?_
      exact .bind (S.alter _ _ fun _ => rfl) fun _ => .pure _
    · refine .ite (fun _ => .pure _) fun _ => ?_
      exact .bind (S.alter _ _ fun _ => rfl) fun _ => .pure _
  | none =>
    refine .ite (fun _ => .pure _) fun _ => .ite (fun _ => .pure _) fun _ => ?_
    exact .bind (S.alter _ _ fun _ => rfl) fun _ => .pure _

theorem transferCoin (dest : Address) (amount : Int64) :
    S.Good (OperationFrm.transferCoin d source dest src amount) := by
  unfold OperationFrm.transferCoin
  split
  · exact .pure _
  · refine .bind (S.alter _ _ fun _ => rfl) fun _ => .bind (S.deref ..) fun dst => ?_
    split
    · exact .pure _
    · exact .bind (S.alter _ _ fun _ => rfl) fun _ => .pure _

include hexec in
theorem sendCoin (o : OperationPayCoin) : S.Good (sendCoin w execute tran d index source src o) :=
  .bind (S.transferCoin ..) fun _ => .ite (fun _ => .pure _) fun _ => S.callContract hexec ..

include hexec in
theorem payCoin (o : OperationPayCoin) : S.Good (OperationFrm.payCoin w execute tran d index source src o) := by
  unfold OperationFrm.payCoin
  dsimp only
  split
  · exact .pure _
  · refine .ite (fun _ => .pure _) fun _ => .bind_after (S.getEntry ..) fun r => ?_
    cases r with
    | some _ => exact (S.sendCoin hexec ..).of_any
    | none =>
      refine .ite (fun _ => .pure _) fun _ =>
        .bind ((S.addEntry _ _ rfl (S.created _)).weaken ?_) fun _ => S.sendCoin hexec ..
      rintro t ⟨s, -, hs⟩
      exact absent_of_getEntry hs

theorem checkSignature (env : TransactionEnv) (op : Operation) : S.Good (checkSignature w env d op) := by
  refine .bind (S.getEntry ..) fun r => ?_
  cases r with
  | none => exact .pure _
  | some _ => exact .ite (fun _ => .pure _) fun _ => .pure _

theorem checkSignatureIf (needed : Bool) (env : TransactionEnv) (op : Operation) :
    S.Good (checkSignatureIf w needed env d op) :=
  .ite (fun _ => S.checkSignature ..) fun _ => .pure _

include hexec in
theorem applyOperation (op : Operation)
    (hnew : op.type = .createAccount → S.kept (newAddress w tran index op.createAccount)
      (newAccount op.createAccount (newAddress w tran index op.createAccount)).title)
    (hchange : ∀ change, privilegeChange op = some change →
      ∀ x, S.kept (sourceAddress tran op) x.title → S.kept (sourceAddress tran op) (change x).title) :
    S.Good (apply w execute tran d index op) := by
  have hprivilege {f : AccountFrm → AccountFrm} (h : privilegeChange op = some f) :
      S.Good (change d (sourceAddress tran op) f) :=
    .bind (S.alterEntry d _ (OnlyPrivilege.of_privilegeChange h).nonce (hchange f h)) fun _ => .pure _
  refine .bind (S.getEntry ..) fun r => ?_
  cases r with
  | none => exact .pure _
  | some src =>
    dsimp only
    split
    all_goals first | exact .pure _ | skip
    · exact S.createAccount hexec _ _ _ _ _ _ (hnew ‹_›)
    · exact S.payAsset hexec ..
    · exact S.issueAsset ..
    · exact S.setMetaData ..
    · exact hprivilege (by simp [privilegeChange, *])
    · exact hprivilege (by simp [privilegeChange, *])
    · exact S.payCoin hexec ..
    · exact hprivilege (by simp [privilegeChange, *])

end Operation

end OperationDiscipline

/-! ### Transactions -/

structure ApplyDiscipline (w : World) extends OperationDiscipline w where
  keepsAll (a : Address) (title : Address × AccountPrivilege) : kept a title := by exact fun _ _ => trivial
  alterTx (i : ℕ) {f : TransactionFrm → TransactionFrm} (h : ∀ t, f t.unchecked = (f t).unchecked) :
    Respects rel ok anyState (alterTx i f)

namespace ApplyDiscipline
variable {w : World} (S : ApplyDiscipline w)

section Transaction
variable {execute : ContractParameter → LedgerM Result} (hexec : ∀ p, S.Good (execute p))

theorem alterResult (i : ℕ) (f : Result → Result) : S.Good (alterResult i f) := S.alterTx i fun _ => rfl

theorem addActualFee (bottom i : ℕ) : S.Good (addActualFee w bottom i) := by
  refine .bind (S.askTx i fun _ => rfl) fun env => .bind (S.alterTx _ fun _ => rfl) fun _ =>
    .bind (S.askTx _ fun _ => rfl) fun r => ?_
  dsimp only
  split
  · exact .bind (S.alterResult ..) fun _ => .pure _
  · exact .ite (fun _ => .bind (S.alterResult ..) fun _ => .pure _) fun _ => .pure _

include hexec in
theorem applyOperations (i d : ℕ) (env : TransactionEnv) (boolContract : Bool) (l : List Operation) :
    ∀ index descs, S.Good (applyOperations w execute i d env boolContract index l descs) := by
  induction l with
  | nil => exact fun _ _ => .bind (S.alterTx _ fun _ => rfl) fun _ => .pure _
  | cons op l ih =>
    intro index descs
    refine .bind (S.alterTx _ fun _ => rfl) fun _ => .bind S.askLedger fun r =>
      .bind (S.checkSignatureIf ..) fun signed => ?_
    refine .ite (fun _ => .bind (S.alterResult ..) fun _ => .pure _) fun _ =>
      .bind (S.applyOperation hexec _ _ _ op (fun _ => S.keepsAll ..) fun _ _ _ _ => S.keepsAll ..) fun r => ?_
    exact .ite (fun _ => .bind (S.alterResult ..) fun _ => .pure _) fun _ => .bind (S.alterResult ..) fun _ => ih _ _

include hexec in
theorem applyTransaction (i d : ℕ) (boolContract : Bool) : S.Good (apply w execute i d boolContract) :=
  .bind (S.alterTx _ fun _ => rfl) fun _ => .bind S.getBottomTx fun bottom => .bind (S.addActualFee bottom i) fun _ =>
    .ite (fun _ => .pure _) fun _ => .bind (S.askTx i fun _ => rfl) fun _ => S.applyOperations hexec ..

theorem refund (i : ℕ) (a : Address) (fee totalFee : Int64) : S.Good (refund w i a fee totalFee) := by
  refine .bind (S.environmentOf i) fun d => .bind (S.getEntry d a) fun r => ?_
  cases r with
  | none => exact .bind (S.alterResult ..) fun _ => .pure _
  | some src =>
    dsimp only
    split
    · exact .bind (S.alterResult ..) fun _ => .pure _
    · split
      · exact .bind (S.alterResult ..) fun _ => .pure _
      · exact .bind (S.alter _ _ fun _ => rfl) fun _ => .pure _

theorem returnFee (i : ℕ) (totalFee : Int64) : S.Good (returnFee w i totalFee) := by
  refine .bind (S.askTx i fun _ => rfl) fun r => ?_
  dsimp only
  split
  · exact .bind (S.alterResult ..) fun _ => .pure _
  · split
    · exact .bind (S.alterResult ..) fun _ => .pure _
    · exact .ite (fun _ => .pure _) fun _ => S.refund ..

end Transaction

end ApplyDiscipline

/-! ### Scripts -/

/-- A property of computations that what a script does to read has. -/
structure ReadRules (w : World) where
  Good {α : Type} (m : LedgerM α) : Prop
  pure {α : Type} (a : α) : Good (pure a)
  bind {α β : Type} {m : LedgerM α} {k : α → LedgerM β} (hm : Good m) (hk : ∀ a, Good (k a)) : Good (m >>= k)
  getEntry (d : ℕ) (a : Address) : Good (getEntry w d a)
  getAsset (d : ℕ) (a : Address) (frm : AccountFrm) (key : AssetKey) : Good (getAsset w d a frm key)
  getMetaData (d : ℕ) (a : Address) (frm : AccountFrm) (key : String) : Good (getMetaData w d a frm key)
  getValidators (d : ℕ) : Good (getValidators w d)
  topEnvironment : Good topEnvironment
  stackSize : Good stackSize
  stepBottom (step : Int32) : Good (stepBottom step)
  stepTop (step : Int32) : Good (stepTop step)
  again {α β : Type} {m : LedgerM α} {k : α → LedgerM β} (hm : Good m) (hk : ∀ a, Good (k a)) :
    Good (getTopTx >>= fun i => pushAgain i >>= fun _ => m >>= fun a => popTx >>= fun _ => k a)

namespace ReadRules
variable {w : World} (S : ReadRules w)

theorem ite {α : Type} {c : Prop} [Decidable c] {m m' : LedgerM α} (h : S.Good m) (h' : S.Good m') :
    S.Good (if c then m else m') := by
  split
  · exact h
  · exact h'

theorem tooDeep : S.Good (tooDeep w) := S.bind S.stackSize fun _ => S.pure _

theorem metadataOf (d : ℕ) (a : Address) (key : String) : S.Good (metadataOf w d a key) := by
  refine S.bind (S.getEntry ..) fun r => ?_
  cases r with
  | none => exact S.pure _
  | some frm =>
    refine S.bind (S.getMetaData ..) fun r => ?_
    cases r <;> exact S.pure _

theorem callBackGetAccountAsset (a : Address) (key : AssetKey) : S.Good (callBackGetAccountAsset w a key) := by
  refine S.bind (S.stepBottom 100) fun _ => S.bind S.topEnvironment fun d => S.bind (S.getEntry ..) fun r => ?_
  cases r with
  | none => exact S.pure _
  | some frm =>
    refine S.bind (S.getAsset ..) fun r => ?_
    cases r <;> exact S.pure _

theorem callBackGetContractProperty (a : Address) : S.Good (callBackGetContractProperty w a) := by
  refine S.bind (S.stepBottom 100) fun _ => S.bind S.topEnvironment fun d => S.bind (S.getEntry ..) fun r => ?_
  cases r <;> exact S.pure _

theorem reply (c : V8Contract) {m : LedgerM Json} (h : S.Good m) : S.Good (c.reply m) := S.bind h fun _ => S.pure _

variable {run : Bool → ContractParameter → LedgerM (Finish × Result)}

theorem execute (hrun : ∀ p, S.Good (run false p)) (type : Int32) (p : ContractParameter) :
    S.Good (execute w run type p) :=
  S.bind S.tooDeep fun _ => S.ite (S.pure _) (S.ite (S.pure _) (S.bind (hrun p) fun _ => S.pure _))

section Query
variable (hquery : ∀ p, S.Good (run true p))

include hquery in
theorem query (type : Int32) (p : ContractParameter) : S.Good (query w run type p) := by
  refine S.bind S.tooDeep fun _ => S.ite (S.pure _) (S.ite (S.pure _) (S.bind (hquery p) fun r => ?_))
  split <;> exact S.pure _

include hquery in
theorem pushedQuery (a : Address) (parameter : String → ContractParameter) :
    S.Good (pushedQuery w run a parameter) := by
  refine S.bind (S.stepBottom 100) fun _ => S.bind S.topEnvironment fun d => S.bind (S.getEntry ..) fun r => ?_
  split
  · exact S.pure _
  · refine S.again (S.query hquery ..) fun r => ?_
    cases r <;> exact S.pure _

include hquery in
theorem oldContractQuery (c : V8Contract) (a : Address) (input : String) :
    S.Good (oldContractQuery w run c a input) := by
  refine S.bind (S.stepBottom 1000) fun _ => S.bind S.topEnvironment fun d => S.bind (S.getEntry ..) fun r => ?_
  split
  · exact S.pure _
  · refine S.bind (S.query hquery ..) fun r => ?_
    cases r <;> exact S.pure _

include hquery in
theorem readCall (c : V8Contract) (call : HostCall) (h : call.writes = false) : S.Good (hostCall w run c call) := by
  cases call with
  | compute => exact S.bind (S.stepBottom 100) fun _ => S.pure _
  | getBalance a =>
    exact S.reply c (S.bind (S.stepBottom 100) fun _ => S.bind S.topEnvironment fun _ =>
      S.bind (S.getEntry ..) fun _ => S.pure _)
  | getAccountAsset a key => exact S.reply c (S.callBackGetAccountAsset a key)
  | getAccountMetadata a key =>
    exact S.reply c (S.bind (S.stepBottom 100) fun _ => S.bind S.topEnvironment fun _ => S.metadataOf ..)
  | getContractProperty a => exact S.reply c (S.callBackGetContractProperty a)
  | load key => exact S.reply c (S.bind (S.stepTop 100) fun _ => S.bind S.topEnvironment fun _ => S.metadataOf ..)
  | getValidators => exact S.reply c (S.bind S.topEnvironment fun d => S.getValidators d)
  | contractQuery a input => exact S.reply c (S.ite (S.pushedQuery hquery ..) (S.oldContractQuery hquery ..))
  | delegateQuery a input => exact S.reply c (S.pushedQuery hquery ..)
  | _ => cases h

end Query

end ReadRules

/-- A property of computations that whatever a script does has. -/
structure ScriptRules (w : World) extends ReadRules w where
  crash {α : Type} : Good (crash : LedgerM α)
  updateFeeConfig (d : ℕ) (j : Json) : Good (updateFeeConfig d j)
  updateNewValidators (d : ℕ) (j : Json) : Good (updateNewValidators d j)
  noteResult (r : Result) : Good (noteResult r)
  internalCheckTime (memory remain : Int64) (late : Bool) : Good (internalCheckTime memory remain late)
  transact {run : Bool → ContractParameter → LedgerM (Finish × Result)} (hrun : ∀ readonly p, Good (run readonly p))
    (c : V8Contract) (op : Operation) (answer : Result → Json) : Good (transact w run c op answer)

namespace ScriptRules
variable {w : World} (S : ScriptRules w)

section Script
variable {run : Bool → ContractParameter → LedgerM (Finish × Result)} (hrun : ∀ readonly p, S.Good (run readonly p))

include hrun in
theorem withAmount (c : V8Contract) (amount desc : String) (op : Int64 → Operation) (answer : Result → Json) :
    S.Good (withAmount w run c amount desc op answer) := by
  refine S.bind (S.stepBottom 100) fun _ => ?_
  split
  · exact S.pure _
  · exact S.transact hrun ..

include hrun in
theorem callBackDelegateCall (c : V8Contract) (a : Address) (input : String) :
    S.Good (callBackDelegateCall w run c a input) := by
  refine S.bind (S.stepBottom 100) fun _ => S.bind S.topEnvironment fun d => S.bind (S.getEntry ..) fun frm => ?_
  split
  · exact S.pure _
  · exact S.again (S.execute (hrun false) ..) fun r => S.bind (S.noteResult r) fun _ => S.pure _

include hrun in
theorem hostCall (c : V8Contract) (call : HostCall) : S.Good (hostCall w run c call) := by
  cases call with
  | store key value | del key => exact S.bind (S.stepBottom 100) fun _ => S.ite (S.pure _) (S.transact hrun ..)
  | configFee fees =>
    exact S.ite (S.pure _) (S.bind S.topEnvironment fun d => S.bind (S.updateFeeConfig d fees) fun _ => S.pure _)
  | setValidators validators =>
    exact S.ite (S.pure _) (S.bind S.topEnvironment fun d =>
      S.bind (S.updateNewValidators d validators) fun _ => S.pure _)
  | payCoin dest amount input remark => exact S.withAmount hrun ..
  | issueAsset code amount => exact S.withAmount hrun ..
  | payAsset dest issuer code amount input remark => exact S.withAmount hrun ..
  | tlog topic datas => exact S.bind (S.stepBottom 100) fun _ => S.transact hrun ..
  | delegateCall a input => exact S.callBackDelegateCall hrun ..
  | contractCall dest asset amount input => exact S.withAmount hrun ..
  | contractCreate balance code input => exact S.withAmount hrun ..
  | _ => exact S.readCall (hrun true) c _ rfl

include hrun in
theorem steps (n : ℕ) : ∀ c σ, S.Good (V8Contract.steps w run n c σ) := by
  induction n with
  | zero => exact fun _ _ => S.crash
  | succ n ih =>
    intro c σ
    unfold V8Contract.steps
    split
    · exact S.pure _
    · exact S.bind (S.internalCheckTime ..) fun _ => ih _ _
    · exact S.ite (ih _ _) (S.bind (S.hostCall hrun ..) fun _ => ih _ _)

end Script

theorem runScript (fuel : ℕ) : ∀ readonly p, S.Good (runScript w fuel readonly p) := by
  induction fuel with
  | zero => exact fun _ _ => S.crash
  | succ n ih => exact fun _ _ => S.steps ih n _ _

end ScriptRules

structure Discipline (w : World) extends ApplyDiscipline w where
  nonceIncrease (d : ℕ) (a : Address) : Respects rel ok anyState (nonceIncrease d a)
  commit (d : ℕ) : Respects rel ok anyState (commit (d + 1))
  newStackFrameEnv (d : ℕ) : Respects rel ok anyState (newStackFrameEnv d)
  getValidators (d : ℕ) : Respects rel ok anyState (getValidators w d)
  updateFeeConfig (d : ℕ) (j : Json) : Respects rel ok anyState (updateFeeConfig d j)
  updateNewValidators (d : ℕ) (j : Json) : Respects rel ok anyState (updateNewValidators d j)
  pushTx (env : TransactionEnv) : Respects rel ok anyState (pushTx { transactionEnv := env })
  pushAgain (i : ℕ) : Respects rel ok anyState (pushAgain i)
  popTx : Respects rel ok anyState popTx
  stackSize : Respects rel ok anyState stackSize
  getTopTx : Respects rel ok anyState getTopTx
  trip (i : ℕ) (late : Bool) : Respects rel ok anyState (trip i late)

namespace Discipline
variable {w : World} (S : Discipline w)

theorem topEnvironment : S.Good topEnvironment := .bind S.getTopTx fun i => S.environmentOf i

theorem txNonceIncrease (i d : ℕ) : S.Good (TransactionFrm.nonceIncrease w i d) := by
  refine .bind (S.askTx i fun _ => rfl) fun a => .bind (S.getEntry d a) fun r => ?_
  cases r with
  | none => exact S.alterResult ..
  | some _ => exact S.nonceIncrease d a

/-! ### What a script does -/

theorem stepBottom (step : Int32) : S.Good (stepBottom step) := .bind S.getBottomTx fun i => S.alterTx i fun _ => rfl

def readRules : ReadRules w where
  Good := S.Good
  pure := .pure
  bind := .bind
  getEntry := S.getEntry
  getAsset := S.getAsset
  getMetaData := S.getMetaData
  getValidators := S.getValidators
  topEnvironment := S.topEnvironment
  stackSize := S.stackSize
  stepBottom := S.stepBottom
  stepTop _ := .bind S.getTopTx fun i => S.alterTx i fun _ => rfl
  again hm hk := .bind S.getTopTx fun i => .bind (S.pushAgain i) fun _ => .bind hm fun a => .bind S.popTx fun _ => hk a

theorem internalCheckTime (memory remain : Int64) (late : Bool) : S.Good (internalCheckTime memory remain late) :=
  .bind S.getBottomTx fun i => .bind (S.alterTx i fun _ => rfl) fun _ => S.trip i late

end Discipline

structure ScriptDiscipline (w : World) extends Discipline w where
  noteResult (r : Result) : Respects rel ok anyState (noteResult r)

namespace ScriptDiscipline
variable {w : World} (S : ScriptDiscipline w)

section Script
variable {run : Bool → ContractParameter → LedgerM (Finish × Result)} (hrun : ∀ readonly p, S.Good (run readonly p))

include hrun in
theorem applyOrCharge (i d : ℕ) (valid : Bool) : S.Good (applyOrCharge w run i d valid) :=
  .ite (fun _ => .bind (S.newStackFrameEnv d) fun _ =>
      .bind (S.applyTransaction (S.readRules.execute (hrun false) 0) ..) fun _ => .pure _)
    fun _ => .bind S.getBottomTx fun bottom => .bind (S.addActualFee bottom i) fun _ => .pure _

include hrun in
theorem applyPushed (i d : ℕ) (env : TransactionEnv) : S.Good (V8Contract.applyPushed w run i d env) := by
  refine .bind (S.txNonceIncrease i d) fun _ => .bind S.stackSize fun size =>
    .bind (S.askTx i fun _ => rfl) fun r => .bind (S.alterResult ..) fun _ =>
    .bind (S.applyOrCharge hrun ..) fun _ => .bind (S.askTx i fun _ => rfl) fun r => .ite (fun _ => ?_) fun _ => ?_
  · exact .bind (S.onlyIf S.popTx) fun _ => .pure _
  · exact .bind (S.onlyIf (S.commit d)) fun _ => .bind S.popTx fun _ => .pure _

include hrun in
theorem doTransaction (env : TransactionEnv) : S.Good (doTransaction w run env) := by
  refine .bind S.topEnvironment fun d => .bind (S.getEntry ..) fun r => ?_
  cases r with
  | none => exact S.crash
  | some source =>
    refine .bind S.stackSize fun size => .ite (fun _ => ?_) fun _ => ?_
    · exact .bind S.getBottomTx fun bottom => .bind (S.alterTx bottom fun _ => rfl) fun _ => .pure _
    · exact .bind (S.pushTx _) fun i => S.applyPushed hrun ..

end Script

def scriptRules : ScriptRules w where
  toReadRules := S.readRules
  crash := S.crash
  updateFeeConfig := S.updateFeeConfig
  updateNewValidators := S.updateNewValidators
  noteResult := S.noteResult
  internalCheckTime := S.internalCheckTime
  transact hrun _ _ _ := .bind (S.doTransaction hrun _) fun r => .bind (S.noteResult r) fun _ => .pure _

theorem applyTop (fuel i : ℕ) : S.Good (LedgerFrm.applyTop w fuel i) :=
  S.applyTransaction (S.readRules.execute (S.scriptRules.runScript fuel false) 0) i 0 false

end ScriptDiscipline
end OpenSesame
