import OpenSesame.Lib.Path
import OpenSesame.Theorems.Ledger.Effect

/-! # The course of a block without scripts

What happens to the accounts and to `total_fee_` when a block is applied, as a path of steps: a
transaction is charged, its operations take effect, and what is left of its fee limit is given back;
at the end the validators are paid. -/

namespace OpenSesame
open Protocol StateOption OperationFrm TransactionFrm SafeInt AccountFrm

/-- The accounts and `total_fee_`. -/
structure Books where
  store : Store
  fee : Int64

/-- What changes the books. -/
inductive Cause where
  | charge (env : TransactionEnv)
  | operation (env : TransactionEnv) (index : ℕ) (op : Operation)
  | refund (env : TransactionEnv)
  | reward (receiver : Address) (amount : Int64)

/-- An account as `SignerHashPriv` reads it. -/
def Holding.signer (h : Holding) : AccountFrm := .ofAccount { address := h.address, priv := some h.privilege }

/-- The signatures of a transaction are enough for an account. -/
def Signed (w : World) (env : TransactionEnv) (type : OperationType) (h : Holding) : Prop :=
  signerHashPriv (w.validSignature env) h.signer type = true

/-- The account that is paid a reward; it is made if there is none. -/
def Receiver (w : World) (V : Store) (a : Address) (h : Holding) : Prop :=
  V a = some h ∨ V a = none ∧ h = (creatAccountFrm a 0).holding w.db

/-- One step; in test mode no signatures are asked for. -/
inductive Step (w : World) (test : Bool) : Cause → Books → Books → Prop
  | charge {env : TransactionEnv} {B : Books} {h : Holding} {balance fee actual : Int64}
      (valid : (validForParameter w env 0 {}).1 = true)
      (source : B.store env.transaction.sourceAddress = some h)
      (nonce : h.nonce + 1 = env.transaction.nonce)
      (signed : test = false → Signed w env (.other (-1)) h)
      (pays : safeIntSub h.balance env.transaction.feeLimit = some balance)
      (reserve : ¬balance < w.fees.baseReserve)
      (actually : safeIntMul (getSelfGas w env) env.transaction.gasPrice = some actual)
      (enough : ¬env.transaction.feeLimit < actual)
      (takes : safeIntAdd B.fee env.transaction.feeLimit = some fee) :
      Step w test (.charge env) B ⟨B.store.put env.transaction.sourceAddress (h.setBalance balance).nonceIncrease, fee⟩
  | operation {env : TransactionEnv} {index : ℕ} {op : Operation} {B : Books} {V : Store}
      (valid : (checkValid w op (sourceAddress env.transaction op) 0).code = .success)
      (signed : test = false → ∃ h, B.store (sourceAddress env.transaction op) = some h ∧ Signed w env op.type h)
      (effect : Effect w env.transaction index op B.store V) :
      Step w test (.operation env index op) B ⟨V, B.fee⟩
  | kept {env : TransactionEnv} {B : Books} : Step w test (.refund env) B B
  | refund {env : TransactionEnv} {B : Books} {h : Holding} {actual extra fee balance : Int64}
      (actually : safeIntMul (getSelfGas w env) env.transaction.gasPrice = some actual)
      (left : safeIntSub env.transaction.feeLimit actual = some extra)
      (some_left : ¬extra ≤ 0)
      (source : B.store env.transaction.sourceAddress = some h)
      (gives : safeIntSub B.fee extra = some fee)
      (receives : safeIntAdd h.balance extra = some balance) :
      Step w test (.refund env) B ⟨B.store.put env.transaction.sourceAddress (h.setBalance balance), fee⟩
  | lost {env : TransactionEnv} {B : Books} {h : Holding} {actual extra fee : Int64}
      (actually : safeIntMul (getSelfGas w env) env.transaction.gasPrice = some actual)
      (left : safeIntSub env.transaction.feeLimit actual = some extra)
      (some_left : ¬extra ≤ 0)
      (source : B.store env.transaction.sourceAddress = some h)
      (gives : safeIntSub B.fee extra = some fee)
      (overflows : safeIntAdd h.balance extra = none) :
      Step w test (.refund env) B ⟨B.store, fee⟩
  | reward {a : Address} {amount balance : Int64} {B : Books} {h : Holding} (there : Receiver w B.store a h)
      (receives : safeIntAdd h.balance amount = some balance) :
      Step w test (.reward a amount) B ⟨B.store.put a (h.setBalance balance), B.fee⟩

/-- The operations of a transaction, from one on. -/
def operationCauses (env : TransactionEnv) : ℕ → List Operation → List Cause
  | _, [] => []
  | index, op :: l => .operation env index op :: operationCauses env (index + 1) l

/-- What a transaction does. One that fails or expires is charged, and its operations have no effect. -/
def causesOf (env : TransactionEnv) : Verdict → List Cause
  | .applied => .charge env :: (operationCauses env 0 env.transaction.operations ++ [.refund env])
  | .expired | .failed => [.charge env]

/-- What a transaction of `apply_tx_frms_` did. -/
def AppliedTx.causes (tx : AppliedTx) : List Cause := causesOf tx.frm.transactionEnv tx.verdict

def TxPath (w : World) (test : Bool) : List AppliedTx → Books → Books → Prop :=
  Path fun tx => Path (Step w test) tx.causes

/-! ### What is true of every account -/

def Each (P : Address → Holding → Prop) (V : Store) : Prop := ∀ a h, V a = some h → P a h

structure Stable (P : Address → Holding → Prop) : Prop where
  balance : ∀ {a h} (b : Int64), P a h → P a (h.setBalance b)
  nonce : ∀ {a h}, P a h → P a h.nonceIncrease
  asset : ∀ {a h} (key : AssetKey) (r : Option Int64), P a h → P a (h.setAsset key r)
  metadata : ∀ {a h} (key : String) (r : Option KeyPair), P a h → P a (h.setMetadata key r)

section Each
variable {w : World} {test : Bool} {P : Address → Holding → Prop} {V V' : Store}

theorem Each.put (hV : Each P V) {a : Address} {h : Holding} (hP : P a h) : Each P (V.put a h) := by
  intro b h' hb
  by_cases hba : b = a
  · subst hba
    rw [Store.put_self] at hb
    cases hb
    exact hP
  · rw [Store.put_of_ne _ hba] at hb
    exact hV b h' hb

theorem Each.transfer (hV : Each P V) {a b : Address} {h d d' : Holding} (hP : P a h) (there : V.put a h b = some d)
    (hd : P b d → P b d') : Each P ((V.put a h).put b d') :=
  (hV.put hP).put (hd (hV.put hP b d there))

theorem Effect.each {tran : Transaction} {index : ℕ} {op : Operation} (heffect : Effect w tran index op V V')
    (hP : Stable P) (hV : Each P V)
    (hmade : op.type = .createAccount → op.createAccount.payload = "" → P (newAddress w tran index op.createAccount)
        ((newAccount op.createAccount (newAddress w tran index op.createAccount)).holding w.db))
    (hopened : ∀ a, P a ((creatAccountFrm a 0).holding w.db))
    (hprivilege : ∀ {a h frm change}, privilegeChange op = some change → frm.info.privilege = h.privilege → P a h →
      P a (h.setPrivilege (change frm).info.privilege)) : Each P V' := by
  cases heffect with
  | idle => exact hV
  | create type source _ _ _ _ _ code => exact (hV.put (hP.balance _ (hV _ _ source))).put (hmade type code)
  | payCoin _ source _ _ dest _ there =>
    obtain ⟨-, rfl⟩ | ⟨-, -, rfl⟩ := dest
    · exact hV.transfer (hP.balance _ (hV _ _ source)) there (hP.balance _)
    · exact (hV.put (hopened _)).transfer (hP.balance _ (hV _ _ source)) there (hP.balance _)
  | payNothing => exact hV
  | payAsset _ source _ _ _ _ _ there => exact hV.transfer (hP.asset _ _ (hV _ _ source)) there (hP.asset _ _)
  | issue _ source => exact hV.put (hP.asset _ _ (hV _ _ source))
  | metadata _ source key r => exact hV.put (hP.metadata key r (hV _ _ source))
  | privilege type source same => exact hV.put (hprivilege type same (hV _ _ source))

theorem Step.each {cause : Cause} {B B' : Books} (hstep : Step w test cause B B') (hP : Stable P)
    (hB : Each P B.store) (hopened : ∀ a, P a ((creatAccountFrm a 0).holding w.db))
    (hmade : ∀ (tran : Transaction) (index : ℕ) (op : Operation), op.type = .createAccount →
      (checkValid w op (sourceAddress tran op) 0).code = .success → op.createAccount.payload = "" →
      P (newAddress w tran index op.createAccount)
        ((newAccount op.createAccount (newAddress w tran index op.createAccount)).holding w.db))
    (hprivilege : ∀ {tran : Transaction} {op : Operation} {a h frm change},
      (checkValid w op (sourceAddress tran op) 0).code = .success → privilegeChange op = some change →
      frm.info.privilege = h.privilege → P a h → P a (h.setPrivilege (change frm).info.privilege)) :
    Each P B'.store := by
  cases hstep with
  | charge _ source => exact hB.put (hP.nonce (hP.balance _ (hB _ _ source)))
  | operation valid _ effect =>
    exact effect.each hP hB (fun type => hmade _ _ _ type valid) hopened fun change => hprivilege valid change
  | kept => exact hB
  | refund _ _ _ source => exact hB.put (hP.balance _ (hB _ _ source))
  | lost => exact hB
  | reward there =>
    obtain there | ⟨-, rfl⟩ := there
    · exact hB.put (hP.balance _ (hB _ _ there))
    · exact hB.put (hP.balance _ (hopened _))

end Each

section Made
variable (db : AccountDb) (o : OperationCreateAccount) (dest : Address)

theorem newAccount_address : ((newAccount o dest).holding db).address = dest := by
  rw [holding, (newAccount_eq o dest).1]

theorem newAccount_balance : ((newAccount o dest).holding db).balance = o.initBalance := by
  rw [holding, balance, (newAccount_eq o dest).1]

theorem newAccount_payload : ((newAccount o dest).holding db).payload = o.payload := by
  rw [holding, (newAccount_eq o dest).1]
  rfl

theorem newAccount_privilege : ((newAccount o dest).holding db).privilege = o.priv.getD {} := by
  rw [holding, (newAccount_eq o dest).1]
  rfl

theorem newAccount_asset : ((newAccount o dest).holding db).asset = db.asset dest := by
  rw [holding, (newAccount_eq o dest).1, (newAccount_eq o dest).2]
  rfl

end Made

/-- The account that is stored at an address has no script. -/
def Codeless (w : World) (a : Address) : Prop := ∀ acc, w.db.account a = some acc → acc.payload = ""

def Bare (w : World) : Store → Prop := Each fun a h => Codeless w a → h.payload = ""

theorem Step.bare {w : World} {test : Bool} {cause : Cause} {B B' : Books} (hstep : Step w test cause B B')
    (hB : Bare w B.store) : Bare w B'.store := by
  refine hstep.each ⟨fun _ h => h, fun h => h, fun _ _ h => h, fun _ _ h => h⟩ hB ?_ ?_ ?_
  · exact fun _ _ => rfl
  · intro tran index op _ _ code _
    rw [newAccount_payload, code]
  · exact fun _ _ _ h => h

/-- The operation is none that runs a script. -/
structure CodeFree (w : World) (op : Operation) : Prop where
  create : op.type = .createAccount → op.createAccount.payload = ""
  payCoin : op.type = .payCoin → Codeless w op.payCoin.destAddress
  payAsset : op.type = .payAsset → Codeless w op.payAsset.destAddress

theorem CodeFree.unscripted {w : World} {op : Operation} {V : Store} (h : CodeFree w op) (hV : Bare w V) :
    Unscripted op V where
  create := h.create
  payCoin type x hx := hV _ x hx (h.payCoin type)
  payAsset type x hx := hV _ x hx (h.payAsset type)

end OpenSesame
