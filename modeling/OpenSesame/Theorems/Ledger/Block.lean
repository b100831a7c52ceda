
import OpenSesame.Theorems.Ledger.Base

/-! # The steps of a block

What `ValidForApply`, `PayFee` and the frame around a top transaction do, for the three ways to apply a block. -/

namespace OpenSesame
open Protocol StateOption TransactionFrm Environments Overlay SafeInt Result AtomMap Option

/-! ### A check that succeeds leaves no trace in the result -/

structure Result.Clean (r : Result) : Prop where
  eq : r.code = .success → r = {}

theorem Result.clean_default : Result.Clean {} := ⟨fun _ => rfl⟩

variable {r : Result}

@[simp] theorem Result.clean_error {code : ErrorCode} {desc : String} (h : code ≠ .success) :
    (error code desc).Clean := ⟨fun h' => absurd h' h⟩

@[simp] theorem Result.clean_set {code : ErrorCode} {desc : String} (h : code ≠ .success) :
    (r.set code desc).Clean := ⟨fun h' => absurd h' h⟩

theorem firstError_clean {checks : List (Bool × Result)} {rest : Result} (h : ∀ c ∈ checks, c.2.Clean)
    (hrest : rest.Clean) : (firstError checks rest).Clean := by
  unfold firstError
  split
  · rename_i c hc
    exact h c (List.mem_of_find?_eq_some hc)
  · exact hrest

namespace OperationFrm
variable (w : World)

theorem sourceCodeCheck_clean (code : String) (n : ℕ) : (sourceCodeCheck w code n).Clean := by
  unfold sourceCodeCheck
  split
  · simp
  · split
    · simp
    · exact clean_default

theorem checkSigners_clean (c : SignerCheck) (self : Address) (l : List Signer) :
    ∀ seen, (checkSigners w c self seen l).Clean := by
  induction l with
  | nil => exact fun _ => clean_default
  | cons s l ih => exact fun seen => firstError_clean (by simp) (ih _)

theorem checkTypeThresholds_clean {c : ThresholdCheck} (hc : c.unsupported ≠ .success)
    (l : List OperationTypeThreshold) : ∀ seen, (checkTypeThresholds c seen l).Clean := by
  induction l with
  | nil => exact fun _ => clean_default
  | cons s l ih => exact fun seen => firstError_clean (by simp [hc]) (ih _)

theorem checkMetadatas_clean (l : List KeyPair) (h : r.Clean) : (checkMetadatas l r).Clean := by
  induction l generalizing r with
  | nil => exact h
  | cons kp l ih =>
    refine ih ?_
    dsimp only
    split
    · simp
    · split
      · simp
      · exact h

theorem checkContract_clean (o : OperationCreateAccount) (priv : AccountPrivilege) (desc : String) (n : ℕ) :
    (checkContract w o priv desc n r).Clean := by
  unfold checkContract
  split
  · simp
  · split
    · simp
    · exact checkMetadatas_clean _ (sourceCodeCheck_clean ..)

theorem checkCreateAccount_clean (o : OperationCreateAccount) (source : Address) (n : ℕ) :
    (checkCreateAccount w o source n).Clean := by
  refine firstError_clean (by simp [checkSigners_clean]) ?_
  split
  · exact checkContract_clean ..
  · exact checkMetadatas_clean _ (checkTypeThresholds_clean (by decide) _ _)

theorem checkCreateAccountGt1000_clean (o : OperationCreateAccount) (n : ℕ) :
    (checkCreateAccountGt1000 w o n).Clean := by
  refine firstError_clean (by simp) ?_
  split
  · exact checkContract_clean ..
  · split
    · simp
    · exact checkMetadatas_clean _ (checkTypeThresholds_clean (by decide) _ _)

theorem checkValid_clean (op : Operation) (source : Address) (n : ℕ) : (checkValid w op source n).Clean := by
  refine firstError_clean (by simp) ?_
  split
  · split
    · exact firstError_clean (by simp) (checkCreateAccountGt1000_clean ..)
    · exact checkCreateAccount_clean ..
  · exact firstError_clean (by simp) clean_default
  · exact firstError_clean (by simp) clean_default
  · exact firstError_clean (by simp) clean_default
  · exact firstError_clean (by simp) (checkSigners_clean ..)
  · exact firstError_clean (by simp) (checkTypeThresholds_clean (by decide) _ _)
  · exact firstError_clean (by simp) clean_default
  · exact firstError_clean (by simp) clean_default
  · exact firstError_clean (by simp [checkSigners_clean]) (checkTypeThresholds_clean (by decide) _ _)
  · exact clean_default
  · exact clean_default
  · simp
  · simp

end OperationFrm

variable {env : TransactionEnv}

namespace TransactionFrm
variable (w : World)

theorem checkOperations_result (tran : Transaction) (n : ℕ) (l : List Operation) :
    ∀ i, (checkOperations w tran n i l {}).1 = true → (checkOperations w tran n i l {}).2 = {} := by
  induction l with
  | nil => exact fun _ _ => rfl
  | cons op l ih =>
    intro i
    unfold checkOperations
    dsimp only
    split
    · exact nofun
    · split
      · exact nofun
      · split
        · exact nofun
        · rename_i hcode
          rw [(OperationFrm.checkValid_clean w op _ n).eq (by simpa using hcode)]
          exact ih (i + 1)

theorem validForParameter_result (env : TransactionEnv) (n : ℕ) (h : (validForParameter w env n {}).1 = true) :
    (validForParameter w env n {}).2 = {} := by
  unfold validForParameter at h ⊢
  dsimp only at h ⊢
  split
  · rename_i he
    rw [he] at h
    exact absurd h nofun
  · rename_i he
    rw [he] at h
    exact checkOperations_result w _ _ _ _ h

theorem checkFee_ok {source : AccountFrm} (h : (checkFee w env source r).1 = true) : (checkFee w env source r).2 = r ∧
      (∃ limit, safeIntSub source.balance env.transaction.feeLimit = some limit ∧ ¬ limit < w.fees.baseReserve) ∧
      ∃ fee, safeIntMul (getSelfGas w env) env.transaction.gasPrice = some fee ∧ ¬ env.transaction.feeLimit < fee := by
  unfold checkFee at h ⊢
  dsimp only at h ⊢
  split at h
  · exact absurd h nofun
  · rename_i limit hlimit
    split at h
    · exact absurd h nofun
    · rename_i hreserve
      split at h
      · exact absurd h nofun
      · rename_i fee hfee
        split at h
        · exact absurd h nofun
        · rename_i henough
          refine ⟨?_, ⟨limit, hlimit, hreserve⟩, fee, hfee, henough⟩
          simp only [if_neg hreserve, if_neg henough]

/-! ### Looking an account up once more -/

end TransactionFrm

theorem passesOver_zero (e : Environments) (a : Address) : e.passesOver 0 a = false := by
  simp [passesOver]

def LedgerContext.withAccounts (s : LedgerContext) (L : ℕ → Overlay Address AccountFrm) : LedgerContext :=
  { s with envs := { s.envs with accounts := L } }

variable {a : Address} {w : World}

@[simp] theorem LedgerContext.withAccounts_accounts (s : LedgerContext) (L : ℕ → Overlay Address AccountFrm) :
    (s.withAccounts L).envs.accounts = L := rfl

@[simp] theorem LedgerContext.withAccounts_withAccounts (s : LedgerContext) (L L' : ℕ → Overlay Address AccountFrm) :
    (s.withAccounts L).withAccounts L' = s.withAccounts L' := rfl

theorem getEntry_run {s : LedgerContext} : getEntry w 0 a s = some (near w.db.accountFromDB s.envs.accounts 0 a,
      s.withAccounts (hold s.envs.accounts 1 a (near w.db.accountFromDB s.envs.accounts 0 a))) := by
  have henvs : (s.envs.getEntry w.db 0 a).2 =
      ⟨hold s.envs.accounts 1 a (near w.db.accountFromDB s.envs.accounts 0 a), s.envs.settings⟩ := by
    rw [← getEntry_accounts]
    rfl
  simp only [getEntry, passesOver_zero, Bool.or_false, getEntry_fst, henvs]
  rfl

variable {frm : AccountFrm} {d : ℕ}

theorem alterEntry_run {f : AccountFrm → AccountFrm} {s : LedgerContext}
    (h : s.envs.accounts (d + 1) a = some (some frm)) :
    alterEntry d a f s = some ((), s.withAccounts (Overlay.record s.envs.accounts (d + 1) a (some (f frm)))) := by
  have henvs : s.envs.alterEntry d a f = ⟨Overlay.record s.envs.accounts (d + 1) a (some (f frm)), s.envs.settings⟩ := by
    have haccounts := s.envs.alterEntry_accounts (d := d) a f
    rw [h] at haccounts
    rw [← Overlay.hold_some, ← show (some (some frm)).join.map f = some (f frm) from rfl, ← haccounts]
    rfl
  rw [alterEntry, henvs]
  rfl

variable {s t : LedgerContext}

theorem getEntry_held (h : getEntry w d a s = some (some frm, t)) : t.envs.accounts (d + 1) a = some (some frm) := by
  obtain ⟨hr, rfl⟩ := Prod.mk.inj (some.inj h)
  rw [getEntry_fst] at hr
  change (s.envs.getEntry w.db d a).2.accounts (d + 1) a = _
  rw [getEntry_accounts, hr, hold_some, record_self]

theorem getEntry_of_held {s : LedgerContext}
    (h : s.envs.accounts (d + 1) a = some (some frm)) : getEntry w d a s = some (some frm, s) := by
  have hnear : near w.db.accountFromDB s.envs.accounts d a = some frm := by simp [near, h]
  have hval : s.envs.getEntry w.db d a = (some frm, s.envs) := by
    simp [Environments.getEntry, getValue, ofLayers, toLayers, h]
  simp [getEntry, hval, Environments.passesOver, h]

theorem getEntry_again (h : getEntry w d a s = some (some frm, t)) : getEntry w d a t = some (some frm, t) :=
  getEntry_of_held (getEntry_held h)

theorem environmentOf_run {i d : ℕ} {s : LedgerContext} (h : (s.txs i).environment = some d) :
    environmentOf i s = some (d, s) := by
  refine bind_run rfl ?_
  rw [h]
  rfl

variable {totalFee totalFee' : Int64} {checkPriv : Bool} {i : ℕ} {late : Bool}

namespace TransactionFrm
variable {w : World}

theorem validForApply_ok (h : validForApply w env checkPriv s = some ((true, r), t)) :
    r = {} ∧ (validForParameter w env 0 {}).1 = true ∧
      ∃ source, getEntry w 0 env.transaction.sourceAddress s = some (some source, t) ∧
        source.nonce + 1 = env.transaction.nonce ∧
        (checkPriv = true → signerHashPriv (w.validSignature env) source (.other (-1)) = true) ∧
        (checkFee w env source {}).1 = true := by
  have hclean := validForParameter_result w env 0
  unfold validForApply at h
  rcases hv : validForParameter w env 0 {} with ⟨ok, r₀⟩
  rw [hv] at h hclean
  cases ok with
  | false => exact absurd (of_pure h).1 (by simp)
  | true =>
    obtain rfl : r₀ = {} := hclean rfl
    obtain ⟨found, u, hfound, h⟩ := of_bind h
    cases found with
    | none => exact absurd (of_pure h).1 (by simp)
    | some source =>
      dsimp only at h
      split at h
      · exact absurd (of_pure h).1 (by simp)
      · rename_i hnonce
        split at h
        · exact absurd (of_pure h).1 (by simp)
        · rename_i hpriv
          obtain ⟨hfee, rfl⟩ := of_pure h
          have hok : (checkFee w env source {}).1 = true := by rw [hfee]
          refine ⟨?_, rfl, source, hfound, by simpa using hnonce, ?_, hok⟩
          · rw [← (checkFee_ok w hok).1, hfee]
          · intro hcheck
            simpa [hcheck] using hpriv

theorem validForApply_cases {x : Bool × Result} (h : validForApply w env checkPriv s = some (x, t)) :
    t = s ∨ ∃ r, getEntry w 0 env.transaction.sourceAddress s = some (r, t) := by
  unfold validForApply at h
  dsimp only at h
  split at h
  · cases h
    exact .inl rfl
  · obtain ⟨found, u, hfound, h⟩ := of_bind h
    obtain rfl : u = t := by
      cases found with
      | none => exact (of_pure h).2
      | some source =>
        dsimp only at h
        split at h
        · exact (of_pure h).2
        · split at h <;> exact (of_pure h).2
    exact .inr ⟨found, hfound⟩

theorem payFee_ok (h : payFee w env totalFee s = some ((none, totalFee'), t)) :
    ∃ source u newBalance, getEntry w 0 env.transaction.sourceAddress s = some (some source, u) ∧
      safeIntAdd totalFee env.transaction.feeLimit = some totalFee' ∧
      safeIntSub source.balance env.transaction.feeLimit = some newBalance ∧
      alterEntry 0 env.transaction.sourceAddress (AccountFrm.setBalance newBalance) u = some ((), t) := by
  obtain ⟨found, u, hfound, h⟩ := of_bind h
  cases found with
  | none => exact absurd (of_pure h).1 (by simp)
  | some source =>
    rcases htotal : safeIntAdd totalFee env.transaction.feeLimit with - | newTotalFee
    · simp only [htotal] at h
      exact absurd (of_pure h).1 (by simp)
    · rcases hbalance : safeIntSub source.balance env.transaction.feeLimit with - | newBalance
      · simp only [htotal, hbalance] at h
        exact absurd (of_pure h).1 (by simp)
      · simp only [htotal, hbalance] at h
        obtain ⟨_, v, hv, h⟩ := of_bind h
        obtain ⟨heq, rfl⟩ := of_pure h
        cases heq
        exact ⟨source, u, newBalance, hfound, rfl, hbalance, hv⟩

theorem payFee_of_found {totalFee : Int64} {source : AccountFrm}
    (h : getEntry w 0 env.transaction.sourceAddress s = some (some source, t)) :
    payFee w env totalFee t = payFee w env totalFee s :=
  bind_congr_run ((getEntry_again h).trans h.symm)

theorem payFee_error {e : ErrorCode} {s s₁ s₂ : LedgerContext}
    (hvalid : validForApply w env checkPriv s = some ((true, r), s₁))
    (hpay : payFee w env totalFee s₁ = some ((some e, totalFee'), s₂)) :
    s₂ = s₁ ∧ totalFee' = totalFee := by
  obtain ⟨-, -, source, hfound, -, -, hfee⟩ := validForApply_ok hvalid
  obtain ⟨-, ⟨limit, hlimit, -⟩, -⟩ := checkFee_ok w hfee
  obtain ⟨found, u, hfound', hpay₁⟩ := of_bind hpay
  rw [getEntry_again hfound] at hfound'
  cases hfound'
  dsimp only at hpay₁
  rcases hsum : safeIntAdd totalFee env.transaction.feeLimit with - | newTotalFee
  · rw [hsum] at hpay₁
    obtain ⟨heq, rfl⟩ := of_pure hpay₁
    exact ⟨rfl, (Prod.mk.inj heq).2.symm⟩
  · rw [hsum, hlimit] at hpay₁
    obtain ⟨_, v, -, hpay₂⟩ := of_bind hpay₁
    exact absurd (Prod.mk.inj (of_pure hpay₂).1).1 nofun

theorem markExpired_of_overLimit {t : TransactionFrm} (h : t.overLimit late = none) : t.markExpired late = t := by
  rw [markExpired, h]

theorem isExpire_false (h : isExpire i late s = some (false, t)) : t = s := by
  obtain ⟨hover, rfl⟩ := Prod.mk.inj (some.inj h)
  rw [markExpired_of_overLimit (by simpa using hover), Function.update_eq_self]

theorem nonceIncrease_quiet {i d : ℕ} (h : nonceIncrease w i d s = some ((), t)) :
    t.transactionStack = s.transactionStack ∧ t.trace.tripped = s.trace.tripped := by
  obtain ⟨a, s₁, ha, h⟩ := of_bind h
  obtain ⟨-, rfl⟩ := Prod.mk.inj (some.inj ha)
  obtain ⟨found, u, hfound, h⟩ := of_bind h
  obtain ⟨-, rfl⟩ := Prod.mk.inj (some.inj hfound)
  cases found <;> obtain ⟨-, rfl⟩ := Prod.mk.inj (some.inj h) <;> exact ⟨rfl, rfl⟩

theorem nonceIncrease_run {s : LedgerContext}
    (h : s.envs.accounts 1 (s.txs i).transactionEnv.transaction.sourceAddress = some (some frm)) :
    nonceIncrease w i 0 s = some ((),
      { s.withAccounts (Overlay.record s.envs.accounts 1 (s.txs i).transactionEnv.transaction.sourceAddress
          (some frm.nonceIncrease)) with
        trace := { s.trace with wrapped := s.trace.wrapped || frm.nonce == 9223372036854775807 } }) := by
  refine bind_run rfl (bind_run (getEntry_of_held h) ?_)
  have halter := alterEntry_run (f := AccountFrm.nonceIncrease) h
  obtain ⟨-, halter⟩ := Prod.mk.inj (some.inj halter)
  have henvs : s.envs.alterEntry 0 (s.txs i).transactionEnv.transaction.sourceAddress AccountFrm.nonceIncrease = _ :=
    congrArg LedgerContext.envs halter
  change OpenSesame.nonceIncrease 0 (s.txs i).transactionEnv.transaction.sourceAddress s = _
  simp only [OpenSesame.nonceIncrease, henvs, h]
  rfl

end TransactionFrm

variable {l : List TransactionEnv}

namespace LedgerFrm
variable {w : World}

/-! ### The frame around a top transaction -/

/-- The account of the source once the fee is paid and the nonce increased. -/
def charge (newBalance : Int64) (source : AccountFrm) : AccountFrm := (source.setBalance newBalance).nonceIncrease

def charged (env : TransactionEnv) (source : AccountFrm) (newBalance : Int64) (s : LedgerContext) : LedgerContext :=
  { s with
    envs :=
      { accounts := Overlay.fold (Overlay.record s.envs.accounts 1 env.transaction.sourceAddress
          (some (charge newBalance source))) 0
        settings := Overlay.fold s.envs.settings 0 }
    txs := Function.update s.txs s.next { transactionEnv := env }
    next := s.next + 1
    transactionStack := s.next :: s.transactionStack
    trace := { s.trace with wrapped := s.trace.wrapped || source.nonce == 9223372036854775807 } }

@[simp] theorem charged_accounts (env : TransactionEnv) (source : AccountFrm) (newBalance : Int64) (s : LedgerContext) :
    (charged env source newBalance s).envs.accounts = Overlay.fold (Overlay.record s.envs.accounts 1
      env.transaction.sourceAddress (some (charge newBalance source))) 0 := rfl

theorem charged_of_pay {totalFee fee : Int64} {s s₂ u : LedgerContext}
    (hpay : TransactionFrm.payFee w env totalFee s = some ((none, fee), s₂))
    (henter : enter w env {} s₂ = some (i, u)) :
    ∃ source newBalance, AtomMap.near w.db.accountFromDB s.envs.accounts 0 env.transaction.sourceAddress = some source ∧
      SafeInt.safeIntAdd totalFee env.transaction.feeLimit = some fee ∧
      SafeInt.safeIntSub source.balance env.transaction.feeLimit = some newBalance ∧
      i = s.next ∧ u = charged env source newBalance s := by
  obtain ⟨source, v, newBalance, hfound, hfee, hbalance, halter⟩ := TransactionFrm.payFee_ok hpay
  rw [getEntry_run] at hfound
  obtain ⟨hnear, rfl⟩ := Prod.mk.inj (some.inj hfound)
  rw [hnear, Overlay.hold_some] at halter
  rw [alterEntry_run (show _ = some (some source) by simp)] at halter
  cases halter
  obtain ⟨j, x, hpush, henter₁⟩ := of_bind henter
  cases hpush
  obtain ⟨_, y, hnonce, henter₂⟩ := of_bind henter₁
  rw [TransactionFrm.nonceIncrease_run (show _ = some (some (source.setBalance newBalance)) by simp)] at hnonce
  cases hnonce
  obtain ⟨_, z, hcommit, henter₃⟩ := of_bind henter₂
  cases hcommit
  cases henter₃
  refine ⟨source, newBalance, hnear, hfee, hbalance, rfl, ?_⟩
  simp only [LedgerContext.withAccounts_accounts, Overlay.record_record, Function.update_self]
  simp [charged, charge, LedgerContext.withAccounts, Environments.commit, AtomMap.toLayers_commit]
  rfl

theorem charged_of_enter {totalFee fee : Int64} {s s₁ s₂ u : LedgerContext}
    (hvalid : validForApply w env checkPriv s = some ((true, r), s₁))
    (hpay : payFee w env totalFee s₁ = some ((none, fee), s₂))
    (henter : enter w env r s₂ = some (i, u)) :
    ∃ source newBalance, near w.db.accountFromDB s.envs.accounts 0 env.transaction.sourceAddress = some source ∧
      safeIntAdd totalFee env.transaction.feeLimit = some fee ∧
      safeIntSub source.balance env.transaction.feeLimit = some newBalance ∧
      i = s.next ∧ u = charged env source newBalance s := by
  obtain ⟨rfl, -, source, hfound, -⟩ := validForApply_ok hvalid
  rw [payFee_of_found hfound] at hpay
  exact charged_of_pay hpay henter

theorem enter_quiet (h : enter w env r s = some (i, t)) :
    t.transactionStack = i :: s.transactionStack ∧ t.trace.tripped = s.trace.tripped := by
  obtain ⟨j, u, hpush, h⟩ := of_bind h
  cases hpush
  obtain ⟨_, v, hnonce, h⟩ := of_bind h
  obtain ⟨_, x, hcommit, h⟩ := of_bind h
  cases hcommit
  cases h
  exact nonceIncrease_quiet hnonce

/-- The environments of a block between two transactions: only the `stor_` holds anything. -/
def between (e : Environments) : Environments where
  accounts j := if j = 0 then e.accounts 0 else empty
  settings j := if j = 0 then e.settings 0 else empty

theorem clearBlock_envs (e : Environments) :
    ({ accounts := fun j => if j ≤ 1 then (e.clearChangeBuf 0).accounts j else empty
       settings := fun j => if j ≤ 1 then (e.clearChangeBuf 0).settings j else empty } : Environments) =
      between e := by
  have layer {K V : Type} (L : ℕ → Overlay K V) (j : ℕ) :
      (if j ≤ 1 then wipe L 1 j else empty) = if j = 0 then L 0 else empty := by
    rcases j with - | - | j
    · rfl
    · rfl
    · rfl
  simp only [clearChangeBuf_accounts, clearChangeBuf_settings, between, layer]

def afterLeave (s : LedgerContext) : LedgerContext :=
  let t := { s with envs := between s.envs, transactionStack := s.transactionStack.tail }
  if t.transactionStack = [] then { t with txs := fun _ => .blank, next := 0 } else t

theorem afterLeave_stack (s : LedgerContext) : (afterLeave s).transactionStack = s.transactionStack.tail := by
  unfold afterLeave
  dsimp only
  split <;> rfl

theorem afterLeave_envs (s : LedgerContext) : (afterLeave s).envs = between s.envs := by
  unfold afterLeave
  dsimp only
  split <;> rfl

theorem afterLeave_trace (s : LedgerContext) : (afterLeave s).trace = s.trace := by
  unfold afterLeave
  dsimp only
  split <;> rfl

theorem leave_eq_some : leave s = some ((), t) ↔ s.transactionStack ≠ [] ∧ t = afterLeave s := by
  have hrun : leave s = if s.transactionStack = [] then none else some ((), afterLeave s) := by
    change (popTx _).bind _ = _
    rw [clearBlock_envs, popTx]
    split
    · rfl
    · rfl
  rw [hrun]
  split
  · simp_all
  · rename_i hs
    simp [hs, eq_comm (a := t)]

theorem enforced_eq_some {fuel i : ℕ} {v : Verdict} (h : enforced w fuel late i totalFee s = some ((v, totalFee'), t)) :
    ∃ ret x expired y, applyTop w fuel i
        { s with txs := Function.update s.txs i { s.txs i with enableCheck := true } } = some (ret, x) ∧
      isExpire i late x = some (expired, y) ∧
      (expired = true ∧ v = .expired ∧ totalFee' = totalFee ∧ t = y ∨
        expired = false ∧ ret = false ∧ v = .failed ∧ totalFee' = totalFee ∧ t = x ∨
        expired = false ∧ ret = true ∧ v = .applied ∧ settleTop w i totalFee x = some (totalFee', t)) := by
  obtain ⟨_, s₁, h₁, h₂⟩ := of_bind h
  cases h₁
  obtain ⟨ret, x, happly, h₃⟩ := of_bind h₂
  obtain ⟨expired, y, hexpire, h₄⟩ := of_bind h₃
  refine ⟨ret, x, expired, y, happly, hexpire, ?_⟩
  cases expired with
  | true =>
    obtain ⟨heq, rfl⟩ := of_pure h₄
    cases heq
    exact .inl ⟨rfl, rfl, rfl, rfl⟩
  | false =>
    have hxy : y = x := isExpire_false hexpire
    cases ret with
    | false =>
      obtain ⟨heq, rfl⟩ := of_pure h₄
      cases heq
      exact .inr (.inl ⟨rfl, rfl, rfl, rfl, hxy⟩)
    | true =>
      obtain ⟨fee, z, hsettle, h₅⟩ := of_bind h₄
      obtain ⟨heq, rfl⟩ := of_pure h₅
      cases heq
      exact .inr (.inr ⟨rfl, rfl, rfl, hxy ▸ hsettle⟩)

theorem between_congr {e e' : Environments} (ha : e'.accounts 0 = e.accounts 0)
    (hs : e'.settings 0 = e.settings 0) : between e' = between e := by
  simp only [between, ha, hs]

theorem transaction_eq_some {body : ℕ → LedgerM (Verdict × Int64)} {tx : AppliedTx} {totalFee : Int64} :
    transaction w env r body s = some ((tx, totalFee), t) ↔
      ∃ i u v x, enter w env r s = some (i, u) ∧ body i u = some ((v, totalFee), x) ∧ leave x = some ((), t) ∧
        tx = ⟨x.txs i, v, t.trace.tripped - s.trace.tripped, t.transactionStack.length⟩ := by
  constructor
  · intro h
    obtain ⟨_, s₁, h₁, h⟩ := of_bind h
    cases h₁
    obtain ⟨i, u, henter, h⟩ := of_bind h
    obtain ⟨⟨v, fee⟩, x, hbody, h⟩ := of_bind h
    obtain ⟨frm, x₁, h₂, h⟩ := of_bind h
    cases h₂
    obtain ⟨_, t₁, hleave, h⟩ := of_bind h
    obtain ⟨_, t₂, h₃, h⟩ := of_bind h
    cases h₃
    obtain ⟨heq, rfl⟩ := of_pure h
    cases heq
    exact ⟨i, u, v, x, henter, hbody, hleave, rfl⟩
  · rintro ⟨i, u, v, x, henter, hbody, hleave, rfl⟩
    exact bind_run rfl (bind_run henter (bind_run hbody (bind_run rfl (bind_run hleave (bind_run rfl rfl)))))

/-! ### The loop of a check -/

variable {fuel : ℕ} {clock : Clock}

theorem checkLoop_cons {position : ℕ} {b b' : Block} :
    checkLoop w fuel clock position (env :: l) b s = some (some b', t) ↔ ∃ r s₁ fee s₂ tx fee' s₃,
        validForApply w env (!s.isTestMode) s = some ((true, r), s₁) ∧
        payFee w env b.totalFee s₁ = some ((none, fee), s₂) ∧
        transaction w env r (fun i => enforced w fuel (clock.txLate b.applyTxFrms.length) i fee) s₂ =
          some ((tx, fee'), s₃) ∧
        clock.blockLate b.applyTxFrms.length = false ∧
        checkLoop w fuel clock (position + 1) l ({ b with totalFee := fee' }.note position tx) s₃ =
          some (some b', t) := by
  constructor
  · intro h
    obtain ⟨_, s₀, hask, h₁⟩ := of_bind h
    cases hask
    obtain ⟨⟨valid, r⟩, s₁, hvalid, h₂⟩ := of_bind h₁
    cases valid with
    | false => exact absurd (of_pure h₂).1 nofun
    | true =>
      obtain ⟨⟨error, fee⟩, s₂, hpay, h₃⟩ := of_bind h₂
      cases error with
      | some _ => exact absurd (of_pure h₃).1 nofun
      | none =>
        obtain ⟨⟨tx, fee'⟩, s₃, htx, h₄⟩ := of_bind h₃
        rcases hlate : clock.blockLate b.applyTxFrms.length with - | -
        · simp only [hlate] at h₄
          exact ⟨r, s₁, fee, s₂, tx, fee', s₃, hvalid, hpay, htx, rfl, h₄⟩
        · simp only [hlate] at h₄
          exact absurd (of_pure h₄).1 nofun
  · rintro ⟨r, s₁, fee, s₂, tx, fee', s₃, hvalid, hpay, htx, hlate, h⟩
    refine bind_run rfl (bind_run hvalid (bind_run hpay (bind_run htx ?_)))
    simp only [hlate]
    exact h

theorem applyCheck_eq_some {request : ConsensusValue} {b : Block}
    (h : applyCheck w fuel clock request s = some (some b, t)) :
    ∃ paid u, checkConsValueValidation request = some (b.expireTxs, b.errorTxs) ∧
      checkLoop w fuel clock 0 request.txset {} s = some (some b, u) ∧
      allocateReward w b.totalFee u = some (paid, t) := by
  unfold applyCheck at h
  rcases hids : checkConsValueValidation request with - | ⟨expireTxs, errorTxs⟩
  · simp only [hids] at h
    exact absurd (of_pure h).1 nofun
  · simp only [hids] at h
    obtain ⟨checked, u, hloop, h₁⟩ := of_bind h
    cases checked with
    | none => exact absurd (of_pure h₁).1 nofun
    | some b₁ =>
      obtain ⟨paid, v, hreward, h₂⟩ := of_bind h₁
      split at h₂
      · rename_i hset
        obtain ⟨heq, rfl⟩ := of_pure h₂
        cases heq
        exact ⟨paid, u, by rw [hset.1, hset.2], hloop, hreward⟩
      · exact absurd (of_pure h₂).1 nofun

theorem proposeLoop_cons {position : ℕ} {b b' : Block} (h : proposeLoop w fuel clock position (env :: l) b s = some (some b', t)) :
    ∃ valid r s₁, validForApply w env (!s.isTestMode) s = some ((valid, r), s₁) ∧
      (valid = false ∧ proposeLoop w fuel clock (position + 1) l (b.drop position) s₁ = some (some b', t) ∨
        valid = true ∧ ∃ error fee s₂, payFee w env b.totalFee s₁ = some ((error, fee), s₂) ∧ (error ≠ none ∧
              proposeLoop w fuel clock (position + 1) l ({ b with totalFee := fee }.drop position) s₂ =
                some (some b', t) ∨
            error = none ∧ ∃ tx fee' s₃,
              transaction w env r (fun i => enforced w fuel (clock.txLate b.applyTxFrms.length) i fee) s₂ =
                some ((tx, fee'), s₃) ∧
              proposeLoop w fuel clock (position + 1) l
                ({ b with totalFee := fee' }.note (position - b.needDroppedTx.length) tx) s₃ = some (some b', t))) := by
  obtain ⟨_, s₀, hask, h₁⟩ := of_bind h
  cases hask
  obtain ⟨⟨valid, r⟩, s₁, hvalid, h₂⟩ := of_bind h₁
  refine ⟨valid, r, s₁, hvalid, ?_⟩
  cases valid with
  | false => exact .inl ⟨rfl, h₂⟩
  | true =>
    obtain ⟨⟨error, fee⟩, s₂, hpay, h₃⟩ := of_bind h₂
    refine .inr ⟨rfl, error, fee, s₂, hpay, ?_⟩
    cases error with
    | some _ => exact .inl ⟨nofun, h₃⟩
    | none =>
      obtain ⟨⟨tx, fee'⟩, s₃, htx, h₄⟩ := of_bind h₃
      rcases hlate : clock.blockLate b.applyTxFrms.length with - | -
      · simp only [hlate] at h₄
        exact .inr ⟨rfl, tx, fee', s₃, htx, h₄⟩
      · simp only [hlate] at h₄
        exact absurd (of_pure h₄).1 nofun

theorem allocateReward_eq_some {totalFee : Int64} {r : Bool} (h : allocateReward w totalFee s = some (r, t)) :
    (totalFee + General.getBlockReward s.ledgerSeq == 0 || s.isTestMode) = true ∧ t = s ∨
      (totalFee + General.getBlockReward s.ledgerSeq == 0 || s.isTestMode) = false ∧
        ∃ paid v, payReward w s.ledgerSeq (totalFee + General.getBlockReward s.ledgerSeq) s = some (paid, v) ∧
          (paid = false ∧ t = v ∨ paid = true ∧ t = { v with envs := v.envs.commit 0 }) := by
  obtain ⟨ledger, u, hask, h₁⟩ := of_bind h
  cases hask
  dsimp only at h₁
  split at h₁
  · rename_i hnone
    cases h₁
    exact .inl ⟨hnone, rfl⟩
  · rename_i hsome
    obtain ⟨paid, v, hpaid, h₂⟩ := of_bind h₁
    refine .inr ⟨by simpa using hsome, paid, v, hpaid, ?_⟩
    cases paid with
    | false =>
      cases h₂
      exact .inl ⟨rfl, rfl⟩
    | true =>
      obtain ⟨_, x, hcommit, h₃⟩ := of_bind h₂
      cases hcommit
      cases h₃
      exact .inr ⟨rfl, rfl⟩

end LedgerFrm

theorem mem_insertId {x y : ℕ} {l : List ℕ} : y ∈ insertId x l ↔ y = x ∨ y ∈ l := by
  induction l with
  | nil => simp [insertId]
  | cons z l ih =>
    unfold insertId
    split
    · simp
    · split
      · rename_i hxz
        simp [hxz]
      · simp [ih, or_left_comm]

theorem insertId_of_lt {x : ℕ} {l : List ℕ} (h : ∀ y ∈ l, y < x) : insertId x l = l ++ [x] := by
  induction l with
  | nil => rfl
  | cons z l ih =>
    obtain ⟨hz, hl⟩ := List.forall_mem_cons.mp h
    rw [insertId, if_neg (by omega), if_neg (by omega), ih hl, List.cons_append]

namespace Block

theorem mem_expireTxs_note {position q : ℕ} {tx : AppliedTx} {b : Block} :
    q ∈ (b.note position tx).expireTxs ↔ q = position ∧ tx.verdict = .expired ∨ q ∈ b.expireTxs := by
  by_cases hv : tx.verdict = .expired
  · simp [note, hv, mem_insertId]
  · simp [note, hv]

/-- The verdicts on the transactions, in the order they were applied. -/
def verdicts (b : Block) : List Verdict := b.applyTxFrms.map AppliedTx.verdict

/-- The same transaction, with the same result. -/
structure Alike (tx' tx : AppliedTx) : Prop where
  env : tx'.frm.transactionEnv = tx.frm.transactionEnv
  verdict : tx'.verdict = tx.verdict
  code : tx'.frm.result.code = tx.frm.result.code
  position : tx'.frm.processingOperation = tx.frm.processingOperation

structure Agree (c b : Block) : Prop where
  totalFee : c.totalFee = b.totalFee
  expireTxs : c.expireTxs = b.expireTxs
  errorTxs : c.errorTxs = b.errorTxs
  verdicts : c.verdicts = b.verdicts
  overflows : ∀ tx' ∈ c.applyTxFrms, tx'.frm.result.code = .mathOverflow → ∃ tx ∈ b.applyTxFrms, Alike tx' tx

theorem Agree.refl (b : Block) : Agree b b :=
  ⟨rfl, rfl, rfl, rfl, fun tx htx _ => ⟨tx, htx, rfl, rfl, rfl, rfl⟩⟩

theorem Agree.note {c b : Block} (h : Agree c b) {tx' tx : AppliedTx} (hv : tx'.verdict = tx.verdict)
    (ha : tx'.frm.result.code = .mathOverflow → Alike tx' tx) (position : ℕ) (fee : Int64) :
    Agree ({ c with totalFee := fee }.note position tx') ({ b with totalFee := fee }.note position tx) where
  totalFee := rfl
  expireTxs := by simp only [Block.note, hv, h.expireTxs]
  errorTxs := by simp only [Block.note, hv, h.errorTxs]
  verdicts := by
    have hverdicts : c.verdicts ++ [tx'.verdict] = b.verdicts ++ [tx.verdict] := by rw [hv, h.verdicts]
    simpa [Block.verdicts, Block.note] using hverdicts
  overflows := by
    refine List.forall_mem_append.mpr ⟨fun x hx hcode => ?_, List.forall_mem_singleton.mpr fun hcode => ?_⟩
    · obtain ⟨y, hy, hxy⟩ := h.overflows x hx hcode
      exact ⟨y, List.mem_append_left _ hy, hxy⟩
    · exact ⟨tx, List.mem_append_right _ (List.mem_singleton_self tx), ha hcode⟩

end Block

theorem LedgerFrm.checkLoop_grows {fuel : ℕ} {clock : Clock} : ∀ {position : ℕ} {b b' : Block} {s t : LedgerContext},
      LedgerFrm.checkLoop w fuel clock position l b s = some (some b', t) →
        b.applyTxFrms <+: b'.applyTxFrms ∧ ∀ q < position, q ∈ b'.expireTxs ↔ q ∈ b.expireTxs := by
  induction l with
  | nil =>
    intro position b b' s t h
    obtain ⟨heq, -⟩ := of_pure h
    cases heq
    exact ⟨List.prefix_refl _, fun _ _ => Iff.rfl⟩
  | cons env l ih =>
    intro position b b' s t h
    obtain ⟨r, s₁, fee, s₂, tx, fee', s₃, -, -, -, -, hrest⟩ := LedgerFrm.checkLoop_cons.mp h
    obtain ⟨happlied, hexpired⟩ := ih hrest
    refine ⟨(List.prefix_append _ [tx]).trans happlied, fun q hq => ?_⟩
    rw [hexpired q (by omega), Block.mem_expireTxs_note]
    have hne : q ≠ position := hq.ne
    simp [hne]

/-- A ledger of version 1003 with one validator, free of base reserves, in which every address and every signature
is valid. -/
def smallWorld (db : AccountDb) (engine : Engine) : World where
  version := 1003
  seq := 1
  fees := ⟨1, 0⟩
  validators := [⟨"v", 0⟩]
  previousValidators := some [⟨"v", 0⟩]
  db := db
  forbidAddrs := []
  byteSize _ := 10
  contentHash _ := ""
  validSignature _ _ := true
  isAddressValid _ := true
  encAddress s := s
  jslint _ := none
  engine := engine

/-- The privileges of an account that signs for itself. -/
def ownPriv : AccountPrivilege := { masterWeight := 1, thresholds := some { txThreshold := 1 } }

/-- The accounts of a list, with no assets and no metadata. -/
def smallDb (accounts : List Account) : AccountDb where
  account a := accounts.find? fun x => x.address == a
  asset _ _ := none
  metadata _ _ := none

def idleEngine : Engine where
  State := Unit
  boot _ _ := ()
  next _ := .finish (.returned (.bool true))

def earlyClock : Clock := ⟨fun _ => false, fun _ => false⟩

/-- What a run ends with: the fee of the block, and the balance of an account. -/
def feeAndBalance (a : Address) (r : Option (Option Block × LedgerContext)) : Option (Int64 × Option Int64) :=
  match r with
  | some (some b, s) => some (b.totalFee, (s.envs.accounts 0 a).join.map AccountFrm.balance)
  | _ => none

end OpenSesame
