import OpenSesame.Theorems.Ledger.Course

/-! # Blocks without scripts follow their course

The functions that apply a block refine the paths of `Course`: what a transaction does to the books is its path, as
long as no operation of it meets a script. -/

namespace OpenSesame
open Protocol StateOption OperationFrm TransactionFrm SafeInt Option

variable {l : List Operation}

namespace TransactionFrm
variable {w : World}

theorem checkOperations_ok {tran : Transaction} {n : ℕ} : ∀ {i : ℕ} {r : Result},
    (checkOperations w tran n i l r).1 = true →
      ∀ op ∈ l, (checkValid w op (sourceAddress tran op) n).code = .success := by
  induction l with
  | nil =>
    intro i r _ op hop
    cases hop
  | cons op l ih =>
    intro i r h
    unfold checkOperations at h
    dsimp only at h
    split at h
    · cases h
    split at h
    · cases h
    split at h
    · cases h
    rename_i hcode
    exact List.forall_mem_cons.mpr ⟨by simpa using hcode, ih h⟩

structure Checked (w : World) (env : TransactionEnv) : Prop where
  size : w.byteSize env < General.transactionLimitSize
  length : env.transaction.operations.length ≤ General.maxOperationsNumPerTransaction
  feeLimit : ¬env.transaction.feeLimit < 0
  gasPrice : ¬env.transaction.gasPrice < max 0 w.fees.gasPrice
  operations : ∀ op ∈ env.transaction.operations, (checkValid w op (sourceAddress env.transaction op) 0).code = .success

theorem validForParameter_ok {env : TransactionEnv} (h : (validForParameter w env 0 {}).1 = true) :
    Checked w env := by
  unfold validForParameter at h
  dsimp only at h
  split at h
  · cases h
  · rename_i hnone
    rw [List.find?_eq_none] at hnone
    simp only [List.forall_mem_cons] at hnone
    obtain ⟨hsize, -, hlength, -, -, -, hfee, hprice, -⟩ := hnone
    exact {
      size := by simpa using hsize
      length := by simpa using hlength
      feeLimit := by simpa using hfee
      gasPrice := by simpa using hprice
      operations := checkOperations_ok h }

theorem Checked.gasPrice_nonneg {env : TransactionEnv} (h : Checked w env) : 0 ≤ env.transaction.gasPrice.toInt := by
  have hprice := h.gasPrice
  have hmax : 0 ≤ (max 0 w.fees.gasPrice).toInt := by
    change 0 ≤ (if 0 ≤ w.fees.gasPrice then w.fees.gasPrice else 0).toInt
    split
    · rename_i hpositive
      exact Int64.le_iff_toInt_le.mp hpositive
    · decide
  rw [Int64.lt_iff_toInt_lt] at hprice
  omega

end TransactionFrm

/-- Between two states of the run of transaction `i` nothing has changed but the accounts, the transaction itself and
what is noted. -/
structure Beside (i : ℕ) (s t : LedgerContext) : Prop where
  stack : t.transactionStack = s.transactionStack
  ledgerSeq : t.ledgerSeq = s.ledgerSeq
  isTestMode : t.isTestMode = s.isTestMode
  tripped : t.trace.tripped = s.trace.tripped
  env : (t.txs i).transactionEnv = (s.txs i).transactionEnv

namespace Beside
variable {i : ℕ} {s t u : LedgerContext}

theorem refl : Beside i s s := ⟨rfl, rfl, rfl, rfl, rfl⟩

theorem trans (h : Beside i s t) (h' : Beside i t u) : Beside i s u where
  stack := h'.stack.trans h.stack
  ledgerSeq := h'.ledgerSeq.trans h.ledgerSeq
  isTestMode := h'.isTestMode.trans h.isTestMode
  tripped := h'.tripped.trans h.tripped
  env := h'.env.trans h.env

end Beside

structure Alters (i : ℕ) (f : TransactionFrm → TransactionFrm) (s t : LedgerContext) : Prop where
  beside : Beside i s t
  envs : t.envs = s.envs
  tx : t.txs i = f (s.txs i)

variable {s t : LedgerContext}

theorem alterTx_alters {i : ℕ} {f : TransactionFrm → TransactionFrm} {x : Unit}
    (h : alterTx i f s = some (x, t)) (hf : ∀ x, (f x).transactionEnv = x.transactionEnv) : Alters i f s t := by
  cases h
  exact ⟨⟨rfl, rfl, rfl, rfl, by simp [hf]⟩, rfl, by simp⟩

theorem alterResult_alters {i : ℕ} {f : Result → Result} {x : Unit}
    (h : alterResult i f s = some (x, t)) : Alters i (fun y => { y with result := f y.result }) s t :=
  alterTx_alters h fun _ => rfl

theorem Alters.seen_eq {i : ℕ} {f : TransactionFrm → TransactionFrm} (h : Alters i f s t)
    (w : World) : seen w t = seen w s :=
  seen_congr (by rw [h.envs])

section Writes
variable {w : World} {s t : LedgerContext} {V : Store}

theorem Writes.txs (h : Writes w s t V) : t.txs = s.txs := by
  rw [h.frame]
  rfl

theorem Writes.beside (h : Writes w s t V) (i : ℕ) : Beside i s t where
  stack := by
    rw [h.frame]
    rfl
  ledgerSeq := by
    rw [h.frame]
    rfl
  isTestMode := by
    rw [h.frame]
    rfl
  tripped := h.tripped
  env := by rw [h.txs]

end Writes

/-! ### The operations of a transaction -/

section Run
variable {w : World} {execute : ContractParameter → LedgerM Result} {env : TransactionEnv} {i : ℕ} {r : Result}
  {s t : LedgerContext}

theorem checkSignature_leads {op : Operation} (h : checkSignature w env 0 op s = some (r, t)) :
    Writes w s t (seen w s) ∧ r.code ≠ .mathOverflow ∧ (r.code = .success →
        ∃ x, seen w s (sourceAddress env.transaction op) = some x ∧ Signed w env op.type x) := by
  obtain ⟨found, s₁, hfound, h⟩ := of_bind h
  obtain ⟨hw, hsource, -⟩ := getEntry_writes hfound
  cases found with
  | none =>
    cases h
    exact ⟨hw, nofun, nofun⟩
  | some src =>
    dsimp only at h
    split at h
    · cases h
      exact ⟨hw, nofun, nofun⟩
    · rename_i hsigned
      cases h
      have hreached : signerHashPriv (w.validSignature env) src op.type = true := by simpa using hsigned
      exact ⟨hw, nofun, fun _ => ⟨_, hsource.symm, hreached⟩⟩

theorem checkSignatureIf_leads {op : Operation} {test : Bool}
    (h : checkSignatureIf w (!false && !test) env 0 op s = some (r, t)) :
    Writes w s t (seen w s) ∧ r.code ≠ .mathOverflow ∧ (r.code = .success → test = false →
        ∃ x, seen w s (sourceAddress env.transaction op) = some x ∧ Signed w env op.type x) := by
  cases test with
  | false =>
    obtain ⟨hw, hcode, hsigned⟩ := checkSignature_leads h
    exact ⟨hw, hcode, fun hr _ => hsigned hr⟩
  | true =>
    cases h
    exact ⟨.refl, nofun, nofun⟩

/-- The operation at the position overflows, once those before it are done. -/
def OverflowsAt (w : World) (test : Bool) (env : TransactionEnv) (index : ℕ) (l : List Operation) (position : ℕ)
    (V₀ : Store) : Prop :=
  ∃ done op rest V, l = done ++ op :: rest ∧ position = index + done.length ∧
    (checkValid w op (sourceAddress env.transaction op) 0).code = .success ∧ Overflow w env.transaction op V ∧
    ∀ fee, Path (Step w test) (operationCauses env index done) ⟨V₀, fee⟩ ⟨V, fee⟩

structure Loops (w : World) (env : TransactionEnv) (i index : ℕ) (l : List Operation) (ret : Bool)
    (s t : LedgerContext) : Prop where
  beside : Beside i s t
  gas : (t.txs i).actualGas = (s.txs i).actualGas
  environment : (t.txs i).environment = (s.txs i).environment
  code : ret = true → (t.txs i).result.code = (s.txs i).result.code
  bare : ret = true → Bare w (seen w t)
  path : ret = true → ∀ fee, Path (Step w s.isTestMode) (operationCauses env index l) ⟨seen w s, fee⟩ ⟨seen w t, fee⟩
  overflow : ret = false → (t.txs i).result.code = .mathOverflow →
    OverflowsAt w s.isTestMode env index l (t.txs i).processingOperation (seen w s)

variable {ret : Bool}

theorem Loops.failed {index : ℕ} {u : LedgerContext} (hbeside : Beside i s u)
    (hgas : (u.txs i).actualGas = (s.txs i).actualGas) (henvironment : (u.txs i).environment = (s.txs i).environment)
    (hover : r.code = .mathOverflow →
      OverflowsAt w s.isTestMode env index l (u.txs i).processingOperation (seen w s))
    (h : (alterResult i (fun _ => r) >>= fun _ => pure false) u = some (ret, t)) :
    Loops w env i index l ret s t := by
  obtain ⟨_, v, halter, h⟩ := of_bind h
  cases h
  have halters := alterResult_alters halter
  exact {
    beside := hbeside.trans halters.beside
    gas := by rw [halters.tx, hgas]
    environment := by rw [halters.tx, henvironment]
    code := nofun
    bare := nofun
    path := nofun
    overflow := by
      rw [halters.tx]
      exact fun _ hcode => hover hcode }

theorem applyOperations_loops
    (hvalid : ∀ op ∈ l, (checkValid w op (sourceAddress env.transaction op) 0).code = .success)
    (hfree : ∀ op ∈ l, CodeFree w op) : ∀ {index : ℕ} {descs : List String} {ret : Bool} {s t : LedgerContext},
      Bare w (seen w s) →
      applyOperations w execute i 0 env false index l descs s = some (ret, t) →
        Loops w env i index l ret s t := by
  induction l with
  | nil =>
    intro index descs ret s t hbare h
    obtain ⟨_, s₁, halter, h⟩ := of_bind h
    cases h
    have halters := alterTx_alters halter fun _ => rfl
    refine ⟨halters.beside, by rw [halters.tx], by rw [halters.tx], fun _ => by rw [halters.tx], fun _ => ?_,
      fun _ fee => ?_, nofun⟩
    · rwa [halters.seen_eq]
    · rw [halters.seen_eq]
      exact .nil _
  | cons op l ih =>
    intro index descs ret s t hbare h
    obtain ⟨hvalidOp, hvalid⟩ := List.forall_mem_cons.mp hvalid
    obtain ⟨hfreeOp, hfree⟩ := List.forall_mem_cons.mp hfree
    obtain ⟨_, s₁, halter, h⟩ := of_bind h
    have halters := alterTx_alters halter fun _ => rfl
    obtain ⟨_, s₂, hask, h⟩ := of_bind h
    cases hask
    obtain ⟨signed, s₃, hcheck, h⟩ := of_bind h
    obtain ⟨hw₁, hcode, hsigned⟩ := checkSignatureIf_leads hcheck
    rw [halters.seen_eq] at hsigned
    have hbeside₁ := halters.beside.trans (hw₁.beside i)
    split at h
    · exact .failed hbeside₁ (by rw [hw₁.txs, halters.tx]) (by rw [hw₁.txs, halters.tx])
        (fun hover => absurd hover hcode) h
    rename_i hok
    obtain ⟨r, s₄, happly, h⟩ := of_bind h
    have hseen₁ : seen w s₃ = seen w s := by rw [hw₁.seen, halters.seen_eq]
    obtain ⟨V, hw₂, heffect, hover⟩ := apply_effect (by rw [hseen₁]; exact hfreeOp.unscripted hbare) happly
    rw [hseen₁] at heffect hover
    have hbeside₂ := hbeside₁.trans (hw₂.beside i)
    have htx₂ : s₄.txs i = { s.txs i with processingOperation := index } := by rw [hw₂.txs, hw₁.txs, halters.tx]
    split at h
    · refine .failed hbeside₂ (by rw [htx₂]) (by rw [htx₂]) (fun hcode => ?_) h
      rw [htx₂]
      exact ⟨[], op, l, _, rfl, rfl, hvalidOp, hover hcode, fun _ => .nil _⟩
    rename_i hdone
    obtain ⟨_, s₅, hnote, h⟩ := of_bind h
    have hnotes := alterResult_alters hnote
    have hbeside₃ := hbeside₂.trans hnotes.beside
    have hseen₂ : seen w s₅ = V := by rw [hnotes.seen_eq, hw₂.seen]
    have hstep (fee : Int64) : Step w s.isTestMode (.operation env index op) ⟨seen w s, fee⟩ ⟨seen w s₅, fee⟩ := by
      rw [hseen₂]
      refine .operation hvalidOp ?_ (heffect (by simpa using hdone))
      rw [← halters.beside.isTestMode]
      exact hsigned (by simpa using hok)
    have hrest := ih hvalid hfree ((hstep 0).bare hbare) h
    exact {
      beside := hbeside₃.trans hrest.beside
      gas := by rw [hrest.gas, hnotes.tx, htx₂]
      environment := by rw [hrest.environment, hnotes.tx, htx₂]
      code := by
        intro hret
        rw [hrest.code hret, hnotes.tx, htx₂]
        rfl
      bare := hrest.bare
      path := by
        intro hret fee
        have hpath := hrest.path hret fee
        rw [hbeside₃.isTestMode] at hpath
        exact .cons (hstep fee) hpath
      overflow := by
        intro hret hcode
        obtain ⟨done, op', rest, V', rfl, hposition, hvalid', hover', hpath⟩ := hrest.overflow hret hcode
        rw [hbeside₃.isTestMode] at hpath
        refine ⟨op :: done, op', rest, V', rfl, ?_, hvalid', hover', fun fee => .cons (hstep fee) (hpath fee)⟩
        rw [hposition, List.length_cons]
        omega }

theorem addActualFee_alters (h : addActualFee w i i s = some (ret, t)) :
    Beside i s t ∧ t.envs = s.envs ∧ (t.txs i).environment = (s.txs i).environment ∧
      (ret = true → (t.txs i).result = (s.txs i).result ∧ (t.txs i).actualGas =
          (s.txs i).actualGas + getSelfGas w (s.txs i).transactionEnv) ∧
      (ret = false → (t.txs i).result.code = .mathOverflow → safeIntMul ((s.txs i).actualGas +
          getSelfGas w (s.txs i).transactionEnv) (s.txs i).transactionEnv.transaction.gasPrice = none) := by
  obtain ⟨env, s₁, hask, h⟩ := of_bind h
  obtain ⟨rfl, rfl⟩ := Prod.mk.inj (some.inj hask)
  obtain ⟨_, s₂, halter, h⟩ := of_bind h
  have halters := alterTx_alters halter fun _ => rfl
  obtain ⟨⟨env', gas⟩, _, hask', h⟩ := of_bind h
  obtain ⟨hpair, rfl⟩ := Prod.mk.inj (some.inj hask')
  obtain ⟨rfl, rfl⟩ := Prod.mk.inj hpair
  have hfailed {f : Result → Result} (h : (alterResult i f >>= fun _ => pure false) s₂ = some (ret, t)) :
      Beside i s t ∧ t.envs = s.envs ∧ (t.txs i).environment = (s.txs i).environment ∧ ret = false ∧
        (t.txs i).result = f (s₂.txs i).result := by
    obtain ⟨_, s₄, halter', h⟩ := of_bind h
    obtain ⟨rfl, rfl⟩ := of_pure h
    have halters' := alterResult_alters halter'
    exact ⟨halters.beside.trans halters'.beside, halters'.envs.trans halters.envs, by rw [halters'.tx, halters.tx], rfl,
      by rw [halters'.tx]⟩
  rcases hmul : safeIntMul (s₂.txs i).actualGas (s₂.txs i).transactionEnv.transaction.gasPrice with - | actual
  · simp only [hmul] at h
    obtain ⟨hbeside, henvs, hplace, rfl, -⟩ := hfailed h
    rw [halters.tx] at hmul
    exact ⟨hbeside, henvs, hplace, nofun, fun _ _ => hmul⟩
  · simp only [hmul] at h
    split at h
    · obtain ⟨hbeside, henvs, hplace, rfl, hresult⟩ := hfailed h
      exact ⟨hbeside, henvs, hplace, nofun, by rw [hresult]; exact nofun⟩
    · obtain ⟨rfl, rfl⟩ := of_pure h
      exact ⟨halters.beside, halters.envs, by rw [halters.tx], fun _ => by rw [halters.tx]; exact ⟨rfl, rfl⟩, nofun⟩

structure Applies (w : World) (env : TransactionEnv) (i : ℕ) (ret : Bool) (s t : LedgerContext) : Prop where
  beside : Beside i s t
  environment : ret = true → (t.txs i).environment = some 0
  gas : ret = true → (t.txs i).actualGas = getSelfGas w env
  code : ret = true → (t.txs i).result.code = .success
  bare : ret = true → Bare w (seen w t)
  path : ret = true → ∀ fee, Path (Step w s.isTestMode) (operationCauses env 0 env.transaction.operations)
    ⟨seen w s, fee⟩ ⟨seen w t, fee⟩
  overflow : ret = false → (t.txs i).result.code = .mathOverflow →
    safeIntMul (getSelfGas w env) env.transaction.gasPrice = none ∨
      OverflowsAt w s.isTestMode env 0 env.transaction.operations (t.txs i).processingOperation (seen w s)

theorem applyTop_applies {fuel : ℕ} (hchecked : TransactionFrm.Checked w env)
    (hfree : ∀ op ∈ env.transaction.operations, CodeFree w op) (hstack : s.transactionStack = [i])
    (hgas : (s.txs i).actualGas = 0) (hcode : (s.txs i).result.code = .success)
    (henv : (s.txs i).transactionEnv = env) (hbare : Bare w (seen w s))
    (h : LedgerFrm.applyTop w fuel i s = some (ret, t)) : Applies w env i ret s t := by
  obtain ⟨_, s₁, halter, h⟩ := of_bind h
  have halters := alterTx_alters halter fun _ => rfl
  obtain ⟨bottom, s₂, hbottom, h⟩ := of_bind h
  have hlast : s₁.transactionStack = [i] := by rw [halters.beside.stack, hstack]
  simp only [getBottomTx, hlast, List.getLast?_singleton, map_some, some.injEq, Prod.mk.injEq] at hbottom
  obtain ⟨rfl, rfl⟩ := hbottom
  obtain ⟨charged, s₃, hcharge, h⟩ := of_bind h
  obtain ⟨hbeside, henvs, hplace, hcharged, hgasOver⟩ := addActualFee_alters hcharge
  have hbeside₁ := halters.beside.trans hbeside
  cases charged with
  | false =>
    cases h
    refine ⟨hbeside₁, nofun, nofun, nofun, nofun, nofun, fun _ hover => .inl ?_⟩
    have hmul := hgasOver rfl hover
    rwa [halters.beside.env, henv, halters.tx, hgas, Int64.zero_add] at hmul
  | true =>
    obtain ⟨hresult, hactual⟩ := hcharged rfl
    obtain ⟨env', s₄, hask, h⟩ := of_bind h
    cases hask
    have henv₁ : (s₃.txs i).transactionEnv = env := by rw [hbeside₁.env, henv]
    have hseen : seen w s₃ = seen w s := seen_congr (by rw [henvs, halters.envs])
    rw [henv₁] at h
    have hloops := applyOperations_loops hchecked.operations hfree (hseen ▸ hbare) h
    exact {
      beside := hbeside₁.trans hloops.beside
      environment := fun _ => by rw [hloops.environment, hplace, halters.tx]
      gas := fun _ => by rw [hloops.gas, hactual, halters.beside.env, henv, halters.tx, hgas, Int64.zero_add]
      code := fun hret => by rw [hloops.code hret, hresult, halters.tx, hcode]
      bare := hloops.bare
      path := by
        intro hret fee
        have hpath := hloops.path hret fee
        rwa [hseen, hbeside₁.isTestMode] at hpath
      overflow := by
        intro hret hover
        have hat := hloops.overflow hret hover
        rw [hseen, hbeside₁.isTestMode] at hat
        exact .inr hat }

/-- The refund overflows. -/
def RefundOverflows (w : World) (env : TransactionEnv) (B : Books) : Prop :=
  ∀ actual, safeIntMul (getSelfGas w env) env.transaction.gasPrice = some actual →
    ∀ extra, safeIntSub env.transaction.feeLimit actual = some extra → ¬extra ≤ 0 ∧
      ∃ x, B.store env.transaction.sourceAddress = some x ∧
        (safeIntSub B.fee extra = none ∨ safeIntAdd x.balance extra = none)

structure Settles (w : World) (test : Bool) (env : TransactionEnv) (i : ℕ) (fee fee' : Int64)
    (s t : LedgerContext) : Prop where
  beside : Beside i s t
  environment : (t.txs i).environment = some 0
  step : Step w test (.refund env) ⟨seen w s, fee⟩ ⟨seen w t, fee'⟩
  overflow : (t.txs i).result.code = .mathOverflow → RefundOverflows w env ⟨seen w s, fee⟩

section Settle
variable {test : Bool} {fee fee' : Int64} (hplace : (s.txs i).environment = some 0)
  (hcode : (s.txs i).result.code = .success)

include hplace in
theorem Settles.noted {f : Result → Result} {u : LedgerContext} (hw : Writes w s u (seen w s)) {total : Int64}
    (hstep : Step w test (.refund env) ⟨seen w s, fee⟩ ⟨seen w s, total⟩)
    (hover : ∀ x, (f x).code = .mathOverflow → RefundOverflows w env ⟨seen w s, fee⟩)
    (h : (alterResult i f >>= fun _ => pure total) u = some (fee', t)) :
    Settles w test env i fee fee' s t := by
  obtain ⟨_, v, halter, h⟩ := of_bind h
  cases h
  have halters := alterResult_alters halter
  refine ⟨(hw.beside i).trans halters.beside, by rw [halters.tx, hw.txs, hplace], ?_, ?_⟩
  · rw [halters.seen_eq, hw.seen]
    exact hstep
  · rw [halters.tx]
    exact hover _

include hplace hcode in
theorem refund_settles {actual extra : Int64}
    (hactual : safeIntMul (getSelfGas w env) env.transaction.gasPrice = some actual)
    (hextra : safeIntSub env.transaction.feeLimit actual = some extra) (hleft : ¬extra ≤ 0)
    (h : refund w i env.transaction.sourceAddress extra fee s = some (fee', t)) :
    Settles w test env i fee fee' s t := by
  obtain ⟨d, s₁, hd, h⟩ := of_bind h
  rw [environmentOf_run hplace] at hd
  cases hd
  obtain ⟨found, s₂, hfound, h⟩ := of_bind h
  obtain ⟨hw, hsource, hheld⟩ := getEntry_writes hfound
  cases found with
  | none => exact .noted hplace hw .kept (fun _ hover => by cases hover) h
  | some source =>
    have hover (hfails : safeIntSub fee extra = none ∨ safeIntAdd source.balance extra = none) :
        RefundOverflows w env ⟨seen w s, fee⟩ := by
      intro actual' hactual' extra' hextra'
      obtain rfl := some.inj (hactual.symm.trans hactual')
      obtain rfl := some.inj (hextra.symm.trans hextra')
      exact ⟨hleft, _, hsource.symm, hfails⟩
    rcases hgives : safeIntSub fee extra with - | left
    · simp only [hgives] at h
      exact .noted hplace hw .kept (fun _ _ => hover (.inl hgives)) h
    simp only [hgives] at h
    rcases hreceives : safeIntAdd source.balance extra with - | balance
    · simp only [hreceives] at h
      exact .noted hplace hw (.lost hactual hextra hleft hsource.symm hgives hreceives)
        (fun _ _ => hover (.inr hreceives)) h
    simp only [hreceives] at h
    obtain ⟨_, s₃, halter, h⟩ := of_bind h
    cases h
    obtain ⟨hw', -⟩ := alterEntry_writes (fun _ => AccountFrm.holding_setBalance balance) (hheld rfl)
      (by rw [hw.seen, ← hsource]; rfl) halter
    rw [hw.seen] at hw'
    have hwrites := hw.trans hw'
    refine ⟨hwrites.beside i, by rw [hwrites.txs, hplace], ?_, by rw [hwrites.txs, hcode]; exact nofun⟩
    rw [hwrites.seen]
    exact .refund hactual hextra hleft hsource.symm hgives hreceives

include hplace hcode in
theorem returnFee_settles (henv : (s.txs i).transactionEnv = env) (hgas : (s.txs i).actualGas = getSelfGas w env)
    (h : returnFee w i fee s = some (fee', t)) : Settles w test env i fee fee' s t := by
  obtain ⟨⟨env', gas, code⟩, s₁, hask, h⟩ := of_bind h
  simp only [askTx, some.injEq, Prod.mk.injEq] at hask
  obtain ⟨⟨rfl, rfl, rfl⟩, rfl⟩ := hask
  simp only [henv, hgas] at h
  rcases hactual : safeIntMul (getSelfGas w env) env.transaction.gasPrice with - | actual
  · simp only [hactual] at h
    exact .noted hplace .refl .kept (fun _ _ actual hsome => absurd (hactual.symm.trans hsome) nofun) h
  simp only [hactual] at h
  rcases hextra : safeIntSub env.transaction.feeLimit actual with - | extra
  · simp only [hextra] at h
    refine .noted hplace .refl .kept (fun _ _ actual' hactual' extra hsome => ?_) h
    obtain rfl := some.inj (hactual.symm.trans hactual')
    exact absurd (hextra.symm.trans hsome) nofun
  simp only [hextra] at h
  split at h
  · cases h
    exact ⟨.refl, hplace, .kept, by rw [hcode]; exact nofun⟩
  · rename_i hleft
    simp only [Bool.or_eq_true, decide_eq_true_eq, not_or] at hleft
    exact refund_settles hplace hcode hactual hextra hleft.2 h

end Settle

end Run

end OpenSesame
