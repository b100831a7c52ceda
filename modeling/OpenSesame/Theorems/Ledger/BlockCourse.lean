import OpenSesame.Theorems.Ledger.CodeFree
import OpenSesame.Theorems.Ledger.Follow

/-! # Whole blocks without scripts

The loops over the transactions and the reward at the end, as paths of the books. -/

namespace OpenSesame
open Protocol StateOption OperationFrm TransactionFrm

structure Resting (w : World) (s : LedgerContext) : Prop where
  stack : s.transactionStack = []
  settled : seen w s = stored w s
  bare : Bare w (stored w s)

/-- No operation of the transaction runs a script. -/
def Protocol.TransactionEnv.CodeFree (w : World) (env : TransactionEnv) : Prop :=
  ∀ op ∈ env.transaction.operations, OpenSesame.CodeFree w op

namespace LedgerFrm
variable {w : World} {fuel i : ℕ} {env : TransactionEnv} {s t u : LedgerContext}

theorem stored_charged (w : World) (env : TransactionEnv) (source : AccountFrm) (newBalance : Int64)
    (s : LedgerContext) :
    stored w (charged env source newBalance s) = (seen w s).put env.transaction.sourceAddress
      ((source.holding w.db).setBalance newBalance).nonceIncrease := by
  have hwrites := (record_writes w s env.transaction.sourceAddress (charge newBalance source)).seen
  have hfold := stored_commit w (s.withAccounts (Overlay.record s.envs.accounts 1 env.transaction.sourceAddress
    (some (charge newBalance source))))
  exact (stored_congr rfl).trans (hfold.trans hwrites)

theorem seen_charged (w : World) (env : TransactionEnv) (source : AccountFrm) (newBalance : Int64)
    (s : LedgerContext) : seen w (charged env source newBalance s) = stored w (charged env source newBalance s) := by
  refine seen_eq_stored ?_
  rw [charged_accounts]
  exact Overlay.fold_high _ 0

theorem charge_step {r : Result} {totalFee fee : Int64} {s₁ s₂ : LedgerContext}
    (hvalid : validForApply w env (!s.isTestMode) s = some ((true, r), s₁))
    (hpay : payFee w env totalFee s₁ = some ((none, fee), s₂))
    (henter : enter w env r s₂ = some (i, u)) :
    Step w s.isTestMode (.charge env) ⟨seen w s, totalFee⟩ ⟨stored w u, fee⟩ ∧
      ∃ source newBalance, i = s.next ∧ u = charged env source newBalance s := by
  obtain ⟨source, newBalance, hnear, hfee, hbalance, hi, hu⟩ := charged_of_enter hvalid hpay henter
  obtain ⟨-, hparameter, source', hfound, hnonce, hsigned, hcheck⟩ := validForApply_ok hvalid
  rw [getEntry_run, hnear] at hfound
  obtain ⟨hsource, -⟩ := Prod.mk.inj (Option.some.inj hfound)
  cases hsource
  obtain ⟨-, ⟨limit, hlimit, hreserve⟩, actual, hactual, henough⟩ := checkFee_ok w hcheck
  obtain rfl : limit = newBalance := Option.some.inj (hlimit.symm.trans hbalance)
  refine ⟨?_, source, limit, hi, hu⟩
  have hthere : seen w s env.transaction.sourceAddress = some (source.holding w.db) := by rw [seen, hnear]; rfl
  rw [hu, stored_charged]
  refine .charge hparameter hthere hnonce ?_ hbalance hreserve hactual henough hfee
  intro htest
  exact hsigned (by rw [htest]; rfl)

theorem settleTop_settles {totalFee totalFee' : Int64} (hplace : (s.txs i).environment = some 0)
    (hcode : (s.txs i).result.code = .success) (henv : (s.txs i).transactionEnv = env)
    (hgas : (s.txs i).actualGas = getSelfGas w env) (h : settleTop w i totalFee s = some (totalFee', t)) :
    Beside i s t ∧ (∀ test, Step w test (.refund env) ⟨seen w s, totalFee⟩ ⟨stored w t, totalFee'⟩) ∧
      ((t.txs i).result.code = .mathOverflow → RefundOverflows w env ⟨seen w s, totalFee⟩) := by
  obtain ⟨fee, s₁, hreturn, h⟩ := of_bind h
  have hsettles (test : Bool) : Settles w test env i totalFee fee s s₁ :=
    returnFee_settles hplace hcode henv hgas hreturn
  obtain ⟨d, s₂, hd, h⟩ := of_bind h
  rw [environmentOf_run (hsettles false).environment] at hd
  cases hd
  obtain ⟨_, s₃, hcommit, h⟩ := of_bind h
  cases hcommit
  cases h
  refine ⟨(hsettles false).beside.trans ⟨rfl, rfl, rfl, rfl, rfl⟩, fun test => ?_, (hsettles false).overflow⟩
  rw [stored_commit]
  exact (hsettles test).step

theorem markExpired_env (late : Bool) (x : TransactionFrm) :
    (x.markExpired late).transactionEnv = x.transactionEnv := by
  unfold markExpired
  split <;> rfl

/-- Where the overflow of a transaction comes from, once it is charged: its gas, an operation or the refund. -/
inductive Stuck (w : World) (test : Bool) (env : TransactionEnv) (v : Verdict) (position : ℕ) (B : Books) : Prop
  | gas (fails : SafeInt.safeIntMul (getSelfGas w env) env.transaction.gasPrice = none)
  | operation (failed : v = .failed) (fails : OverflowsAt w test env 0 env.transaction.operations position B.store)
  | refund {V : Store} (path : Path (Step w test) (operationCauses env 0 env.transaction.operations) B ⟨V, B.fee⟩)
      (fails : RefundOverflows w env ⟨V, B.fee⟩)

theorem enforced_path {late : Bool} {totalFee totalFee' : Int64} {v : Verdict}
    (hchecked : TransactionFrm.Checked w env) (hfree : env.CodeFree w) (hstack : s.transactionStack = [i])
    (htx : s.txs i = { transactionEnv := env }) (hseen : seen w s = stored w s) (hbare : Bare w (stored w s))
    (h : enforced w fuel late i totalFee s = some ((v, totalFee'), t)) :
    Beside i s t ∧ (∀ {B : Books}, Step w s.isTestMode (.charge env) B ⟨stored w s, totalFee⟩ →
      Path (Step w s.isTestMode) (causesOf env v) B ⟨stored w t, totalFee'⟩) ∧
    ((t.txs i).result.code = .mathOverflow →
      Stuck w s.isTestMode env v (t.txs i).processingOperation ⟨stored w s, totalFee⟩) := by
  obtain ⟨ret, x, expired, y, happly, hexpire, hcases⟩ := enforced_eq_some h
  have hbase := applyTop_base happly
  have hstored : stored w x = stored w s := stored_congr hbase.accounts
  have hbare' : Bare w (seen w s) := hseen ▸ hbare
  have happlies := applyTop_applies hchecked hfree (by exact hstack) (by simp [htx]) (by simp [htx]) (by simp [htx])
    (by exact hbare') happly
  have hbeside : Beside i s x := by
    have henable : Beside i s { s with txs := Function.update s.txs i { s.txs i with enableCheck := true } } :=
      ⟨rfl, rfl, rfl, rfl, by simp⟩
    exact henable.trans happlies.beside
  obtain ⟨rfl, rfl, rfl, rfl⟩ | ⟨-, rfl, rfl, rfl, rfl⟩ | ⟨-, rfl, rfl, hsettle⟩ := hcases
  · obtain ⟨hlate, rfl⟩ := Prod.mk.inj (Option.some.inj hexpire)
    refine ⟨hbeside.trans ⟨rfl, rfl, rfl, rfl, ?_⟩, fun hcharge => ?_, ?_⟩
    · simp [markExpired_env]
    · change Path (Step w s.isTestMode) (causesOf env .expired) _ ⟨stored w x, _⟩
      rw [hstored]
      exact .single hcharge
    · obtain ⟨info, hinfo⟩ := Option.isSome_iff_exists.mp hlate
      simp [markExpired, hinfo, Result.set]
  · refine ⟨hbeside, fun hcharge => ?_, fun hover => ?_⟩
    · rw [hstored]
      exact .single hcharge
    · rcases happlies.overflow rfl hover with hgas | hat
      · exact .gas hgas
      · refine .operation rfl ?_
        rw [← hseen]
        exact hat
  · have henv : (x.txs i).transactionEnv = env := by rw [hbeside.env, htx]
    obtain ⟨hbeside', hrefund, hover⟩ := settleTop_settles (happlies.environment rfl) (happlies.code rfl) henv
      (happlies.gas rfl) hsettle
    have hpath : Path (Step w s.isTestMode) (operationCauses env 0 env.transaction.operations)
        ⟨seen w s, totalFee⟩ ⟨seen w x, totalFee⟩ := happlies.path rfl totalFee
    rw [hseen] at hpath
    exact ⟨hbeside.trans hbeside', fun hcharge => .cons hcharge (hpath.append (.single (hrefund _))),
      fun hcode => .refund hpath (hover hcode)⟩

theorem afterLeave_ledger (s : LedgerContext) :
    (afterLeave s).ledgerSeq = s.ledgerSeq ∧ (afterLeave s).isTestMode = s.isTestMode := by
  unfold afterLeave
  dsimp only
  split <;> exact ⟨rfl, rfl⟩

/-- The course of a transaction; if it ends with an overflow, there is a reason for it. -/
def TxCourse (w : World) (test : Bool) (tx : AppliedTx) (B B' : Books) : Prop :=
  Path (Step w test) tx.causes B B' ∧ (tx.frm.result.code = .mathOverflow →
    ∃ B₁, Step w test (.charge tx.frm.transactionEnv) B B₁ ∧
      Stuck w test tx.frm.transactionEnv tx.verdict tx.frm.processingOperation B₁)

structure Takes (w : World) (env : TransactionEnv) (tx : AppliedTx) (fee fee' : Int64) (s t : LedgerContext) :
    Prop where
  resting : Resting w t
  ledgerSeq : t.ledgerSeq = s.ledgerSeq
  isTestMode : t.isTestMode = s.isTestMode
  env : tx.frm.transactionEnv = env
  plain : tx.Plain
  course : TxCourse w s.isTestMode tx ⟨stored w s, fee⟩ ⟨stored w t, fee'⟩

theorem transaction_takes {r : Result} {late : Bool} {totalFee fee fee' : Int64} {tx : AppliedTx}
    {s₁ s₂ s₃ : LedgerContext} (hs : Resting w s) (hfree : env.CodeFree w)
    (hvalid : validForApply w env (!s.isTestMode) s = some ((true, r), s₁))
    (hpay : payFee w env totalFee s₁ = some ((none, fee), s₂))
    (htx : transaction w env r (fun i => enforced w fuel late i fee) s₂ = some ((tx, fee'), s₃)) :
    Takes w env tx totalFee fee' s s₃ := by
  obtain ⟨i, u, v, x, henter, hbody, hleave, rfl⟩ := transaction_eq_some.mp htx
  obtain ⟨hcharge, source, newBalance, rfl, rfl⟩ := charge_step hvalid hpay henter
  rw [hs.settled] at hcharge
  have htripped := (enter_quiet henter).2
  have hbare := hcharge.bare hs.bare
  obtain ⟨hbeside, hpath, hover⟩ := enforced_path (validForParameter_ok (validForApply_ok hvalid).2.1) hfree
    (by simp [charged, hs.stack]) (by simp [charged]) (seen_charged ..) hbare hbody
  obtain ⟨-, rfl⟩ := leave_eq_some.mp hleave
  have hstack : (afterLeave x).transactionStack = [] := by
    rw [afterLeave_stack, hbeside.stack, charged, hs.stack]
    rfl
  have hstored : stored w (afterLeave x) = stored w x := stored_congr (by rw [afterLeave_envs]; rfl)
  have henv : (x.txs s.next).transactionEnv = env := by
    rw [hbeside.env, charged]
    simp
  have hcourse : Path (Step w s.isTestMode) (causesOf env v) ⟨stored w s, totalFee⟩ ⟨stored w (afterLeave x), fee'⟩ :=
    hstored ▸ hpath hcharge
  have hlater := hcourse.invariant (I := fun B => Bare w B.store) (fun _ _ _ hB hstep => hstep.bare hB) hs.bare
  exact {
    resting := ⟨hstack, seen_eq_stored (by rw [afterLeave_envs]; rfl), hlater⟩
    ledgerSeq := (afterLeave_ledger x).1.trans hbeside.ledgerSeq
    isTestMode := (afterLeave_ledger x).2.trans hbeside.isTestMode
    env := henv
    plain := by
      refine ⟨fun _ => ?_, by simp [hstack]⟩
      simp [afterLeave_trace, hbeside.tripped, htripped]
    course := by
      rw [TxCourse, AppliedTx.causes, henv]
      exact ⟨hcourse, fun hcode => ⟨_, hcharge, hover hcode⟩⟩ }

structure Runs (w : World) (txs : List AppliedTx) (b b' : Block) (s t : LedgerContext) : Prop where
  resting : Resting w t
  ledgerSeq : t.ledgerSeq = s.ledgerSeq
  isTestMode : t.isTestMode = s.isTestMode
  noted : b'.applyTxFrms = b.applyTxFrms ++ txs
  plain : ∀ tx ∈ txs, tx.Plain
  course : Path (TxCourse w s.isTestMode) txs ⟨stored w s, b.totalFee⟩ ⟨stored w t, b'.totalFee⟩

theorem Runs.nil {b : Block} (hs : Resting w s) : Runs w [] b b s s := ⟨hs, rfl, rfl, by simp, by simp, .nil _⟩

theorem Runs.cons {tx : AppliedTx} {txs : List AppliedTx} {position : ℕ} {fee : Int64} {b b' : Block}
    (htx : Takes w env tx b.totalFee fee s u)
    (hrest : Runs w txs ({ b with totalFee := fee }.note position tx) b' u t) : Runs w (tx :: txs) b b' s t where
  resting := hrest.resting
  ledgerSeq := hrest.ledgerSeq.trans htx.ledgerSeq
  isTestMode := hrest.isTestMode.trans htx.isTestMode
  noted := by
    rw [hrest.noted]
    simp [Block.note]
  plain := List.forall_mem_cons.mpr ⟨htx.plain, hrest.plain⟩
  course := by
    have hcourse := hrest.course
    rw [htx.isTestMode] at hcourse
    exact .cons htx.course hcourse

theorem checkLoop_runs {clock : Clock} {l : List TransactionEnv} (hfree : ∀ env ∈ l, env.CodeFree w) :
    ∀ {position : ℕ} {b b' : Block} {s t : LedgerContext}, Resting w s →
      checkLoop w fuel clock position l b s = some (some b', t) →
        ∃ txs, txs.map (fun tx => tx.frm.transactionEnv) = l ∧ Runs w txs b b' s t := by
  induction l with
  | nil =>
    intro position b b' s t hs h
    obtain ⟨heq, rfl⟩ := of_pure h
    cases heq
    exact ⟨[], rfl, .nil hs⟩
  | cons env l ih =>
    intro position b b' s t hs h
    obtain ⟨hfreeTx, hfree⟩ := List.forall_mem_cons.mp hfree
    obtain ⟨r, s₁, fee, s₂, tx, fee', s₃, hvalid, hpay, htx, -, hrest⟩ := checkLoop_cons.mp h
    have htakes := transaction_takes hs hfreeTx hvalid hpay htx
    obtain ⟨txs, henvs, hruns⟩ := ih hfree htakes.resting hrest
    exact ⟨tx :: txs, by simp [htakes.env, henvs], .cons htakes hruns⟩

/-! ### Transactions that are dropped -/

structure Reads (w : World) (s t : LedgerContext) : Prop where
  stack : t.transactionStack = s.transactionStack
  ledgerSeq : t.ledgerSeq = s.ledgerSeq
  isTestMode : t.isTestMode = s.isTestMode
  seen : seen w t = seen w s
  stored : stored w t = stored w s

theorem Reads.refl : Reads w s s := ⟨rfl, rfl, rfl, rfl, rfl⟩

theorem getEntry_reads {a : Address} {r : Option AccountFrm} (h : getEntry w 0 a s = some (r, t)) : Reads w s t := by
  obtain ⟨hw, -⟩ := getEntry_writes h
  have hbeside := hw.beside 0
  refine ⟨hbeside.stack, hbeside.ledgerSeq, hbeside.isTestMode, hw.seen, ?_⟩
  cases h
  exact stored_congr (getEntry_base w 0 a s).accounts

theorem Reads.resting (h : Reads w s t) (hs : Resting w s) : Resting w t where
  stack := h.stack.trans hs.stack
  settled := by rw [h.seen, h.stored, hs.settled]
  bare := by
    rw [h.stored]
    exact hs.bare

theorem validForApply_reads {checkPriv : Bool} {x : Bool × Result}
    (h : validForApply w env checkPriv s = some (x, t)) : Reads w s t := by
  rcases validForApply_cases h with rfl | ⟨r, hr⟩
  · exact .refl
  · exact getEntry_reads hr

theorem Runs.drop {txs : List AppliedTx} {position : ℕ} {b b' : Block} (h : Reads w s u)
    (hrest : Runs w txs (b.drop position) b' u t) : Runs w txs b b' s t where
  resting := hrest.resting
  ledgerSeq := hrest.ledgerSeq.trans h.ledgerSeq
  isTestMode := hrest.isTestMode.trans h.isTestMode
  noted := hrest.noted
  plain := hrest.plain
  course := by
    have hcourse := hrest.course
    rw [h.isTestMode, h.stored] at hcourse
    exact hcourse

theorem proposeLoop_runs {clock : Clock} {l : List TransactionEnv} (hfree : ∀ env ∈ l, env.CodeFree w) :
    ∀ {position : ℕ} {b b' : Block} {s t : LedgerContext}, Resting w s →
      proposeLoop w fuel clock position l b s = some (some b', t) →
        ∃ txs, (txs.map fun tx => tx.frm.transactionEnv).Sublist l ∧ Runs w txs b b' s t := by
  induction l with
  | nil =>
    intro position b b' s t hs h
    obtain ⟨heq, rfl⟩ := of_pure h
    cases heq
    exact ⟨[], .slnil, .nil hs⟩
  | cons env l ih =>
    intro position b b' s t hs h
    obtain ⟨hfreeTx, hfree⟩ := List.forall_mem_cons.mp hfree
    obtain ⟨valid, r, s₁, hvalid, ⟨rfl, hrest⟩ | ⟨rfl, error, fee, s₂, hpay, hpaid⟩⟩ := proposeLoop_cons h
    · have hreads := validForApply_reads hvalid
      obtain ⟨txs, henvs, hruns⟩ := ih hfree (hreads.resting hs) hrest
      exact ⟨txs, henvs.cons env, .drop hreads hruns⟩
    · cases error with
      | some error =>
        obtain ⟨-, hrest⟩ | ⟨hnone, -⟩ := hpaid
        · obtain ⟨rfl, rfl⟩ := payFee_error hvalid hpay
          have hreads := validForApply_reads hvalid
          obtain ⟨txs, henvs, hruns⟩ := ih hfree (hreads.resting hs) hrest
          exact ⟨txs, henvs.cons env, .drop hreads hruns⟩
        · cases hnone
      | none =>
        obtain ⟨hnone, -⟩ | ⟨-, tx, fee', s₃, htx, hrest⟩ := hpaid
        · exact absurd rfl hnone
        · have htakes := transaction_takes hs hfreeTx hvalid hpay htx
          obtain ⟨txs, henvs, hruns⟩ := ih hfree htakes.resting hrest
          refine ⟨tx :: txs, ?_, .cons htakes hruns⟩
          rw [List.map_cons, htakes.env]
          exact henvs.cons_cons env

end LedgerFrm

end OpenSesame
