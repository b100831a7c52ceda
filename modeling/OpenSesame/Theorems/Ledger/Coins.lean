import OpenSesame.Lib.Total
import OpenSesame.Theorems.Ledger.Checks
import OpenSesame.Theorems.Ledger.RewardCourse
import OpenSesame.Theorems.Ledger.Supply

/-! # Coins

The coins of all accounts and the fees that are held back come to the same sum at every step of a
block, and no account is in debt. So no addition to a balance overflows. -/

namespace OpenSesame
open Protocol OperationFrm LedgerFrm SafeInt General AccountDb List Option Int64 TransactionFrm Store

noncomputable def coins (V : Store) : ℤ := total (fun h => h.balance.toInt) V

structure Funded (V : Store) : Prop where
  finite : FiniteMap V
  nonneg : Each (fun _ h => 0 ≤ h.balance.toInt) V

section Stores
variable {V : Store} {a b : Address} {x y : Holding}

theorem Funded.put (h : Funded V) (hx : 0 ≤ x.balance.toInt) : Funded (V.put a x) :=
  ⟨h.finite.update a (some x), h.nonneg.put hx⟩

theorem coins_put (h : Funded V) (ha : V a = some y) :
    coins (V.put a x) = coins V - y.balance.toInt + x.balance.toInt := by
  rw [coins, put, total_update h.finite, share_some ha]
  rfl

theorem coins_put_new (h : Funded V) (ha : V a = none) : coins (V.put a x) = coins V + x.balance.toInt := by
  rw [coins, put, total_update h.finite, share_none ha, sub_zero]
  rfl

theorem Funded.balance_le (h : Funded V) (ha : V a = some x) : x.balance.toInt ≤ coins V :=
  share_le_total (q := fun h => h.balance.toInt) h.finite (fun k v hk => h.nonneg k v hk) ha

theorem Funded.aside (h : Funded V) (x' : Holding) (ha : V a = some x) (hx : x'.balance = x.balance) :
    Funded (V.put a x') ∧ coins (V.put a x') = coins V := by
  refine ⟨h.put (hx ▸ h.nonneg a x ha), ?_⟩
  rw [coins_put h ha, hx]
  omega

theorem Funded.transfer (h : Funded V) (x' y' : Holding) (ha : V a = some x) (hb : V.put a x' b = some y)
    (hx : 0 ≤ x'.balance.toInt) (hy : 0 ≤ y'.balance.toInt)
    (hsame : x'.balance.toInt + y'.balance.toInt = x.balance.toInt + y.balance.toInt) :
    Funded ((V.put a x').put b y') ∧ coins ((V.put a x').put b y') = coins V := by
  refine ⟨(h.put hx).put hy, ?_⟩
  rw [coins_put (h.put hx) hb, coins_put h ha]
  omega

end Stores

section Effects
variable {w : World} {tran : Transaction} {index n : ℕ} {op : Operation} {V V' : Store}

theorem toInt_neg_one_mul {x : Int64} (h : 0 ≤ x.toInt) : (-1 * x).toInt = -x.toInt := by
  have hlt := x.toInt_lt
  have hone : (-1 : Int64).toInt = -1 := rfl
  rw [toInt_mul, hone, neg_one_mul, bmod_of_range (by omega) (by omega)]

theorem Funded.opened {V₁ : Store} {a dest : Address} {src : Holding} (hV : Funded V) (hne : a ≠ dest)
    (hsource : V a = some src)
    (hdest : V₁ = V ∨ V dest = none ∧ V₁ = V.put dest ((AccountFrm.creatAccountFrm dest 0).holding w.db)) :
    Funded V₁ ∧ coins V₁ = coins V ∧ V₁ a = some src := by
  obtain rfl | ⟨hnone, rfl⟩ := hdest
  · exact ⟨hV, rfl, hsource⟩
  · refine ⟨hV.put (le_refl 0), ?_, by rwa [put_of_ne _ hne]⟩
    rw [coins_put_new hV hnone]
    exact add_zero _

theorem Effect.coins_eq (heffect : Effect w tran index op V V') (hreserve : 0 ≤ w.fees.baseReserve.toInt)
    (hvalid : (checkValid w op (sourceAddress tran op) n).code = .success) (hV : Funded V) :
    Funded V' ∧ coins V' = coins V := by
  cases heffect with
  | idle => exact ⟨hV, rfl⟩
  | @create src limit balance type source fresh reserve limited enough paid code =>
    rw [lt_iff_toInt_lt] at reserve enough
    rw [safeIntSub_eq_some] at limited
    rw [safeIntAdd_eq_some, toInt_neg_one_mul (by omega)] at paid
    have hne : newAddress w tran index op.createAccount ≠ sourceAddress tran op := by
      intro heq
      rw [heq, source] at fresh
      cases fresh
    have hfirst : Funded (V.put (sourceAddress tran op) (src.setBalance balance)) :=
      hV.put (by change 0 ≤ balance.toInt; omega)
    refine ⟨hfirst.put ?_, ?_⟩
    · rw [newAccount_balance]
      omega
    · rw [coins_put_new hfirst (by rwa [put_of_ne _ hne]), coins_put hV source, newAccount_balance]
      change _ - _ + balance.toInt + _ = _
      omega
  | @payCoin src dst V₁ least paid received type source lowest enough dest pays there receives =>
    obtain ⟨hamount, hne⟩ := checkValid_payCoin hvalid type
    rw [safeIntAdd_eq_some] at lowest receives
    rw [safeIntSub_eq_some] at pays
    rw [lt_iff_toInt_lt] at enough
    obtain ⟨hV₁, hsum, hsource⟩ := hV.opened hne source (dest.imp And.right fun hnew => ⟨hnew.1, hnew.2.2⟩)
    have hdst : 0 ≤ dst.balance.toInt := by
      rw [put_of_ne _ hne.symm] at there
      exact hV₁.nonneg _ _ there
    obtain ⟨hfunded, hcoins⟩ := hV₁.transfer (src.setBalance paid) (dst.setBalance received) hsource
      there (by change 0 ≤ paid.toInt; omega) (by change 0 ≤ received.toInt; omega)
      (by change paid.toInt + received.toInt = _; omega)
    exact ⟨hfunded, hcoins.trans hsum⟩
  | payNothing => exact ⟨hV, rfl⟩
  | @payAsset src dst asset held paid received type source dest asset_eq holds pays enough there =>
    obtain ⟨hfirst, hcoins⟩ := hV.aside (src.setAsset asset.assetKey (some paid)) source rfl
    obtain ⟨hsecond, hcoins'⟩ := hfirst.aside (dst.setAsset asset.assetKey (some received)) there rfl
    exact ⟨hsecond, hcoins'.trans hcoins⟩
  | issue _ source => exact hV.aside _ source rfl
  | metadata _ source => exact hV.aside _ source rfl
  | privilege _ source => exact hV.aside _ source rfl

/-- The operation overflows without an addition to a balance: it adds amounts of an asset, or its amount is too large to
be added to the base reserve. -/
def OverflowsOutside (w : World) (op : Operation) : Prop :=
  op.type = .issueAsset ∨ op.type = .payAsset ∨
    op.type = .payCoin ∧ 2 ^ 63 ≤ op.payCoin.amount.toInt + w.fees.baseReserve.toInt

theorem Overflow.outside (h : Overflow w tran op V) (hreserve : 0 ≤ w.fees.baseReserve.toInt)
    (hvalid : (checkValid w op (sourceAddress tran op) n).code = .success) (hV : Funded V) (hroom : coins V < 2 ^ 63) :
    OverflowsOutside w op := by
  cases h with
  | asset type => exact type.imp id .inl
  | @create src type source reserve fails =>
    have hsrc := hV.nonneg _ _ source
    have hlt := src.balance.toInt_lt
    have hmax := w.fees.baseReserve.toInt_lt
    rw [lt_iff_toInt_lt] at reserve
    rcases fails with fails | ⟨limit, limited, enough, fails⟩
    · exact absurd fails (safeIntSub_ne_none (by omega) (by omega))
    · rw [safeIntSub_eq_some] at limited
      rw [lt_iff_toInt_lt] at enough
      have hneg := toInt_neg_one_mul (x := op.createAccount.initBalance) (by omega)
      exact absurd fails (safeIntAdd_ne_none (by omega) (by omega))
  | lowest type fails =>
    obtain ⟨hamount, -⟩ := checkValid_payCoin hvalid type
    refine .inr (.inr ⟨type, not_lt.mp fun hless => ?_⟩)
    exact absurd fails (safeIntAdd_ne_none (by omega) hless)
  | @payCoin src V₁ least type source lowest enough dest fails =>
    obtain ⟨hamount, hne⟩ := checkValid_payCoin hvalid type
    rw [safeIntAdd_eq_some] at lowest
    rw [lt_iff_toInt_lt] at enough
    obtain ⟨hV₁, hsum, hsource⟩ := hV.opened hne source dest
    have hlt := src.balance.toInt_lt
    rcases fails with fails | ⟨paid, dst, pays, there, fails⟩
    · exact absurd fails (safeIntSub_ne_none (by omega) (by omega))
    · -- what the destination has is not more than the others have
      rw [safeIntSub_eq_some] at pays
      have hpaid : Funded (V₁.put (sourceAddress tran op) (src.setBalance paid)) :=
        hV₁.put (by change 0 ≤ paid.toInt; omega)
      have hdst := hpaid.nonneg _ _ there
      have hle := hpaid.balance_le there
      rw [coins_put hV₁ hsource] at hle
      change _ ≤ _ - _ + paid.toInt at hle
      exact absurd fails (safeIntAdd_ne_none (by omega) (by omega))

end Effects

/-! ### Transactions -/

theorem getSelfGas_nonneg {w : World} {env : TransactionEnv} (h : TransactionFrm.Checked w env) :
    0 ≤ (getSelfGas w env).toInt := by
  have hgas (op : Operation) : 0 ≤ (getOperationTypeGas op).toInt ∧ (getOperationTypeGas op).toInt ≤ 5000000 := by
    unfold getOperationTypeGas
    split
    · split <;> decide
    · decide
    · decide
  have hfold (l : List Operation) : ∀ gas : Int64, 0 ≤ gas.toInt → gas.toInt + 5000000 * l.length < 2 ^ 63 →
      0 ≤ (l.foldl (fun gas op => gas + getOperationTypeGas op) gas).toInt := by
    induction l with
    | nil => exact fun _ hgas _ => hgas
    | cons op l ih =>
      intro gas hnonneg hlt
      obtain ⟨hlow, hhigh⟩ := hgas op
      rw [length_cons] at hlt
      push_cast at hlt
      have hadd : (gas + getOperationTypeGas op).toInt = gas.toInt + (getOperationTypeGas op).toInt :=
        toInt_add_of_range (by omega) (by omega)
      exact ih (gas + getOperationTypeGas op) (by omega) (by omega)
  have hsize := h.size
  have hlength := h.length
  rw [transactionLimitSize] at hsize
  rw [maxOperationsNumPerTransaction] at hlength
  have hstart : (Int64.ofNat (w.byteSize env)).toInt = w.byteSize env := toInt_ofNat_of_lt (by omega)
  exact hfold _ _ (by omega) (by omega)

/-- No account is in debt, and all coins are those of the accounts and the fees that are held back. -/
structure Solvent (supply : ℤ) (B : Books) : Prop where
  funded : Funded B.store
  fee : 0 ≤ B.fee.toInt
  sum : coins B.store + B.fee.toInt = supply

section Steps
variable {w : World} {test : Bool} {supply : ℤ} {env : TransactionEnv} {B B' : Books}

variable (hreserve : 0 ≤ w.fees.baseReserve.toInt)
include hreserve

theorem charge_solvent (hB : Solvent supply B)
    (h : Step w test (.charge env) B B') :
    Solvent supply B' ∧ TransactionFrm.Checked w env ∧ env.transaction.feeLimit.toInt ≤ B'.fee.toInt ∧
      ∃ actual, safeIntMul (getSelfGas w env) env.transaction.gasPrice = some actual ∧
        actual.toInt ≤ env.transaction.feeLimit.toInt := by
  cases h with
  | @charge _ _ x balance fee actual valid source nonce signed pays reserve actually enough takes =>
    have hchecked := validForParameter_ok valid
    have hlimit : 0 ≤ env.transaction.feeLimit.toInt := by
      simpa [lt_iff_toInt_lt] using hchecked.feeLimit
    rw [safeIntSub_eq_some] at pays
    rw [safeIntAdd_eq_some] at takes
    rw [lt_iff_toInt_lt] at reserve
    have hfee := hB.fee
    have hsum := hB.sum
    rw [lt_iff_toInt_lt] at enough
    refine ⟨⟨hB.funded.put (by change 0 ≤ balance.toInt; omega), by change 0 ≤ fee.toInt; omega, ?_⟩, hchecked, ?_,
      actual, actually, by omega⟩
    · dsimp only
      rw [coins_put hB.funded source]
      change _ - _ + balance.toInt + _ = _
      omega
    · change _ ≤ fee.toInt
      omega

theorem operations_solvent {l : List Operation} :
    ∀ {index : ℕ} {B B' : Books}, Solvent supply B → Path (Step w test) (operationCauses env index l) B B' →
      Solvent supply B' ∧ B'.fee = B.fee := by
  induction l with
  | nil =>
    intro index B B' hB h
    cases h
    exact ⟨hB, rfl⟩
  | cons op l ih =>
    intro index B B' hB h
    cases h with
    | cons first rest =>
      cases first with
      | @operation _ _ _ _ V valid _ effect =>
        obtain ⟨hfunded, hcoins⟩ := effect.coins_eq hreserve valid hB.funded
        have hnext : Solvent supply ⟨V, B.fee⟩ := ⟨hfunded, hB.fee, by rw [hcoins, hB.sum]⟩
        obtain ⟨hB', hfee⟩ := ih hnext rest
        exact ⟨hB', hfee⟩

omit hreserve in
theorem refund_solvent (hsupply : supply < 2 ^ 63) (hchecked : TransactionFrm.Checked w env) (hB : Solvent supply B)
    (hlimit : env.transaction.feeLimit.toInt ≤ B.fee.toInt) (h : Step w test (.refund env) B B') :
    Solvent supply B' := by
  have hnonneg {actual : Int64}
      (h : safeIntMul (getSelfGas w env) env.transaction.gasPrice = some actual) :
      0 ≤ actual.toInt :=
    safeIntMul_nonneg (getSelfGas_nonneg hchecked) hchecked.gasPrice_nonneg h
  have hsum := hB.sum
  cases h with
  | kept => exact hB
  | @refund _ _ x actual extra fee balance actually left some_left source gives receives =>
    have hactual := hnonneg actually
    rw [safeIntSub_eq_some] at left gives
    rw [safeIntAdd_eq_some] at receives
    rw [le_iff_toInt_le, toInt_zero] at some_left
    have hx := hB.funded.nonneg _ _ source
    refine ⟨hB.funded.put (by change 0 ≤ balance.toInt; omega), by change 0 ≤ fee.toInt; omega, ?_⟩
    dsimp only
    rw [coins_put hB.funded source]
    change _ - _ + balance.toInt + _ = _
    omega
  | @lost _ _ x actual extra fee actually left some_left source gives overflows =>
    have hactual := hnonneg actually
    rw [safeIntSub_eq_some] at left
    rw [le_iff_toInt_le, toInt_zero] at some_left
    have hx := hB.funded.nonneg _ _ source
    have hle := hB.funded.balance_le source
    exact absurd overflows (safeIntAdd_ne_none (by omega) (by omega))

theorem transaction_solvent {tx : AppliedTx} (hsupply : supply < 2 ^ 63)
    (hB : Solvent supply B) (h : Path (Step w test) tx.causes B B') : Solvent supply B' := by
  have hcharged (h : Path (Step w test) [.charge tx.frm.transactionEnv] B B') : Solvent supply B' := by
    cases h with
    | cons first rest =>
      cases rest
      exact (charge_solvent hreserve hB first).1
  unfold AppliedTx.causes causesOf at h
  split at h
  · cases h with
    | cons first rest =>
      obtain ⟨hcharge, hchecked, hlimit, -⟩ := charge_solvent hreserve hB first
      obtain ⟨B₁, hoperations, hrefund⟩ := rest.of_append
      obtain ⟨hB₁, hfee⟩ := operations_solvent hreserve hcharge hoperations
      cases hrefund with
      | cons first rest =>
        cases rest
        exact refund_solvent hsupply hchecked hB₁ (by rwa [hfee]) first
  · exact hcharged h
  · exact hcharged h

theorem LedgerFrm.Stuck.outside {v : Verdict} {position : ℕ} {B₁ : Books} (hsupply : supply < 2 ^ 63)
    (hB : Solvent supply B) (hcharge : Step w test (.charge env) B B₁) (h : LedgerFrm.Stuck w test env v position B₁) :
    v = .failed ∧ ∃ op, env.transaction.operations[position]? = some op ∧ OverflowsOutside w op := by
  obtain ⟨hB₁, hchecked, hlimit, actual, hactual, henough⟩ := charge_solvent hreserve hB hcharge
  cases h with
  | gas fails =>
    rw [fails] at hactual
    cases hactual
  | operation failed fails =>
    obtain ⟨done, op, rest, V, hl, rfl, hvalid, hover, hpath⟩ := fails
    obtain ⟨hV, -⟩ := operations_solvent hreserve hB₁ (hpath B₁.fee)
    have hsum := hV.sum
    have hfee := hV.fee
    refine ⟨failed, op, by simp [hl], hover.outside hreserve hvalid hV.funded ?_⟩
    dsimp only at hsum hfee
    omega
  | @refund V path fails =>
    obtain ⟨hV, -⟩ := operations_solvent hreserve hB₁ path
    have hnonneg := safeIntMul_nonneg (getSelfGas_nonneg hchecked) hchecked.gasPrice_nonneg hactual
    have hlt := env.transaction.feeLimit.toInt_lt
    obtain ⟨extra, hextra⟩ := ne_none_iff_exists'.mp
      (safeIntSub_ne_none (x := env.transaction.feeLimit) (y := actual) (by omega) (by omega))
    obtain ⟨hleft, x, hx, hover⟩ := fails actual hactual extra hextra
    rw [safeIntSub_eq_some] at hextra
    rw [le_iff_toInt_le, toInt_zero] at hleft
    have hbalance := hV.funded.nonneg _ _ hx
    have hle := hV.funded.balance_le hx
    have hsum := hV.sum
    dsimp only at hle hsum hover
    rcases hover with hover | hover
    · exact absurd hover (safeIntSub_ne_none (by omega) (by omega))
    · exact absurd hover (safeIntAdd_ne_none (by omega) (by omega))

end Steps

/-- If the transaction reports an overflow, it failed at an operation that overflows without an addition to a
balance. -/
def AppliedTx.SparesBalances (w : World) (tx : AppliedTx) : Prop :=
  tx.frm.result.code = .mathOverflow → tx.verdict = .failed ∧ ∃ op,
    tx.frm.transactionEnv.transaction.operations[tx.frm.processingOperation]? = some op ∧ OverflowsOutside w op

theorem txCourse_solvent {w : World} {test : Bool} {supply : ℤ} {txs : List AppliedTx} {B B' : Books}
    (hreserve : 0 ≤ w.fees.baseReserve.toInt) (hsupply : supply < 2 ^ 63) (hB : Solvent supply B)
    (h : Path (LedgerFrm.TxCourse w test) txs B B') : Solvent supply B' ∧ ∀ tx ∈ txs, tx.SparesBalances w := by
  have hstep (tx : AppliedTx) (B B' : Books) (hB : Solvent supply B) (h : LedgerFrm.TxCourse w test tx B B') :
      Solvent supply B' ∧ tx.SparesBalances w := by
    refine ⟨transaction_solvent hreserve hsupply hB h.1, fun hcode => ?_⟩
    obtain ⟨B₁, hcharge, hstuck⟩ := h.2 hcode
    exact hstuck.outside hreserve hsupply hB hcharge
  exact ⟨h.invariant (fun tx B B' hB h => (hstep tx B B' hB h).1) hB, h.each hstep hB⟩

/-! ### The reward -/

section Reward
variable {w : World} {test : Bool} {V V' : Store} {a : Address} {h x : Holding}

theorem Receiver.coins_put (hthere : Receiver w V a h) (hV : Funded V) :
    0 ≤ h.balance.toInt ∧ h.balance.toInt ≤ coins V ∧
      coins (V.put a x) = coins V - h.balance.toInt + x.balance.toInt := by
  obtain hthere | ⟨hnone, rfl⟩ := hthere
  · exact ⟨hV.nonneg a h hthere, hV.balance_le hthere, OpenSesame.coins_put hV hthere⟩
  · have hzero : ((AccountFrm.creatAccountFrm a 0).holding w.db).balance.toInt = 0 := rfl
    have hcoins : 0 ≤ coins V := total_nonneg fun k v hk => hV.nonneg k v hk
    rw [coins_put_new hV hnone, hzero]
    exact ⟨le_refl 0, hcoins, by ring⟩

theorem rewards_funded {credits : List (Address × Int64)} :
    ∀ {B B' : Books}, (∀ c ∈ credits, 0 ≤ c.2.toInt) → Funded B.store → Path (Step w test) (rewards credits) B B' →
        Funded B'.store ∧ coins B'.store = coins B.store + (credits.map fun c => c.2.toInt).sum := by
  induction credits with
  | nil =>
    intro B B' _ hB h
    cases h
    simp [hB]
  | cons c credits ih =>
    intro B B' hcredits hB h
    obtain ⟨hc, hcredits⟩ := forall_mem_cons.mp hcredits
    cases h with
    | cons first rest =>
      cases first with
      | @reward _ _ balance _ h there receives =>
        rw [safeIntAdd_eq_some] at receives
        obtain ⟨hnonneg, -, hput⟩ := there.coins_put (x := h.setBalance balance) hB
        have hnext : Funded (B.store.put c.1 (h.setBalance balance)) := hB.put (by change 0 ≤ balance.toInt; omega)
        obtain ⟨hfunded, hcoins⟩ := ih hcredits hnext rest
        refine ⟨hfunded, ?_⟩
        rw [hcoins, map_cons, sum_cons]
        rw [hput]
        change _ - _ + balance.toInt + _ = _
        omega

theorem not_overflows {amount : Int64} (hV : Funded V) (hamount : 0 ≤ amount.toInt)
    (hroom : coins V + amount.toInt < 2 ^ 63) : ¬LedgerFrm.Overflows w V a amount := by
  rintro ⟨h, hthere, hover⟩
  obtain ⟨hnonneg, hle, -⟩ := hthere.coins_put (x := h) hV
  exact absurd hover (safeIntAdd_ne_none (by omega) (by omega))

theorem pays_in_full {total : Int64} {paid : Bool} (hV : Funded V) (htotal : 0 ≤ total.toInt)
    (hroom : coins V + total.toInt < 2 ^ 63)
    (hvalidators : ∃ l, w.previousValidators = some l ∧ l ≠ [] ∧ l.length < 2 ^ 31)
    (hpays : LedgerFrm.Pays w test total V V' paid) :
    paid = true ∧ Funded V' ∧ coins V' = coins V + total.toInt := by
  obtain ⟨l, hl, hne, hlength⟩ := hvalidators
  have hsplits : LedgerFrm.Splits w total := by
    refine ⟨htotal, fun l' hl' => ?_⟩
    obtain rfl := some.inj (hl.symm.trans hl')
    exact hlength
  cases hpays with
  | done hpaid hshares =>
    obtain ⟨hwithin, hsum⟩ := hshares hsplits
    obtain ⟨hfunded, hcoins⟩ := rewards_funded hwithin.nonneg hV (hpaid 0)
    exact ⟨rfl, hfunded, by rw [hcoins, hsum]⟩
  | @stuck credits a amount V₁ hpaid hover hshares =>
    have hwithin := hshares hsplits
    have hnonneg := hwithin.nonneg
    rw [forall_mem_append] at hnonneg
    obtain ⟨hfunded, hcoins⟩ := rewards_funded hnonneg.1 hV (hpaid 0)
    have hle := hwithin.sum_le
    rw [map_append, sum_append, map_singleton, List.sum_singleton] at hle
    have hamount : 0 ≤ amount.toInt := hnonneg.2 (a, amount) (by simp)
    refine absurd hover (not_overflows hfunded hamount ?_)
    dsimp only at hcoins hle
    omega
  | nobody hnone =>
    rcases hnone with hnone | hnone
    · rw [hl] at hnone
      cases hnone
    · obtain rfl := some.inj (hl.symm.trans hnone)
      exact absurd rfl hne

end Reward

/-! ### Whole blocks -/

noncomputable def AccountDb.coins (db : AccountDb) : ℤ := total (fun acc => acc.balance.toInt) db.account

/-- No account of the database is in debt. -/
def AccountDb.InCredit (db : AccountDb) : Prop := ∀ a acc, db.account a = some acc → 0 ≤ acc.balance.toInt

section Blocks
variable {w : World} {t : LedgerContext} {V V' : Store} {seq : Int64} {b : Block}

theorem coins_store (db : AccountDb) : coins db.store = db.coins := by
  refine total_congr fun a => ?_
  rcases hdb : db.account a with - | acc
  · rw [share_none hdb, share_none]
    simp [store, accountFromDB, hdb]
  · rw [share_some hdb, share_some (v := (AccountFrm.ofAccount acc).holding db)]
    · rfl
    · simp [store, accountFromDB, hdb]

theorem funded_store {db : AccountDb} (hfinite : FiniteMap db.account) (hcredit : db.InCredit) : Funded db.store := by
  refine ⟨hfinite.subset fun a ha => ?_, fun a h ha => ?_⟩
  · simpa [store, accountFromDB] using ha
  · obtain ⟨frm, hfrm, rfl⟩ := map_eq_some_iff.mp ha
    obtain ⟨acc, hacc, rfl⟩ := map_eq_some_iff.mp hfrm
    exact hcredit a acc hacc

theorem LedgerFrm.Course.coins_eq (h : LedgerFrm.Course w seq b V V') (hreserve : 0 ≤ w.fees.baseReserve.toInt)
    (hstart : Funded w.db.store) (hroom : coins w.db.store + (getBlockReward seq).toInt < 2 ^ 63)
    (hvalidators : ∃ l, w.previousValidators = some l ∧ l ≠ [] ∧ l.length < 2 ^ 31) :
    Funded V' ∧ coins V' = coins w.db.store + (getBlockReward seq).toInt ∧
      ∀ tx ∈ b.applyTxFrms, tx.SparesBalances w := by
  have hreward := getBlockReward_nonneg seq
  obtain ⟨hbooks, htxs⟩ : Solvent (coins w.db.store) ⟨V, b.totalFee⟩ ∧ _ :=
    txCourse_solvent hreserve (by omega) ⟨hstart, le_refl 0, by simp⟩ h.course
  have hV : Funded V := hbooks.funded
  have hfee : 0 ≤ b.totalFee.toInt := hbooks.fee
  have hsum : coins V + b.totalFee.toInt = coins w.db.store := hbooks.sum
  have hcoins : 0 ≤ coins V := total_nonneg fun k v hk => hV.nonneg k v hk
  have htotal : (b.totalFee + getBlockReward seq).toInt = b.totalFee.toInt + (getBlockReward seq).toInt :=
    toInt_add_of_range (by omega) (by omega)
  obtain ⟨hzero, rfl⟩ | ⟨paid, V₁, hpays, rfl⟩ := h.reward
  · rw [hzero, toInt_zero] at htotal
    exact ⟨hV, by omega, htxs⟩
  · obtain ⟨rfl, hfunded, hpaid⟩ := pays_in_full hV (by omega) (by omega) hvalidators hpays
    exact ⟨hfunded, by rw [if_pos rfl, hpaid]; omega, htxs⟩

theorem commit_coins (hkept : ∀ a, w.db.account a ≠ none → stored w t a ≠ none) :
    (w.db.commit t.envs).coins = coins (stored w t) ∧
      (Funded (stored w t) → FiniteMap (w.db.commit t.envs).account ∧ (w.db.commit t.envs).InCredit) := by
  refine ⟨total_congr fun a => ?_, fun hfunded => ⟨hfunded.finite.subset fun a ha => ?_, fun a acc hacc => ?_⟩⟩
  · rcases committed (hkept a) with ⟨hstored, haccount, -⟩ | ⟨frm, hstored, haccount, -⟩ | ⟨acc, hstored, haccount, -⟩
    · rw [share_none hstored, share_none haccount]
    · rw [share_some hstored, share_some haccount]
      rfl
    · rw [share_some hstored, share_some haccount]
      rfl
  · rcases committed (hkept a) with ⟨-, haccount, -⟩ | ⟨frm, hstored, -⟩ | ⟨acc, hstored, -⟩
    · exact absurd haccount ha
    · exact ne_of_eq_of_ne hstored nofun
    · exact ne_of_eq_of_ne hstored nofun
  · rcases committed (hkept a) with ⟨-, haccount, -⟩ | ⟨frm, hstored, haccount, -⟩ | ⟨acc', hstored, haccount, -⟩
    · rw [haccount] at hacc
      cases hacc
    · obtain rfl := some.inj (haccount.symm.trans hacc)
      exact hfunded.nonneg a _ hstored
    · obtain rfl := some.inj (haccount.symm.trans hacc)
      exact hfunded.nonneg a _ hstored

/-- The coins after the block are those before and the reward, no account is in debt, and no transaction of the block
overflows a balance. -/
structure Conserves (w : World) (seq : Int64) (b : Block) (t : LedgerContext) : Prop where
  coins : (w.db.commit t.envs).coins = w.db.coins + (getBlockReward seq).toInt
  credit : (w.db.commit t.envs).InCredit
  finite : FiniteMap (w.db.commit t.envs).account
  balances : ∀ tx ∈ b.applyTxFrms, tx.SparesBalances w

/-- A block that starts from accounts without debts, with room for the reward, and runs no script. -/
structure Premises (w : World) (request : ConsensusValue) : Prop where
  reserve : 0 ≤ w.fees.baseReserve.toInt
  finite : FiniteMap w.db.account
  credit : w.db.InCredit
  room : w.db.coins + (getBlockReward request.ledgerSeq).toInt < 2 ^ 63
  validators : ∃ l, w.previousValidators = some l ∧ l ≠ [] ∧ l.length < 2 ^ 31
  free : ∀ env ∈ request.txset, env.CodeFree w

variable {request : ConsensusValue} {fuel : ℕ} {clock : Clock}

theorem LedgerFrm.Course.conserves (h : LedgerFrm.Course w request.ledgerSeq b V (stored w t))
    (hw : Premises w request) : Conserves w request.ledgerSeq b t := by
  have hroom := hw.room
  rw [← coins_store] at hroom
  obtain ⟨hfunded, hcoins, htxs⟩ := h.coins_eq hw.reserve (funded_store hw.finite hw.credit) hroom hw.validators
  obtain ⟨hcommit, hdebts⟩ := commit_coins fun a ha => h.keeps ha
  exact ⟨by rw [hcommit, hcoins, coins_store], (hdebts hfunded).2, (hdebts hfunded).1, htxs⟩

theorem applyPropose_conserves (hw : Premises w request)
    (h : applyPropose w fuel clock request (.start request) = some (some b, t)) :
    Conserves w request.ledgerSeq b t := by
  obtain ⟨⟨V, hcourse⟩, -⟩ := applyPropose_course hw.free h
  exact hcourse.conserves hw

theorem applyCheck_conserves (hw : Premises w request)
    (h : applyCheck w fuel clock request (.start request) = some (some b, t)) :
    Conserves w request.ledgerSeq b t := by
  obtain ⟨⟨V, hcourse⟩, -⟩ := applyCheck_course hw.free h
  exact hcourse.conserves hw

/-! ### From the genesis account on -/

theorem createGenesisAccount_coins (account : Address) (validators : List Address) :
    FiniteMap (createGenesisAccount account validators).account ∧
      (createGenesisAccount account validators).InCredit ∧
      (createGenesisAccount account validators).coins = 100000000000000000 := by
  refine ⟨(account :: validators).finite_toSet.subset fun a ha => ?_, fun a acc hacc => ?_, ?_⟩
  · simp only [createGenesisAccount, Set.mem_ofPred_eq] at ha
    split_ifs at ha with haccount hvalidator
    · exact mem_cons.mpr (.inl haccount)
    · exact mem_cons_of_mem account hvalidator
    · exact absurd rfl ha
  · simp only [createGenesisAccount] at hacc
    split_ifs at hacc
    · obtain rfl := some.inj hacc
      exact Int.natCast_nonneg 100000000000000000
    · obtain rfl := some.inj hacc
      exact le_refl 0
  · rw [AccountDb.coins, total, finsum_eq_single _ account]
    · exact share_some (v := (AccountFrm.creatAccountFrm account 100000000000000000).info) (if_pos rfl)
    · intro a ha
      by_cases hvalidator : a ∈ validators
      · exact share_some (v := (AccountFrm.creatAccountFrm a 0).info) (by
          simp [createGenesisAccount, ha, hvalidator])
      · exact share_none (by simp [createGenesisAccount, ha, hvalidator])

/-- The ledgers up to a sequence: the genesis ledger, and blocks without scripts on top of it. -/
inductive Grown : ℕ → World → Prop
  | genesis {w : World} (account : Address) (validators : List Address)
      (db : w.db = createGenesisAccount account validators) : Grown 1 w
  | close {n : ℕ} {w w' : World} {fuel : ℕ} {clock : Clock} {request : ConsensusValue} {b : Block} {t : LedgerContext}
      (last : Grown n w) (seq : request.ledgerSeq = Int64.ofNat (n + 1)) (reserve : 0 ≤ w.fees.baseReserve.toInt)
      (validators : ∃ l, w.previousValidators = some l ∧ l ≠ [] ∧ l.length < 2 ^ 31)
      (free : ∀ env ∈ request.txset, env.CodeFree w)
      (applied : applyPropose w fuel clock request (.start request) = some (some b, t) ∨
        applyCheck w fuel clock request (.start request) = some (some b, t))
      (db : w'.db = w.db.commit t.envs) : Grown (n + 1) w'

theorem Grown.supply {n : ℕ} {w : World} (h : Grown n w) (hn : n + 2 ≤ 2 ^ 63) :
    FiniteMap w.db.account ∧ w.db.InCredit ∧
      w.db.coins ≤ 100000000000000000 + ∑ i ∈ Finset.range (n + 1), (getBlockReward (Int64.ofNat i)).toInt := by
  induction h with
  | genesis account validators db =>
    obtain ⟨hfinite, hcredit, hcoins⟩ := createGenesisAccount_coins account validators
    rw [db]
    have hsum : 0 ≤ ∑ i ∈ Finset.range (1 + 1), (getBlockReward (Int64.ofNat i)).toInt :=
      Finset.sum_nonneg fun i _ => getBlockReward_nonneg _
    exact ⟨hfinite, hcredit, by omega⟩
  | @close n w w' fuel clock request b t _ seq reserve validators free applied db ih =>
    obtain ⟨hfinite, hcredit, hcoins⟩ := ih (by omega)
    have hsupply := supply_lt (n := n + 2) (by omega)
    rw [Finset.sum_range_succ] at hsupply
    have hw : Premises w request := ⟨reserve, hfinite, hcredit, by rw [seq]; omega, validators, free⟩
    have hconserves : Conserves w request.ledgerSeq b t :=
      applied.elim (applyPropose_conserves hw) (applyCheck_conserves hw)
    rw [db, hconserves.coins, Finset.sum_range_succ, seq]
    exact ⟨hconserves.finite, hconserves.credit, by omega⟩

theorem Grown.room {n : ℕ} {w : World} (h : Grown n w) (hn : n + 2 ≤ 2 ^ 63) :
    w.db.coins + (getBlockReward (Int64.ofNat (n + 1))).toInt < 2 ^ 63 := by
  obtain ⟨-, -, hcoins⟩ := h.supply hn
  have hsupply := supply_lt (n := n + 2) hn
  rw [Finset.sum_range_succ] at hsupply
  omega

/-- Blocks without scripts neither make nor destroy coins: what all accounts have grows by the block reward, nobody is
in debt afterwards, and no addition to a balance overflows. A block is followed only if it was accepted. The supply
stays below the limit for ever, so that every block without scripts on top of the genesis ledger finds the room it needs. -/
theorem coins_conserved (fuel : ℕ) (clock : Clock) (request : ConsensusValue) (hw : Premises w request) :
    (∀ b t, applyPropose w fuel clock request (.start request) = some (some b, t) →
      Conserves w request.ledgerSeq b t) ∧
    (∀ b t, applyCheck w fuel clock request (.start request) = some (some b, t) → Conserves w request.ledgerSeq b t ∧
      ∃ c u, applyFollow w fuel request (.start request) = some (some c, u) ∧ Conserves w request.ledgerSeq c u) ∧
    (∀ n ≤ 2 ^ 63, (100000000000000000 : ℤ) + ∑ i ∈ Finset.range n, (getBlockReward (Int64.ofNat i)).toInt < 2 ^ 63) ∧
    ∀ n w', Grown n w' → n + 2 ≤ 2 ^ 63 → FiniteMap w'.db.account ∧ w'.db.InCredit ∧
      w'.db.coins + (getBlockReward (Int64.ofNat (n + 1))).toInt < 2 ^ 63 := by
  refine ⟨fun b t h => applyPropose_conserves hw h, fun b t h => ?_, fun n hn => supply_lt hn, fun n w' hgrown hn => ?_⟩
  · obtain ⟨-, -, hplain⟩ := applyCheck_course hw.free h
    have hconserves := applyCheck_conserves hw h
    obtain ⟨c, u, hfollow, henvs, hagree⟩ := applyFollow_of_applyCheck h hplain
    refine ⟨hconserves, c, u, hfollow, by rw [henvs]; exact hconserves.coins, by rw [henvs]; exact hconserves.credit,
      by rw [henvs]; exact hconserves.finite, fun tx htx hcode => ?_⟩
    obtain ⟨tx', htx', halike⟩ := hagree.overflows tx htx hcode
    rw [halike.verdict, halike.env, halike.position]
    exact hconserves.balances tx' htx' (halike.code.symm.trans hcode)
  · obtain ⟨hfinite, hcredit, -⟩ := hgrown.supply hn
    exact ⟨hfinite, hcredit, hgrown.room hn⟩

end Blocks

/-! ### A payment, and a block that is followed without being accepted -/

section Examples

/-- The genesis account pays five coins to a new one. -/
def coinValue (feeLimit : Int64) : ConsensusValue where
  txset := [{ transaction :=
    { sourceAddress := "g", nonce := 1, feeLimit := feeLimit, gasPrice := 1
      operations := [{ type := .payCoin, payCoin := { destAddress := "d", amount := 5 } }] } }]
  closeTime := 0
  ledgerSeq := 2

def coinWorld (balance : Int64) : World :=
  smallWorld (smallDb [{ address := "g", balance := balance, priv := some ownPriv }]) idleEngine

theorem coinWorld_account {balance : Int64} {a : Address} {acc : Account}
    (h : (coinWorld balance).db.account a = some acc) :
    a = "g" ∧ acc = { address := "g", balance := balance, priv := some ownPriv } := by
  simp only [coinWorld, smallWorld, smallDb, List.find?_cons] at h
  split at h
  · rename_i heq
    exact ⟨by simpa using (beq_iff_eq.mp heq).symm, (some.inj h).symm⟩
  · cases h

theorem coinWorld_finite (balance : Int64) : FiniteMap (coinWorld balance).db.account := by
  refine (Set.finite_singleton "g").subset fun a ha => ?_
  obtain ⟨acc, hacc⟩ := ne_none_iff_exists'.mp ha
  exact (coinWorld_account hacc).1

theorem coinWorld_inCredit {balance : Int64} (h : 0 ≤ balance.toInt) : (coinWorld balance).db.InCredit := by
  intro a acc hacc
  obtain ⟨-, rfl⟩ := coinWorld_account hacc
  exact h

theorem coinWorld_coins (balance : Int64) : (coinWorld balance).db.coins = balance.toInt := by
  have hself : (coinWorld balance).db.account "g" = some { address := "g", balance := balance, priv := some ownPriv } :=
    rfl
  rw [AccountDb.coins, total, finsum_eq_single _ "g"]
  · exact share_some hself
  · intro a ha
    rcases hacc : (coinWorld balance).db.account a with - | acc
    · exact share_none hacc
    · exact absurd (coinWorld_account hacc).1 ha

theorem coinValue_free (feeLimit : Int64) (w : World) (hcode : w.db.account "d" = none) :
    ∀ env ∈ (coinValue feeLimit).txset, env.CodeFree w := by
  intro env henv op hop
  obtain rfl := mem_singleton.mp henv
  obtain rfl := mem_singleton.mp hop
  refine ⟨by simp, fun _ acc hacc => ?_, by simp⟩
  rw [hcode] at hacc
  cases hacc

theorem coinWorld_applied :
    ∃ b t, applyCheck (coinWorld 1000) 20 earlyClock (coinValue 100) (.start (coinValue 100)) = some (some b, t) ∧
      b.verdicts = [.applied] := by
  have hrun : (applyCheck (coinWorld 1000) 20 earlyClock (coinValue 100) (.start (coinValue 100))).any
      (fun r => r.1.any fun b => b.verdicts == [.applied]) = true := by
    decide +kernel
  obtain ⟨⟨found, t⟩, h, hfound⟩ := (any_eq_true _ _).mp hrun
  obtain ⟨b, rfl, hverdicts⟩ := (any_eq_true _ _).mp hfound
  exact ⟨b, t, h, by simpa using hverdicts⟩

theorem coins_conserved_payment :
    ∃ b t, applyCheck (coinWorld 1000) 20 earlyClock (coinValue 100) (.start (coinValue 100)) =
      some (some b, t) ∧ b.verdicts = [.applied] ∧ Conserves (coinWorld 1000) 2 b t := by
  obtain ⟨b, t, h, hverdicts⟩ := coinWorld_applied
  refine ⟨b, t, h, hverdicts, ?_⟩
  have hconserved := coins_conserved (w := coinWorld 1000) 20 earlyClock (coinValue 100)
    { reserve := by decide
      finite := coinWorld_finite 1000
      credit := coinWorld_inCredit (by decide)
      room := by rw [coinWorld_coins]; decide
      validators := ⟨[⟨"v", 0⟩], rfl, by simp, by simp⟩
      free := coinValue_free 100 _ rfl }
  exact (hconserved.2.1 b t h).1

/-- The world before the reward went to the validators' contract. -/
def directWorld : World := { coinWorld 10 with version := 1002 }

theorem directWorld_reward {totalFee : Int64} {ok : Bool} {s t : LedgerContext} (hs : Resting directWorld s)
    (hpays : (totalFee + getBlockReward s.ledgerSeq == 0 || s.isTestMode) = false)
    (hnone : stored directWorld s "v" = none) (h : allocateReward directWorld totalFee s = some (ok, t)) :
    ∃ x : Holding, x.balance = totalFee + getBlockReward s.ledgerSeq ∧
      stored directWorld t = (stored directWorld s).put "v" x := by
  obtain ⟨hskip, -⟩ | ⟨-, paid, v, hpaid, hend⟩ := allocateReward_eq_some h
  · rw [hpays] at hskip
    cases hskip
  generalize totalFee + getBlockReward s.ledgerSeq = total at hpaid
  rw [← hs.settled] at hnone ⊢
  have hself : total / Int64.ofNat 1 = total := Int64.div_one
  have hnew {x : Holding} (hx : Receiver directWorld (seen directWorld s) "v" x) : x.balance = 0 := by
    obtain hx | ⟨-, rfl⟩ := hx
    · rw [hnone] at hx
      cases hx
    · rfl
  obtain ⟨r, u, haverage, hleft⟩ :=
    StateOption.of_bind (m := allocateAverage directWorld (total / Int64.ofNat 1) [⟨"v", 0⟩] total) hpaid
  rw [hself] at haverage
  obtain ⟨rfl, hpath⟩ | ⟨-, before, next, V, hpre, hpath, x, hx, hover⟩ := allocateAverage_pays false haverage
  · have hzero : total - total ≤ 0 := by simp
    obtain ⟨rfl, -, rfl⟩ | ⟨hpositive, -⟩ := allocateLeft_pays (w := directWorld) false hleft
    swap
    · exact absurd hzero hpositive
    obtain ⟨hflag, -⟩ | ⟨-, rfl⟩ := hend
    · cases hflag
    rw [stored_commit]
    generalize seen directWorld v = V at hpath ⊢
    rcases hpath 0 with - | ⟨hstep, hend⟩
    cases hend
    cases hstep with
    | reward there received =>
      rw [hnew there, safeIntAdd_eq_some, toInt_zero, zero_add] at received
      exact ⟨_, toInt_inj.mp received, rfl⟩
  · obtain rfl : before = [] := by
      have hlength := hpre.length_le
      simpa using hlength
    cases hpath 0
    obtain rfl : next = ⟨"v", 0⟩ := by simpa using hpre
    rw [hnew hx] at hover
    exact absurd hover (safeIntAdd_ne_none (by simpa using total.le_toInt) (by simpa using total.toInt_lt))

theorem payFee_unpaid {w : World} {env : TransactionEnv} {totalFee total : Int64} {source : AccountFrm}
    {s u : LedgerContext} (hfound : getEntry w 0 env.transaction.sourceAddress s = some (some source, u))
    (hadd : safeIntAdd totalFee env.transaction.feeLimit = some total)
    (hsub : safeIntSub source.balance env.transaction.feeLimit = none) :
    payFee w env totalFee s = some ((some .mathOverflow, total), u) := by
  refine StateOption.bind_run hfound ?_
  simp only [hadd, hsub]
  rfl

theorem directWorld_follow : ∃ t, applyFollow directWorld 20 (coinValue minValue) (.start (coinValue minValue)) =
      some (some { totalFee := minValue }, t) ∧ ∃ x : Holding, x.balance = minValue + 800000000 ∧
        stored directWorld t = directWorld.db.store.put "v" x := by
  have hrun : (applyFollow directWorld 20 (coinValue minValue) (.start (coinValue minValue))).isSome = true := by
    decide +kernel
  have hfound : (getEntry directWorld 0 "g" (.start (coinValue minValue))).any
      (fun r => r.1.any fun frm => frm.balance == 10) = true := by
    decide +kernel
  obtain ⟨⟨found, t⟩, hfollow⟩ := isSome_iff_exists.mp hrun
  obtain ⟨⟨_, u⟩, hget, hfound⟩ := (any_eq_true _ _).mp hfound
  obtain ⟨source, rfl, hbalance⟩ := (any_eq_true _ _).mp hfound
  have hsub : safeIntSub source.balance minValue = none := by
    rw [beq_iff_eq.mp hbalance]
    rfl
  have hloop : followLoop directWorld 20 [] 0 (coinValue minValue).txset {} (.start (coinValue minValue)) =
      some ({ totalFee := minValue }, u) :=
    StateOption.bind_run (payFee_unpaid hget rfl hsub) rfl
  obtain ⟨b, u', hloop', h⟩ := StateOption.of_bind
    (m := followLoop directWorld 20 [] 0 (coinValue minValue).txset {}) hfollow
  rw [hloop] at hloop'
  cases hloop'
  obtain ⟨ok, t', hreward, h⟩ := StateOption.of_bind h
  cases h
  have hreads := getEntry_reads hget
  have hseq : u.ledgerSeq = 2 := hreads.ledgerSeq
  have hstored : stored directWorld u = directWorld.db.store := hreads.stored
  obtain ⟨x, hx, hput⟩ := directWorld_reward (hreads.resting (resting_start _ _ _))
    (by rw [hseq, hreads.isTestMode]; rfl) (by rw [hstored]; rfl) hreward
  rw [hseq] at hx
  rw [hstored] at hput
  exact ⟨t, hfollow, x, hx, hput⟩

/-- `ApplyFollow` checks nothing: a fee that is not paid counts as taken, and the reward takes it from the validators.
And with a negative base reserve the accepted blocks leave debts. -/
theorem coins_follow_unchecked :
    (∀ w ∈ [directWorld, { coinWorld 10 with fees := ⟨1, -1000⟩ }], FiniteMap w.db.account ∧ w.db.InCredit ∧
      w.db.coins + (getBlockReward 2).toInt < 2 ^ 63 ∧ ∀ feeLimit, ∀ env ∈ (coinValue feeLimit).txset, env.CodeFree w) ∧
    (∃ b t, applyFollow directWorld 20 (coinValue minValue) (.start (coinValue minValue)) = some (some b, t) ∧
      (directWorld.db.commit t.envs).coins ≠ directWorld.db.coins + (getBlockReward 2).toInt ∧
      ¬(directWorld.db.commit t.envs).InCredit) ∧
    ∃ b t acc, applyCheck { coinWorld 10 with fees := ⟨1, -1000⟩ } 20 earlyClock (coinValue 100)
        (.start (coinValue 100)) = some (some b, t) ∧
      ((coinWorld 10).db.commit t.envs).account "g" = some acc ∧ acc.balance = -5 := by
  refine ⟨?_, ?_, ?_⟩
  · intro w hw
    obtain ⟨hdb, hnone⟩ : w.db = (coinWorld 10).db ∧ w.db.account "d" = none := by
      rcases mem_pair.mp hw with rfl | rfl <;> exact ⟨rfl, rfl⟩
    rw [hdb]
    exact ⟨coinWorld_finite 10, coinWorld_inCredit (by decide), by rw [coinWorld_coins]; decide,
      fun feeLimit => coinValue_free feeLimit w hnone⟩
  · obtain ⟨t, h, x, hx, hput⟩ := directWorld_follow
    have hkept (a : Address) (ha : directWorld.db.account a ≠ none) : stored directWorld t a ≠ none := by
      obtain ⟨acc, hacc : (coinWorld 10).db.account a = some acc⟩ := ne_none_iff_exists'.mp ha
      obtain ⟨rfl, -⟩ := coinWorld_account hacc
      rw [hput, put_of_ne _ (by decide)]
      exact some_ne_none _
    obtain ⟨hcommit, -⟩ := commit_coins hkept
    have hfunded : Funded directWorld.db.store := funded_store (coinWorld_finite 10) (coinWorld_inCredit (by decide))
    have hbefore : directWorld.db.coins = 10 := coinWorld_coins 10
    have hbalance : (minValue + 800000000).toInt = -2 ^ 63 + 800000000 := by decide
    have hreward : 0 ≤ (getBlockReward 2).toInt := getBlockReward_nonneg 2
    rw [hput, coins_put_new hfunded rfl, coins_store, hbefore, hx, hbalance] at hcommit
    refine ⟨_, t, h, by omega, fun hcredit => ?_⟩
    have hnonneg : 0 ≤ (directWorld.db.commit t.envs).coins := total_nonneg fun a acc hacc => hcredit a acc hacc
    omega
  · have hrun : (applyCheck { coinWorld 10 with fees := ⟨1, -1000⟩ } 20 earlyClock (coinValue 100)
        (.start (coinValue 100))).any (fun r => r.1.isSome &&
          (((coinWorld 10).db.commit r.2.envs).account "g").any fun acc => acc.balance == -5) = true := by
      decide +kernel
    obtain ⟨⟨found, t⟩, h, hfound⟩ := (any_eq_true _ _).mp hrun
    obtain ⟨hsome, haccount⟩ := Bool.and_eq_true_iff.mp hfound
    obtain ⟨b, rfl⟩ := isSome_iff_exists.mp hsome
    obtain ⟨acc, hacc, hbalance⟩ := (any_eq_true _ _).mp haccount
    exact ⟨b, t, acc, h, hacc, by simpa using hbalance⟩

end Examples

end OpenSesame
