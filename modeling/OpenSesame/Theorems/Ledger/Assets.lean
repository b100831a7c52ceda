import OpenSesame.Theorems.Ledger.Coins

/-! # Assets

What all accounts have of an asset changes by what is issued of it. -/

namespace OpenSesame
open Protocol OperationFrm LedgerFrm List

def Holding.units (key : AssetKey) (h : Holding) : ℤ := ((h.asset key).getD 0).toInt

noncomputable def units (key : AssetKey) (V : Store) : ℤ := total (Holding.units key) V

namespace Holding
variable {key : AssetKey} {h : Holding}

theorem units_of_eq {amount : Int64} (hamount : h.asset key = some amount) : h.units key = amount.toInt := by
  rw [units, hamount, Option.getD_some]

theorem units_setAsset (amount : Int64) : (h.setAsset key (some amount)).units key = amount.toInt :=
  units_of_eq (Function.update_self ..)

theorem units_setAsset_of_ne {key' : AssetKey} (hne : key ≠ key') (r : Option Int64) :
    (h.setAsset key' r).units key = h.units key := by
  change ((Function.update h.asset key' r key).getD 0).toInt = _
  rw [Function.update_of_ne hne]
  rfl

end Holding

theorem toInt_received {there : Option Int64} {amount now : Int64} (h : Received there amount now) :
    now.toInt = (there.getD 0).toInt + amount.toInt := by
  cases there with
  | none =>
    obtain rfl : now = amount := h
    simp
  | some held => exact SafeInt.safeIntAdd_eq_some.mp h

/-- The accounts of the database are filed under their addresses, and nothing is filed under an address without an
account. -/
structure AccountDb.Sound (db : AccountDb) : Prop where
  finite : FiniteMap db.account
  filed : ∀ a acc, db.account a = some acc → acc.address = a
  assets : ∀ a, db.account a = none → ∀ key, db.asset a key = none
  nonneg : ∀ a key amount, db.asset a key = some amount → 0 ≤ amount.toInt

/-- The accounts are filed under their addresses, those of the database are among them, and none has less than
nothing. -/
structure Stocked (w : World) (key : AssetKey) (V : Store) : Prop where
  finite : FiniteMap V
  filed : Each (fun a h => h.address = a) V
  nonneg : Each (fun _ h => 0 ≤ h.units key) V
  kept : ∀ a, w.db.account a ≠ none → V a ≠ none

section Stores
variable {w : World} {key : AssetKey} {V : Store} {a b : Address} {x y : Holding}

theorem units_put (h : Stocked w key V) (ha : V a = some y) :
    units key (V.put a x) = units key V - y.units key + x.units key := by
  rw [units, Store.put, total_update h.finite, share_some ha]
  rfl

theorem Stocked.put (h : Stocked w key V) (haddress : x.address = a) (hx : 0 ≤ x.units key) :
    Stocked w key (V.put a x) where
  finite := h.finite.update a (some x)
  filed := h.filed.put haddress
  nonneg := h.nonneg.put hx
  kept b hb := Store.put_ne_none (h.kept b hb)

theorem Stocked.aside (h : Stocked w key V) (x' : Holding) (ha : V a = some x) (haddress : x'.address = x.address)
    (hx : x'.units key = x.units key) : Stocked w key (V.put a x') ∧ units key (V.put a x') = units key V := by
  refine ⟨h.put (haddress.trans (h.filed a x ha)) (hx ▸ h.nonneg a x ha), ?_⟩
  rw [units_put h ha, hx]
  omega

theorem Stocked.open_account (h : Stocked w key V) (hdb : w.db.Sound) (ha : V a = none) (haddress : x.address = a)
    (hasset : x.asset = w.db.asset a) : Stocked w key (V.put a x) ∧ units key (V.put a x) = units key V := by
  have hnone : w.db.account a = none := by
    by_contra hsome
    exact h.kept a hsome ha
  have hx : x.units key = 0 := by rw [Holding.units, hasset, hdb.assets a hnone]; rfl
  refine ⟨h.put haddress hx.ge, ?_⟩
  rw [units, Store.put, total_update h.finite, share_none ha, hx]
  simp [units]

end Stores

/-! ### Operations -/

/-- What an operation issues of an asset. -/
def issuedBy (key : AssetKey) (tran : Transaction) (op : Operation) : ℤ :=
  if op.type = .issueAsset ∧ key = { issuer := sourceAddress tran op, code := op.issueAsset.code } then
    op.issueAsset.amount.toInt
  else 0

section Effects
variable {w : World} {key : AssetKey} {tran : Transaction} {index n : ℕ} {op : Operation} {V V' : Store}

theorem issuedBy_of_type (h : op.type ≠ .issueAsset) : issuedBy key tran op = 0 := if_neg fun hissue => h hissue.1

theorem Effect.units_eq (heffect : Effect w tran index op V V') (hdb : w.db.Sound)
    (hvalid : (checkValid w op (sourceAddress tran op) n).code = .success) (hV : Stocked w key V) :
    Stocked w key V' ∧ units key V' = units key V + issuedBy key tran op := by
  have hsame {V' : Store} (hother : op.type ≠ .issueAsset) (h : Stocked w key V' ∧ units key V' = units key V) :
      Stocked w key V' ∧ units key V' = units key V + issuedBy key tran op := by
    rwa [issuedBy_of_type hother, add_zero]
  cases heffect with
  | idle type =>
    refine hsame (fun htype => ?_) ⟨hV, rfl⟩
    rw [htype] at type
    simp at type
  | @create src limit balance type source fresh =>
    refine hsame (by simp [type]) ?_
    obtain ⟨hfirst, hunits⟩ := hV.aside (src.setBalance balance) source rfl rfl
    have hne : newAddress w tran index op.createAccount ≠ sourceAddress tran op := by
      intro heq
      rw [heq, source] at fresh
      cases fresh
    obtain ⟨hsecond, hunits'⟩ := hfirst.open_account hdb (by rwa [Store.put_of_ne _ hne])
      (newAccount_address w.db op.createAccount (newAddress w tran index op.createAccount)) (newAccount_asset ..)
    exact ⟨hsecond, hunits'.trans hunits⟩
  | @payCoin src dst V₁ least paid received type source lowest enough dest pays there =>
    refine hsame (by simp [type]) ?_
    obtain ⟨-, hne⟩ := checkValid_payCoin hvalid type
    have hbefore : Stocked w key V₁ ∧ units key V₁ = units key V ∧ V₁ (sourceAddress tran op) = some src := by
      obtain ⟨-, rfl⟩ | ⟨hnone, -, rfl⟩ := dest
      · exact ⟨hV, rfl, source⟩
      · obtain ⟨hopen, hunits⟩ := hV.open_account
          (x := (AccountFrm.creatAccountFrm op.payCoin.destAddress 0).holding w.db) hdb hnone rfl rfl
        exact ⟨hopen, hunits, by rwa [Store.put_of_ne _ hne]⟩
    obtain ⟨hV₁, hunits, hsource⟩ := hbefore
    obtain ⟨hfirst, hunits'⟩ := hV₁.aside (src.setBalance paid) hsource rfl rfl
    obtain ⟨hsecond, hunits''⟩ := hfirst.aside (dst.setBalance received) there rfl rfl
    exact ⟨hsecond, (hunits''.trans hunits').trans hunits⟩
  | payNothing type => exact hsame (by simp [type]) ⟨hV, rfl⟩
  | @payAsset src dst asset held paid received type source dest asset_eq holds pays enough there receives =>
    refine hsame (by simp [type]) ?_
    obtain ⟨hamount, hne⟩ := checkValid_payAsset hvalid type asset_eq
    rw [SafeInt.safeIntSub_eq_some] at pays
    rw [Int64.lt_iff_toInt_lt, Int64.toInt_zero] at enough
    have hreceived := toInt_received receives
    by_cases hkey : key = asset.assetKey
    · subst hkey
      have hdst : 0 ≤ dst.units asset.assetKey := by
        rw [Store.put_of_ne _ hne.symm] at there
        exact hV.nonneg _ _ there
      rw [Holding.units] at hdst
      have haddress : src.address = sourceAddress tran op := hV.filed _ _ source
      have hfirst : Stocked w asset.assetKey
          (V.put (sourceAddress tran op) (src.setAsset asset.assetKey (some paid))) :=
        hV.put haddress (by rw [Holding.units_setAsset]; omega)
      have haddress' : dst.address = op.payAsset.destAddress := hfirst.filed _ _ there
      refine ⟨hfirst.put haddress' (by rw [Holding.units_setAsset]; omega), ?_⟩
      rw [units_put hfirst there, units_put hV source, Holding.units_setAsset, Holding.units_setAsset,
        Holding.units_of_eq holds]
      unfold Holding.units
      omega
    · obtain ⟨hfirst, hunits⟩ := hV.aside (src.setAsset asset.assetKey (some paid)) source rfl
        (Holding.units_setAsset_of_ne hkey _)
      obtain ⟨hsecond, hunits'⟩ := hfirst.aside (dst.setAsset asset.assetKey (some received)) there rfl
        (Holding.units_setAsset_of_ne hkey _)
      exact ⟨hsecond, hunits'.trans hunits⟩
  | @issue src amount type source receives =>
    have hamount := checkValid_issueAsset hvalid type
    have hreceived := toInt_received receives
    have haddress : src.address = sourceAddress tran op := hV.filed _ _ source
    by_cases hkey : key = { issuer := src.address, code := op.issueAsset.code }
    · have hissued : issuedBy key tran op = op.issueAsset.amount.toInt := if_pos ⟨type, by rw [hkey, haddress]⟩
      subst hkey
      have hsrc : 0 ≤ src.units { issuer := src.address, code := op.issueAsset.code } := hV.nonneg _ _ source
      rw [Holding.units] at hsrc
      refine ⟨hV.put haddress (by rw [Holding.units_setAsset]; omega), ?_⟩
      rw [units_put hV source, Holding.units_setAsset, hissued]
      unfold Holding.units
      omega
    · have hissued : issuedBy key tran op = 0 := by
        refine if_neg fun h => hkey ?_
        rw [h.2, haddress]
      rw [hissued, add_zero]
      exact hV.aside _ source rfl (Holding.units_setAsset_of_ne hkey _)
  | metadata type source => exact hsame (by simp [type]) (hV.aside _ source rfl rfl)
  | privilege type source =>
    refine hsame (fun htype => ?_) (hV.aside _ source rfl rfl)
    simp [privilegeChange, htype] at type

end Effects

/-! ### Blocks -/

def Cause.issued (key : AssetKey) : Cause → ℤ
  | .operation env _ op => issuedBy key env.transaction op
  | _ => 0

/-- What the transactions that were committed issue of an asset. -/
def issuedIn (key : AssetKey) (txs : List AppliedTx) : ℤ :=
  ((txs.filter fun tx => tx.verdict = .applied).map fun tx =>
    (tx.frm.transactionEnv.transaction.operations.map (issuedBy key tx.frm.transactionEnv.transaction)).sum).sum

section Blocks
variable {w : World} {test : Bool} {key : AssetKey} {V V' : Store} {B B' : Books}

theorem Step.units_eq {cause : Cause} (hstep : Step w test cause B B') (hdb : w.db.Sound) (hB : Stocked w key B.store) :
    Stocked w key B'.store ∧ units key B'.store = units key B.store + cause.issued key := by
  cases hstep with
  | @charge _ _ h balance _ _ _ source =>
    obtain ⟨hB', hunits⟩ := hB.aside (h.setBalance balance).nonceIncrease source rfl rfl
    exact ⟨hB', hunits.trans (add_zero _).symm⟩
  | operation valid _ effect => exact effect.units_eq hdb valid hB
  | kept => exact ⟨hB, (add_zero _).symm⟩
  | @refund _ _ h _ _ _ balance _ _ _ source =>
    obtain ⟨hB', hunits⟩ := hB.aside (h.setBalance balance) source rfl rfl
    exact ⟨hB', hunits.trans (add_zero _).symm⟩
  | lost => exact ⟨hB, (add_zero _).symm⟩
  | @reward a _ balance _ h there =>
    suffices hput : Stocked w key (B.store.put a (h.setBalance balance)) ∧
        units key (B.store.put a (h.setBalance balance)) = units key B.store from
      ⟨hput.1, hput.2.trans (add_zero _).symm⟩
    obtain hthere | ⟨hnone, rfl⟩ := there
    · exact hB.aside (h.setBalance balance) hthere rfl rfl
    · exact hB.open_account hdb hnone rfl rfl

theorem path_units {causes : List Cause} (hdb : w.db.Sound) (hB : Stocked w key B.store)
    (h : Path (Step w test) causes B B') :
    Stocked w key B'.store ∧ units key B'.store = units key B.store + (causes.map (Cause.issued key)).sum := by
  have hstep (cause : Cause) (B B' : Books) (hB : Stocked w key B.store) (h : Step w test cause B B') :=
    h.units_eq hdb hB
  exact ⟨h.invariant (I := fun B => Stocked w key B.store) (fun _ _ _ hB h => (hstep _ _ _ hB h).1) hB,
    h.sum (q := fun B => units key B.store) (I := fun B => Stocked w key B.store) hstep hB⟩

theorem sum_issued_causes (tx : AppliedTx) : (tx.causes.map (Cause.issued key)).sum = if tx.verdict = .applied then
        (tx.frm.transactionEnv.transaction.operations.map (issuedBy key tx.frm.transactionEnv.transaction)).sum
      else 0 := by
  have hoperations (env : TransactionEnv) (l : List Operation) : ∀ index,
      (operationCauses env index l).map (Cause.issued key) = l.map (issuedBy key env.transaction) := by
    induction l with
    | nil => exact fun _ => rfl
    | cons op l ih =>
      intro index
      rw [operationCauses, map_cons, map_cons, ih]
      rfl
  unfold AppliedTx.causes causesOf
  split
  · rename_i hverdict
    rw [if_pos hverdict, map_cons, sum_cons, map_append, sum_append, hoperations]
    simp [Cause.issued]
  · rename_i hverdict
    simp [hverdict, Cause.issued]
  · rename_i hverdict
    simp [hverdict, Cause.issued]

theorem sum_issued (txs : List AppliedTx) :
    ((txs.flatMap AppliedTx.causes).map (Cause.issued key)).sum = issuedIn key txs := by
  induction txs with
  | nil => rfl
  | cons tx txs ih =>
    rw [flatMap_cons, map_append, sum_append, ih, sum_issued_causes, issuedIn, issuedIn, filter_cons]
    by_cases hverdict : tx.verdict = .applied <;> simp [hverdict]

theorem LedgerFrm.Course.units_eq {seq : Int64} {b : Block} (h : LedgerFrm.Course w seq b V V') (hdb : w.db.Sound)
    (hstart : Stocked w key w.db.store) :
    Stocked w key V' ∧ units key V' = units key w.db.store + issuedIn key b.applyTxFrms := by
  obtain ⟨hV, hunits⟩ := path_units hdb hstart h.path.flatten
  rw [sum_issued] at hunits
  obtain ⟨-, rfl⟩ | ⟨paid, V₁, hpays, rfl⟩ := h.reward
  · exact ⟨hV, hunits⟩
  · cases hpays with
    | @done credits hpaid =>
      obtain ⟨hV₁, hpaid⟩ := path_units hdb hV (hpaid b.totalFee)
      have hnothing : ((rewards credits).map (Cause.issued key)).sum = 0 := by
        refine sum_eq_zero fun x hx => ?_
        obtain ⟨cause, hcause, rfl⟩ := mem_map.mp hx
        obtain ⟨c, -, rfl⟩ := mem_map.mp hcause
        rfl
      rw [hnothing, add_zero] at hpaid
      exact ⟨hV₁, hpaid.trans hunits⟩
    | stuck => exact ⟨hV, hunits⟩
    | nobody => exact ⟨hV, hunits⟩

/-! ### Reading the amounts back -/

noncomputable def AccountDb.units (db : AccountDb) (key : AssetKey) : ℤ := ∑ᶠ a, ((db.asset a key).getD 0).toInt

variable {db : AccountDb} {a : Address}

theorem store_eq_some {h : Holding} (ha : db.store a = some h) :
    ∃ acc, db.account a = some acc ∧ h = (AccountFrm.ofAccount acc).holding db := by
  obtain ⟨frm, hfrm, rfl⟩ := Option.map_eq_some_iff.mp ha
  obtain ⟨acc, hacc, rfl⟩ := Option.map_eq_some_iff.mp hfrm
  exact ⟨acc, hacc, rfl⟩

theorem store_eq_none : db.store a = none ↔ db.account a = none := by
  simp [AccountDb.store, AccountDb.accountFromDB]

theorem units_ofAccount (hdb : db.Sound) {acc : Account} (hacc : db.account a = some acc) :
    ((AccountFrm.ofAccount acc).holding db).units key = ((db.asset a key).getD 0).toInt := by
  change ((db.asset acc.address key).getD 0).toInt = _
  rw [hdb.filed a acc hacc]

theorem getD_asset_nonneg (hdb : db.Sound) (a : Address) : 0 ≤ ((db.asset a key).getD 0).toInt := by
  rcases hasset : db.asset a key with - | amount
  · exact le_refl 0
  · exact hdb.nonneg a key amount hasset

theorem units_store (hdb : db.Sound) : units key db.store = db.units key := by
  refine finsum_congr fun a => ?_
  rcases hstore : db.store a with - | h
  · rw [share_none hstore, hdb.assets a (store_eq_none.mp hstore) key]
    rfl
  · obtain ⟨acc, hacc, rfl⟩ := store_eq_some hstore
    rw [share_some hstore, units_ofAccount hdb hacc]

theorem stocked_store (key : AssetKey) (hdb : w.db.Sound) : Stocked w key w.db.store where
  finite := by
    refine hdb.finite.subset fun a ha hnone => ?_
    exact ha (store_eq_none.mpr hnone)
  filed := by
    intro a h ha
    obtain ⟨acc, hacc, rfl⟩ := store_eq_some ha
    exact hdb.filed a acc hacc
  nonneg := by
    intro a h ha
    obtain ⟨acc, hacc, rfl⟩ := store_eq_some ha
    rw [units_ofAccount hdb hacc]
    exact getD_asset_nonneg hdb a
  kept a ha hnone := ha (store_eq_none.mp hnone)

theorem getD_assetsAfter (frm : AccountFrm) (db : AccountDb) :
    ((frm.assetsAfter db key).getD 0).toInt = (frm.holding db).units key := by
  change _ = (((frm.assets key).getD (db.asset frm.info.address key)).getD 0).toInt
  unfold AccountFrm.assetsAfter
  rcases frm.assets key with - | - | amount
  · rfl
  · rfl
  · by_cases hzero : amount = 0
    · simp [hzero]
    · simp [hzero]

theorem getD_commit {t : LedgerContext} (key : AssetKey) (hdb : w.db.Sound)
    (hkept : ∀ a, w.db.account a ≠ none → stored w t a ≠ none) (a : Address) :
    (((w.db.commit t.envs).asset a key).getD 0).toInt = share (Holding.units key) (stored w t) a := by
  rcases committed (hkept a) with ⟨hstored, -, hbefore, hasset⟩ | ⟨frm, hstored, -, hasset⟩ |
    ⟨acc, hstored, -, hbefore, hasset⟩
  · rw [share_none hstored, hasset, hdb.assets a hbefore]
    rfl
  · rw [share_some hstored, hasset, getD_assetsAfter]
  · rw [share_some hstored, hasset, units_ofAccount hdb hbefore]

/-- Of every asset there is what there was and what was issued, and no amount is negative. -/
def AssetsAdd (w : World) (txs : List AppliedTx) (t : LedgerContext) : Prop :=
  ∀ key, (w.db.commit t.envs).units key = w.db.units key + issuedIn key txs ∧
    ∀ a amount, (w.db.commit t.envs).asset a key = some amount → 0 ≤ amount.toInt ∧ amount.toInt < 2 ^ 63

theorem LedgerFrm.Course.assetsAdd {seq : Int64} {b : Block} {t : LedgerContext}
    (h : LedgerFrm.Course w seq b V (stored w t)) (hdb : w.db.Sound) : AssetsAdd w b.applyTxFrms t := by
  intro key
  obtain ⟨hstocked, hunits⟩ := h.units_eq hdb (stocked_store key hdb)
  have hread := getD_commit key hdb fun a ha => h.keeps ha
  refine ⟨?_, fun a amount hamount => ⟨?_, amount.toInt_lt⟩⟩
  · rw [← units_store hdb, ← hunits]
    exact finsum_congr hread
  · have hshare := hread a
    rw [hamount, Option.getD_some] at hshare
    rw [hshare]
    rcases hstored : stored w t a with - | x
    · rw [share_none hstored]
    · rw [share_some hstored]
      exact hstocked.nonneg a x hstored

/-- A block without scripts makes of every asset what its committed transactions issue. -/
theorem assets_conserved (fuel : ℕ) (clock : Clock) (request : ConsensusValue) (hdb : w.db.Sound)
    (hfree : ∀ env ∈ request.txset, env.CodeFree w) :
    (∀ b t, applyPropose w fuel clock request (.start request) = some (some b, t) → AssetsAdd w b.applyTxFrms t) ∧
      ∀ b t, applyCheck w fuel clock request (.start request) = some (some b, t) →
        b.applyTxFrms.map (fun tx => tx.frm.transactionEnv) = request.txset ∧ AssetsAdd w b.applyTxFrms t ∧
          ∃ c u, applyFollow w fuel request (.start request) = some (some c, u) ∧ c.verdicts = b.verdicts ∧
            AssetsAdd w b.applyTxFrms u := by
  refine ⟨fun b t h => ?_, fun b t h => ?_⟩
  · obtain ⟨⟨V, hcourse⟩, -⟩ := applyPropose_course hfree h
    exact hcourse.assetsAdd hdb
  · obtain ⟨⟨V, hcourse⟩, henvs, hplain⟩ := applyCheck_course hfree h
    have hadd := hcourse.assetsAdd hdb
    obtain ⟨c, u, hfollow, hsame, hagree⟩ := applyFollow_of_applyCheck h hplain
    refine ⟨henvs, hadd, c, u, hfollow, hagree.verdicts, ?_⟩
    unfold AssetsAdd
    rwa [hsame]

end Blocks

/-- The genesis account issues seven units of an asset. -/
def issueValue : ConsensusValue where
  txset := [{ transaction :=
    { sourceAddress := "g", nonce := 1, feeLimit := 6000000, gasPrice := 1
      operations := [{ type := .issueAsset, issueAsset := { code := "x", amount := 7 } }] } }]
  closeTime := 0
  ledgerSeq := 2

theorem coinWorld_sound (balance : Int64) : (coinWorld balance).db.Sound where
  finite := coinWorld_finite balance
  filed a acc hacc := by
    obtain ⟨rfl, rfl⟩ := coinWorld_account hacc
    rfl
  assets _ _ _ := rfl
  nonneg _ _ _ hamount := by cases hamount

theorem assets_conserved_issue :
    ∃ b t, applyCheck (coinWorld 9000000) 20 earlyClock issueValue (.start issueValue) = some (some b, t) ∧
      issuedIn ⟨"g", "x", 0⟩ b.applyTxFrms = 7 ∧ AssetsAdd (coinWorld 9000000) b.applyTxFrms t := by
  have hrun : (applyCheck (coinWorld 9000000) 20 earlyClock issueValue (.start issueValue)).any
      (fun r => r.1.any fun b => issuedIn ⟨"g", "x", 0⟩ b.applyTxFrms == 7) = true := by
    decide +kernel
  obtain ⟨⟨found, t⟩, h, hfound⟩ := (Option.any_eq_true _ _).mp hrun
  obtain ⟨b, rfl, hissued⟩ := (Option.any_eq_true _ _).mp hfound
  have hfree : ∀ env ∈ issueValue.txset, env.CodeFree (coinWorld 9000000) := by
    intro env henv op hop
    obtain rfl := mem_singleton.mp henv
    obtain rfl := mem_singleton.mp hop
    exact ⟨by simp, by simp, by simp⟩
  have hconserved := assets_conserved 20 earlyClock issueValue (coinWorld_sound 9000000) hfree
  exact ⟨b, t, h, by simpa using hissued, (hconserved.2 b t h).2.1⟩

end OpenSesame
