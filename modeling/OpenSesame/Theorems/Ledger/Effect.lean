import OpenSesame.Theorems.Ledger.Store

/-! # What an operation does to the store

An operation that ends well and runs no script has one of a few effects on the accounts. -/

namespace OpenSesame
open Protocol StateOption OperationFrm SafeInt AccountFrm

/-- The amount after something was added to what is there. -/
def Received (there : Option Int64) (amount now : Int64) : Prop :=
  match there with
  | none => now = amount
  | some held => safeIntAdd held amount = some now

structure Unscripted (op : Operation) (V : Store) : Prop where
  create : op.type = .createAccount → op.createAccount.payload = ""
  payCoin : op.type = .payCoin → ∀ h, V op.payCoin.destAddress = some h → h.payload = ""
  payAsset : op.type = .payAsset → ∀ h, V op.payAsset.destAddress = some h → h.payload = ""

/-- What an operation does to the accounts, if it ends well and no script is run. -/
inductive Effect (w : World) (tran : Transaction) (index : ℕ) (op : Operation) (V : Store) : Store → Prop
  | idle (type : op.type ∈ [.unknown, .log, .intMinSentinel, .intMaxSentinel]) : Effect w tran index op V V
  | create {src : Holding} {limit balance : Int64} (type : op.type = .createAccount)
      (source : V (sourceAddress tran op) = some src)
      (fresh : V (newAddress w tran index op.createAccount) = none)
      (reserve : ¬op.createAccount.initBalance < w.fees.baseReserve)
      (limited : safeIntSub src.balance w.fees.baseReserve = some limit)
      (enough : ¬limit < op.createAccount.initBalance)
      (paid : safeIntAdd src.balance (-1 * op.createAccount.initBalance) = some balance)
      (code : op.createAccount.payload = "") :
      Effect w tran index op V ((V.put (sourceAddress tran op) (src.setBalance balance)).put
          (newAddress w tran index op.createAccount)
          ((newAccount op.createAccount (newAddress w tran index op.createAccount)).holding w.db))
  | payCoin {src dst : Holding} {V₁ : Store} {least paid received : Int64} (type : op.type = .payCoin)
      (source : V (sourceAddress tran op) = some src)
      (lowest : safeIntAdd op.payCoin.amount w.fees.baseReserve = some least)
      (enough : ¬src.balance < least)
      (dest : V op.payCoin.destAddress ≠ none ∧ V₁ = V ∨
        V op.payCoin.destAddress = none ∧ ¬op.payCoin.amount < w.fees.baseReserve ∧ V₁ = V.put op.payCoin.destAddress
            ((creatAccountFrm op.payCoin.destAddress 0).holding w.db))
      (pays : safeIntSub src.balance op.payCoin.amount = some paid)
      (there : V₁.put (sourceAddress tran op) (src.setBalance paid) op.payCoin.destAddress = some dst)
      (receives : safeIntAdd dst.balance op.payCoin.amount = some received) :
      Effect w tran index op V ((V₁.put (sourceAddress tran op) (src.setBalance paid)).put op.payCoin.destAddress
          (dst.setBalance received))
  | payNothing (type : op.type = .payAsset) (asset : op.payAsset.asset = none) : Effect w tran index op V V
  | payAsset {src dst : Holding} {asset : Asset} {held paid received : Int64} (type : op.type = .payAsset)
      (source : V (sourceAddress tran op) = some src)
      (dest : V op.payAsset.destAddress ≠ none)
      (asset_eq : op.payAsset.asset = some asset)
      (holds : src.asset asset.assetKey = some held)
      (pays : safeIntSub held asset.amount = some paid)
      (enough : ¬paid < 0)
      (there : V.put (sourceAddress tran op) (src.setAsset asset.assetKey (some paid)) op.payAsset.destAddress =
        some dst)
      (receives : Received (dst.asset asset.assetKey) asset.amount received) :
      Effect w tran index op V
        ((V.put (sourceAddress tran op) (src.setAsset asset.assetKey (some paid))).put op.payAsset.destAddress
          (dst.setAsset asset.assetKey (some received)))
  | issue {src : Holding} {amount : Int64} (type : op.type = .issueAsset)
      (source : V (sourceAddress tran op) = some src)
      (receives : Received (src.asset { issuer := src.address, code := op.issueAsset.code }) op.issueAsset.amount
        amount) :
      Effect w tran index op V (V.put (sourceAddress tran op)
          (src.setAsset { issuer := src.address, code := op.issueAsset.code } (some amount)))
  | metadata {src : Holding} (type : op.type = .setMetadata) (source : V (sourceAddress tran op) = some src)
      (key : String) (r : Option KeyPair) :
      Effect w tran index op V (V.put (sourceAddress tran op) (src.setMetadata key r))
  | privilege {src : Holding} {change : AccountFrm → AccountFrm} {frm : AccountFrm}
      (type : privilegeChange op = some change) (source : V (sourceAddress tran op) = some src)
      (same : frm.info.privilege = src.privilege) :
      Effect w tran index op V (V.put (sourceAddress tran op) (src.setPrivilege (change frm).info.privilege))

/-- A payment that ends with an overflow. -/
def Unpaid (V : Store) (source dest : Address) (src : Holding) (amount : Int64) : Prop :=
  safeIntSub src.balance amount = none ∨ ∃ paid dst, safeIntSub src.balance amount = some paid ∧
    V.put source (src.setBalance paid) dest = some dst ∧ safeIntAdd dst.balance amount = none

/-- What an operation finds, if it ends with an overflow and no script is run. -/
inductive Overflow (w : World) (tran : Transaction) (op : Operation) (V : Store) : Prop
  | asset (type : op.type = .issueAsset ∨ op.type = .payAsset)
  | create {src : Holding} (type : op.type = .createAccount) (source : V (sourceAddress tran op) = some src)
      (reserve : ¬op.createAccount.initBalance < w.fees.baseReserve)
      (fails : safeIntSub src.balance w.fees.baseReserve = none ∨ ∃ limit,
        safeIntSub src.balance w.fees.baseReserve = some limit ∧ ¬limit < op.createAccount.initBalance ∧
          safeIntAdd src.balance (-1 * op.createAccount.initBalance) = none)
  | lowest (type : op.type = .payCoin) (fails : safeIntAdd op.payCoin.amount w.fees.baseReserve = none)
  | payCoin {src : Holding} {V₁ : Store} {least : Int64} (type : op.type = .payCoin)
      (source : V (sourceAddress tran op) = some src)
      (lowest : safeIntAdd op.payCoin.amount w.fees.baseReserve = some least)
      (enough : ¬src.balance < least)
      (dest : V₁ = V ∨ V op.payCoin.destAddress = none ∧
        V₁ = V.put op.payCoin.destAddress ((creatAccountFrm op.payCoin.destAddress 0).holding w.db))
      (fails : Unpaid V₁ (sourceAddress tran op) op.payCoin.destAddress src op.payCoin.amount)

theorem OnlyPrivilege.holding {f : AccountFrm → AccountFrm} (h : OnlyPrivilege f) (db : AccountDb) (x : AccountFrm) :
    (f x).holding db = (x.holding db).setPrivilege (f x).info.privilege := by
  rw [h.frame]
  rfl

/-! ### The operations -/

def Leads (w : World) (s t : LedgerContext) (r : Result) (E : Store → Prop) (O : Prop) : Prop :=
  ∃ V, Writes w s t V ∧ (r.code = .success → E V) ∧ (r.code = .mathOverflow → O)

namespace Leads
variable {w : World} {s s₁ t : LedgerContext} {r : Result} {V : Store} {E E' : Store → Prop} {O O' : Prop}

theorem error (hw : Writes w s s₁ V) {code : ErrorCode} {desc : String}
    (h : (pure (Result.error code desc) : LedgerM Result) s₁ = some (r, t))
    (hcode : code ≠ .success ∧ code ≠ .mathOverflow) : Leads w s t r E O := by
  cases h
  exact ⟨V, hw, fun hr => absurd hr hcode.1, fun hr => absurd hr hcode.2⟩

theorem overflow (hw : Writes w s s₁ V) (hO : O) {desc : String}
    (h : (pure (Result.error .mathOverflow desc) : LedgerM Result) s₁ = some (r, t)) : Leads w s t r E O := by
  cases h
  exact ⟨V, hw, nofun, fun _ => hO⟩

theorem failed (h : Leads w s t r E O) (hr : r.code ≠ .success) : Leads w s t r E' O := by
  obtain ⟨V, hw, -, hO⟩ := h
  exact ⟨V, hw, fun h => absurd h hr, hO⟩

theorem before (hw : Writes w s s₁ (seen w s)) (h : Leads w s₁ t r E O) : Leads w s t r E O := by
  obtain ⟨V, hw', hE⟩ := h
  exact ⟨V, hw.trans hw', hE⟩

theorem mono (h : Leads w s t r E O) (hE : ∀ V, E V → E' V) (hO : O → O') : Leads w s t r E' O' := by
  obtain ⟨V, hw, hV, hover⟩ := h
  exact ⟨V, hw, fun hr => hE V (hV hr), fun hr => hO (hover hr)⟩

end Leads

abbrev Acts (w : World) (tran : Transaction) (index : ℕ) (op : Operation) (s t : LedgerContext) (r : Result) : Prop :=
  Leads w s t r (Effect w tran index op (seen w s)) (Overflow w tran op (seen w s))

section Operations
variable {w : World} {execute : ContractParameter → LedgerM Result} {tran : Transaction} {index : ℕ} {op : Operation}
  {s t : LedgerContext} {r : Result} {src : AccountFrm} (hfree : Unscripted op (seen w s))
  (hheld : Held s (sourceAddress tran op)) (hsrc : seen w s (sourceAddress tran op) = some (src.holding w.db))

include hfree hheld hsrc in
theorem createAccount_effect (type : op.type = .createAccount)
    (h : createAccount w execute tran 0 index (sourceAddress tran op) src op.createAccount s = some (r, t)) :
    Acts w tran index op s t r := by
  obtain ⟨found, s₁, hfound, h⟩ := of_bind h
  obtain ⟨hw₁, hfresh, -⟩ := getEntry_writes hfound
  cases found with
  | some _ => exact .error hw₁ h (by decide)
  | none =>
    dsimp only at h
    split at h
    · exact .error hw₁ h (by decide)
    rename_i hreserve
    rcases hlimit : safeIntSub src.balance w.fees.baseReserve with - | limit
    · simp only [hlimit] at h
      exact .overflow hw₁ (.create type hsrc hreserve (.inl hlimit)) h
    simp only [hlimit] at h
    split at h
    · exact .error hw₁ h (by decide)
    rename_i henough
    rcases hbalance : src.addBalance (-1 * op.createAccount.initBalance) with - | balance
    · simp only [hbalance] at h
      exact .overflow hw₁ (.create type hsrc hreserve (.inr ⟨limit, hlimit, henough, hbalance⟩)) h
    simp only [hbalance] at h
    obtain ⟨_, s₂, halter, h⟩ := of_bind h
    obtain ⟨hw₂, -⟩ := alterEntry_writes (fun _ => holding_setBalance balance) (hw₁.held _ hheld)
      (by rw [hw₁.seen, hsrc]) halter
    split at h
    · exact .error (hw₁.trans hw₂) h (by decide)
    obtain ⟨_, s₃, hadd, h⟩ := of_bind h
    obtain ⟨hw₃, -⟩ := addEntry_writes (w := w) hadd
    simp only [hfree.create type] at h
    cases h
    rw [hw₂.seen, hw₁.seen] at hw₃
    exact ⟨_, (hw₁.trans hw₂).trans hw₃, fun _ =>
      .create type hsrc hfresh.symm hreserve hlimit henough hbalance (hfree.create type), nofun⟩

include hheld hsrc in
theorem issueAsset_effect (type : op.type = .issueAsset)
    (h : issueAsset w 0 (sourceAddress tran op) src op.issueAsset s = some (r, t)) :
    Acts w tran index op s t r := by
  obtain ⟨found, s₁, hfound, h⟩ := of_bind h
  obtain ⟨hw₁, hthere⟩ := getAsset_writes hheld hfound
  -- the new amount is written, whether there was one before or not
  have hput {amount : Int64} (hreceived : Received found op.issueAsset.amount amount)
      (h : (alterEntry 0 (sourceAddress tran op)
        (setAsset { issuer := src.info.address, code := op.issueAsset.code } amount) >>= fun _ => pure {})
          s₁ = some (r, t)) :
      Acts w tran index op s t r := by
    obtain ⟨_, s₂, halter, h⟩ := of_bind h
    cases h
    obtain ⟨hw₂, -⟩ := alterEntry_writes (fun _ => holding_setAsset _ amount) (hw₁.held _ hheld)
      (by rw [hw₁.seen, hsrc]) halter
    rw [hthere] at hreceived
    rw [hw₁.seen] at hw₂
    exact ⟨_, hw₁.trans hw₂, fun _ => .issue type hsrc hreceived, nofun⟩
  cases found with
  | none => exact hput rfl h
  | some held =>
    rcases hamount : safeIntAdd held op.issueAsset.amount with - | amount
    · simp only [hamount] at h
      exact .overflow hw₁ (.asset (.inl type)) h
    · simp only [hamount] at h
      exact hput hamount h

include hheld hsrc in
theorem setMetaData_effect (type : op.type = .setMetadata)
    (h : setMetaData w 0 (sourceAddress tran op) src op.setMetadata s = some (r, t)) :
    Acts w tran index op s t r := by
  obtain ⟨found, s₁, hfound, h⟩ := of_bind h
  obtain ⟨hw₁, -⟩ := getMetaData_writes hheld hfound
  have hput {f : AccountFrm → AccountFrm} {key : String} {value : Option KeyPair}
      (hf : ∀ x, (f x).holding w.db = (x.holding w.db).setMetadata key value)
      (h : (alterEntry 0 (sourceAddress tran op) f >>= fun _ => pure {}) s₁ = some (r, t)) :
      Acts w tran index op s t r := by
    obtain ⟨_, s₂, halter, h⟩ := of_bind h
    cases h
    obtain ⟨hw₂, -⟩ := alterEntry_writes hf (hw₁.held _ hheld) (by rw [hw₁.seen, hsrc]) halter
    rw [hw₁.seen] at hw₂
    exact ⟨_, hw₁.trans hw₂, fun _ => .metadata type hsrc key value, nofun⟩
  cases found with
  | some held =>
    dsimp only at h
    split at h
    · split at h
      · exact .error hw₁ h (by decide)
      split at h
      · exact .error hw₁ h (by decide)
      exact hput (fun _ => holding_deleteMetaData held) h
    · split at h
      · exact .error hw₁ h (by decide)
      exact hput (fun _ => holding_setMetaData _) h
  | none =>
    dsimp only at h
    split at h
    · exact .error hw₁ h (by decide)
    split at h
    · exact .error hw₁ h (by decide)
    exact hput (fun _ => holding_setMetaData _) h

theorem callContract_empty (input : String) (dest sender : Address) (asset : Asset) (amount : Int64) :
    callContract w execute tran index "" input dest sender asset amount = pure {} := rfl

theorem transferAsset_leads {source dest : Address} {asset : Asset} (hheld : Held s source)
    (hsrc : seen w s source = some (src.holding w.db))
    (h : transferAsset w 0 source dest src asset s = some (r, t)) :
    Leads w s t r (fun V => ∃ held paid dst received, (src.holding w.db).asset asset.assetKey = some held ∧
      safeIntSub held asset.amount = some paid ∧ ¬paid < 0 ∧
      (seen w s).put source ((src.holding w.db).setAsset asset.assetKey (some paid)) dest = some dst ∧
      Received (dst.asset asset.assetKey) asset.amount received ∧
      V = ((seen w s).put source ((src.holding w.db).setAsset asset.assetKey (some paid))).put dest
        (dst.setAsset asset.assetKey (some received))) True := by
  obtain ⟨found, s₁, hfound, h⟩ := of_bind h
  obtain ⟨hw₁, hholds⟩ := getAsset_writes hheld hfound
  cases found with
  | none => exact .error hw₁ h (by decide)
  | some held =>
    dsimp only at h
    split at h
    · exact .error hw₁ h (by decide)
    rcases hpaid : safeIntSub held asset.amount with - | paid
    · simp only [hpaid] at h
      exact .overflow hw₁ trivial h
    simp only [hpaid] at h
    split at h
    · exact .error hw₁ h (by decide)
    rename_i henough
    obtain ⟨_, s₂, halter, hpay⟩ := of_bind h
    obtain ⟨hw₂, -⟩ := alterEntry_writes (fun _ => holding_setAsset _ paid) (hw₁.held _ hheld)
      (by rw [hw₁.seen, hsrc]) halter
    rw [hw₁.seen] at hw₂
    obtain ⟨dst, s₃, hderef, hread⟩ := of_bind hpay
    obtain ⟨rfl, hheld₂, hdst⟩ := deref_seen (w := w) hderef
    obtain ⟨there, s₄, hthere, hrest⟩ := of_bind hread
    obtain ⟨hw₃, hreads⟩ := getAsset_writes hheld₂ hthere
    have hput {received : Int64} (hreceived : Received there asset.amount received)
        (h : (alterEntry 0 dest (setAsset asset.assetKey received) >>= fun _ => pure {}) s₄ = some (r, t)) :
        Received ((dst.holding w.db).asset asset.assetKey) asset.amount received ∧
        Writes w s t (((seen w s).put source ((src.holding w.db).setAsset asset.assetKey (some paid))).put dest
          ((dst.holding w.db).setAsset asset.assetKey (some received))) := by
      obtain ⟨_, s₅, halter', h⟩ := of_bind h
      cases h
      obtain ⟨hw₄, -⟩ := alterEntry_writes (fun _ => holding_setAsset _ received) (hw₃.held _ hheld₂)
        (by rw [hw₃.seen, hdst]) halter'
      rw [hw₃.seen, hw₂.seen] at hw₄
      rw [hreads] at hreceived
      exact ⟨hreceived, ((hw₁.trans hw₂).trans hw₃).trans hw₄⟩
    rw [hw₂.seen] at hdst
    cases there with
    | none =>
      obtain ⟨hreceived, hw⟩ := hput rfl hrest
      exact ⟨_, hw, fun _ => ⟨held, paid, _, _, hholds.symm, hpaid, henough, hdst, hreceived, rfl⟩,
        fun _ => trivial⟩
    | some amount =>
      rcases hamount : safeIntAdd amount asset.amount with - | received
      · simp only [hamount] at hrest
        exact .overflow ((hw₁.trans hw₂).trans hw₃) trivial hrest
      · simp only [hamount] at hrest
        obtain ⟨hreceived, hw⟩ := hput hamount hrest
        exact ⟨_, hw, fun _ => ⟨held, paid, _, _, hholds.symm, hpaid, henough, hdst, hreceived, rfl⟩,
        fun _ => trivial⟩

include hfree hheld hsrc in
theorem payAsset_effect (type : op.type = .payAsset)
    (h : payAsset w execute tran 0 index (sourceAddress tran op) src op.payAsset s = some (r, t)) :
    Acts w tran index op s t r := by
  obtain ⟨found, s₁, hfound, h⟩ := of_bind h
  obtain ⟨hw₁, hdest, -⟩ := getEntry_writes hfound
  cases found with
  | none => exact .error hw₁ h (by decide)
  | some dst =>
    obtain ⟨r₁, s₂, htransfer, hcall⟩ := of_bind h
    have hpaid : Acts w tran index op s s₂ r₁ := by
      rcases hasset : op.payAsset.asset with - | asset
      · rw [hasset] at htransfer
        cases htransfer
        exact ⟨_, hw₁, fun _ => .payNothing type hasset, nofun⟩
      · rw [hasset] at htransfer
        have hleads := transferAsset_leads (hw₁.held _ hheld) (by rw [hw₁.seen, hsrc]) htransfer
        rw [hw₁.seen] at hleads
        refine .before hw₁ (hleads.mono ?_ fun _ => .asset (.inr type))
        rintro _ ⟨held, paid, dst', received, hholds, hpaid, henough, hthere, hreceived, rfl⟩
        exact .payAsset type hsrc (by rw [← hdest]; simp) hasset hholds hpaid henough hthere hreceived
    split at hcall
    · rename_i hfail
      cases hcall
      exact hpaid
    · rename_i hok
      rw [show dst.info.payload = "" from hfree.payAsset type _ hdest.symm, callContract_empty] at hcall
      cases hcall
      obtain ⟨V, hw, heffect, -⟩ := hpaid
      exact ⟨V, hw, fun _ => heffect (by simpa using hok), nofun⟩

theorem transferCoin_leads {source dest : Address} {amount : Int64} {dst : AccountFrm} (hheld : Held s source)
    (hsrc : seen w s source = some (src.holding w.db))
    (h : transferCoin 0 source dest src amount s = some ((r, dst), t)) :
    Leads w s t r (fun V => ∃ paid received, safeIntSub src.balance amount = some paid ∧
        (seen w s).put source ((src.holding w.db).setBalance paid) dest = some (dst.holding w.db) ∧
        safeIntAdd dst.balance amount = some received ∧
        V = ((seen w s).put source ((src.holding w.db).setBalance paid)).put dest
          ((dst.holding w.db).setBalance received))
      (Unpaid (seen w s) source dest (src.holding w.db) amount) := by
  unfold transferCoin at h
  rcases hpaid : safeIntSub src.balance amount with - | paid
  · simp only [hpaid] at h
    obtain ⟨heq, rfl⟩ := of_pure h
    cases heq
    exact ⟨_, .refl, nofun, fun _ => .inl hpaid⟩
  simp only [hpaid] at h
  obtain ⟨_, s₁, halter, hread⟩ := of_bind h
  obtain ⟨hw₁, -⟩ := alterEntry_writes (fun _ => holding_setBalance paid) hheld hsrc halter
  obtain ⟨there, s₂, hderef, hsend⟩ := of_bind hread
  obtain ⟨rfl, hheld₁, hdst⟩ := deref_seen (w := w) hderef
  rcases hreceived : safeIntAdd there.balance amount with - | received
  · simp only [hreceived] at hsend
    obtain ⟨heq, rfl⟩ := of_pure hsend
    cases heq
    rw [hw₁.seen] at hdst
    exact ⟨_, hw₁, nofun, fun _ => .inr ⟨paid, _, hpaid, hdst, hreceived⟩⟩
  simp only [hreceived] at hsend
  obtain ⟨_, s₃, halter', hsent⟩ := of_bind hsend
  obtain ⟨heq, rfl⟩ := of_pure hsent
  cases heq
  obtain ⟨hw₂, -⟩ := alterEntry_writes (fun _ => holding_setBalance received) hheld₁ hdst halter'
  rw [hw₁.seen] at hdst hw₂
  exact ⟨_, hw₁.trans hw₂, fun _ => ⟨paid, received, rfl, hdst, hreceived, rfl⟩, nofun⟩

theorem sendCoin_leads {source : Address} {o : OperationPayCoin} (hheld : Held s source)
    (hsrc : seen w s source = some (src.holding w.db))
    (hcode : ∀ h, seen w s o.destAddress = some h → h.payload = "")
    (h : sendCoin w execute tran 0 index source src o s = some (r, t)) :
    Leads w s t r (fun V => ∃ paid dst received, safeIntSub src.balance o.amount = some paid ∧
        (seen w s).put source ((src.holding w.db).setBalance paid) o.destAddress = some dst ∧
        safeIntAdd dst.balance o.amount = some received ∧
        V = ((seen w s).put source ((src.holding w.db).setBalance paid)).put o.destAddress (dst.setBalance received))
      (Unpaid (seen w s) source o.destAddress (src.holding w.db) o.amount) := by
  obtain ⟨⟨r₁, dst⟩, s₁, htransfer, hcall⟩ := of_bind h
  have hleads := transferCoin_leads hheld hsrc htransfer
  dsimp only at hcall
  split at hcall
  · rename_i hfail
    cases hcall
    exact hleads.failed (by simpa using hfail)
  rename_i hok
  obtain ⟨V, hw, hpaid, -⟩ := hleads
  obtain ⟨paid, received, hpays, hthere, hreceived, hV⟩ := hpaid (by simpa using hok)
  -- paying does not give the destination a script
  have hempty : dst.info.payload = "" := by
    by_cases hself : o.destAddress = source
    · rw [hself, Store.put_self] at hthere
      rw [hself] at hcode
      have hpayload := congrArg Holding.payload (Option.some.inj hthere)
      have hsource : (src.holding w.db).payload = "" := hcode _ hsrc
      exact hpayload.symm.trans hsource
    · rw [Store.put_of_ne _ hself] at hthere
      exact hcode _ hthere
  rw [hempty, callContract_empty] at hcall
  cases hcall
  exact ⟨V, hw, fun _ => ⟨paid, dst.holding w.db, received, hpays, hthere, hreceived, hV⟩, nofun⟩

include hfree hheld hsrc in
theorem payCoin_effect (type : op.type = .payCoin)
    (h : payCoin w execute tran 0 index (sourceAddress tran op) src op.payCoin s = some (r, t)) :
    Acts w tran index op s t r := by
  unfold payCoin at h
  rcases hleast : safeIntAdd op.payCoin.amount w.fees.baseReserve with - | least
  · simp only [hleast] at h
    exact .overflow .refl (.lowest type hleast) h
  simp only [hleast] at h
  split at h
  · exact .error .refl h (by decide)
  rename_i henough
  obtain ⟨found, s₁, hfound, hsend⟩ := of_bind h
  obtain ⟨hw₁, hdest, -⟩ := getEntry_writes hfound
  have hsrc₁ : seen w s₁ (sourceAddress tran op) = some (src.holding w.db) := by rw [hw₁.seen, hsrc]
  cases found with
  | some _ =>
    have hleads := sendCoin_leads (hw₁.held _ hheld) hsrc₁ (by rw [hw₁.seen]; exact hfree.payCoin type) hsend
    rw [hw₁.seen] at hleads
    refine .before hw₁ (hleads.mono ?_ fun hover => .payCoin type hsrc hleast henough (.inl rfl) hover)
    rintro _ ⟨paid, dst, received, hpaid, hthere, hreceived, rfl⟩
    exact .payCoin type hsrc hleast henough (.inl ⟨by rw [← hdest]; simp, rfl⟩) hpaid hthere hreceived
  | none =>
    dsimp only at hsend
    split at hsend
    · exact .error hw₁ hsend (by decide)
    rename_i hreserve
    obtain ⟨_, s₂, hadd, hsend⟩ := of_bind hsend
    obtain ⟨hw₂, -⟩ := addEntry_writes (w := w) hadd
    -- the source is there, so that it is not the account that was made
    have hne : sourceAddress tran op ≠ op.payCoin.destAddress := by
      intro heq
      rw [← heq, hsrc] at hdest
      cases hdest
    have hbare : ∀ h, seen w s₂ op.payCoin.destAddress = some h → h.payload = "" := by
      rw [hw₂.seen, Store.put_self]
      rintro _ ⟨⟩
      rfl
    obtain ⟨V, hw₃, hsent, hover⟩ := sendCoin_leads (hw₂.held _ (hw₁.held _ hheld))
      (by rw [hw₂.seen, Store.put_of_ne _ hne, hsrc₁]) hbare hsend
    rw [hw₂.seen, hw₁.seen] at hsent hover
    refine ⟨V, (hw₁.trans hw₂).trans hw₃, fun hr => ?_, fun hr => ?_⟩
    · obtain ⟨paid, dst, received, hpaid, hthere, hreceived, rfl⟩ := hsent hr
      exact .payCoin type hsrc hleast henough (.inr ⟨hdest.symm, hreserve, rfl⟩) hpaid hthere hreceived
    · exact .payCoin type hsrc hleast henough (.inr ⟨hdest.symm, rfl⟩) (hover hr)

include hheld in
theorem change_effect {f : AccountFrm → AccountFrm} (type : privilegeChange op = some f)
    (h : change 0 (sourceAddress tran op) f s = some (r, t)) :
    Acts w tran index op s t r := by
  obtain ⟨_, s₁, halter, h⟩ := of_bind h
  cases h
  obtain ⟨frm, hfrm, hwrites, -⟩ := alterEntry_held (w := w) hheld halter
  rw [(OnlyPrivilege.of_privilegeChange type).holding] at hwrites
  exact ⟨_, hwrites, fun _ => .privilege type hfrm rfl, nofun⟩

end Operations

theorem apply_effect {w : World} {execute : ContractParameter → LedgerM Result} {tran : Transaction} {index : ℕ}
    {op : Operation} {s t : LedgerContext} {r : Result} (hfree : Unscripted op (seen w s))
    (h : apply w execute tran 0 index op s = some (r, t)) :
    Acts w tran index op s t r := by
  obtain ⟨found, s₁, hfound, hrest⟩ := of_bind h
  obtain ⟨hw₁, hsrc, hheld⟩ := getEntry_writes hfound
  cases found with
  | none => exact .error hw₁ hrest (by decide)
  | some src =>
    have hheld := hheld rfl
    refine .before hw₁ ?_
    rw [← hw₁.seen] at hfree hsrc ⊢
    cases type : op.type <;> simp only [type] at hrest
    case createAccount => exact createAccount_effect hfree hheld hsrc.symm type hrest
    case payAsset => exact payAsset_effect hfree hheld hsrc.symm type hrest
    case issueAsset => exact issueAsset_effect hheld hsrc.symm type hrest
    case setMetadata => exact setMetaData_effect hheld hsrc.symm type hrest
    case payCoin => exact payCoin_effect hfree hheld hsrc.symm type hrest
    case setSignerWeight => exact change_effect hheld (by rw [privilegeChange, type]) hrest
    case setThreshold => exact change_effect hheld (by rw [privilegeChange, type]) hrest
    case setPrivilege => exact change_effect hheld (by rw [privilegeChange, type]) hrest
    case other => exact .error .refl hrest (by decide)
    all_goals
      cases hrest
      exact ⟨_, .refl, fun _ => .idle (by simp [type]), fun hover => by cases hover⟩

end OpenSesame
