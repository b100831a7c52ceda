
import OpenSesame.Theorems.Ledger.Block

/-! # The accounts of a block as a store

An account is what is read of it: its fields, and what it has of every asset and every piece of
metadata, wherever that is read from. -/

namespace OpenSesame
open Protocol StateOption Overlay AccountFrm AtomMap Function

/-- What is read of an account. -/
structure Holding where
  address : Address
  nonce : Int64
  balance : Int64
  privilege : AccountPrivilege
  payload : String
  asset : AssetKey → Option Int64
  metadata : String → Option KeyPair

namespace Holding

def setBalance (b : Int64) (h : Holding) : Holding := { h with balance := b }

def nonceIncrease (h : Holding) : Holding := { h with nonce := h.nonce + 1 }

def setPrivilege (p : AccountPrivilege) (h : Holding) : Holding := { h with privilege := p }

def setAsset (key : AssetKey) (r : Option Int64) (h : Holding) : Holding :=
  { h with asset := update h.asset key r }

def setMetadata (key : String) (r : Option KeyPair) (h : Holding) : Holding :=
  { h with metadata := update h.metadata key r }

end Holding

abbrev Store := Address → Option Holding

def Store.put (V : Store) (a : Address) (h : Holding) : Store := update V a (some h)

@[simp] theorem Store.put_self (V : Store) (a : Address) (h : Holding) : V.put a h a = some h := update_self ..

theorem Store.put_of_ne (V : Store) {a b : Address} (hne : b ≠ a) (h : Holding) : V.put a h b = V b :=
  update_of_ne hne ..

theorem Store.put_eq_self {V : Store} {a : Address} {h : Holding} (hV : V a = some h) : V.put a h = V :=
  update_eq_self_iff.mpr hV.symm

/-! ### What is read of an account and its caches -/

namespace AccountFrm
variable (db : AccountDb)

/-- What is read of the account: the caches come before the tries. -/
def holding (x : AccountFrm) : Holding where
  address := x.info.address
  nonce := x.nonce
  balance := x.balance
  privilege := x.info.privilege
  payload := x.info.payload
  asset key := (x.assets key).getD (db.asset x.info.address key)
  metadata key := (x.metadata key).getD (db.metadata x.info.address key)

variable {db} {x : AccountFrm}

theorem getAsset_fst (key : AssetKey) : (x.getAsset db key).1 = (x.holding db).asset key := by
  change _ = (x.assets key).getD (db.asset x.info.address key)
  unfold getAsset
  rcases x.assets key with - | r
  · rcases db.asset x.info.address key with - | amount <;> rfl
  · rfl

theorem getMetaData_fst (key : String) : (x.getMetaData db key).1 = (x.holding db).metadata key := by
  change _ = (x.metadata key).getD (db.metadata x.info.address key)
  unfold getMetaData
  rcases x.metadata key with - | r
  · rcases db.metadata x.info.address key with - | kp <;> rfl
  · rfl

theorem getD_put {K V : Type} [DecidableEq K] (cache : Overlay K V) (base : K → Option V) (k : K) (r : Option V) :
    (fun k' => ((cache.put k r) k').getD (base k')) = update (fun k' => (cache k').getD (base k')) k r := by
  funext k'
  by_cases hk : k' = k
  · subst hk
    simp
  · simp [put_of_ne _ hk, hk]

theorem holding_setBalance (b : Int64) : (x.setBalance b).holding db = (x.holding db).setBalance b := rfl

theorem holding_nonceIncrease : x.nonceIncrease.holding db = (x.holding db).nonceIncrease := rfl

theorem holding_putAsset (key : AssetKey) (r : Option Int64) :
    ({ x with assets := x.assets.put key r } : AccountFrm).holding db = (x.holding db).setAsset key r := by
  simp only [holding, Holding.setAsset, getD_put]
  rfl

theorem holding_putMetadata (key : String) (r : Option KeyPair) :
    ({ x with metadata := x.metadata.put key r } : AccountFrm).holding db = (x.holding db).setMetadata key r := by
  simp only [holding, Holding.setMetadata, getD_put]
  rfl

theorem holding_setAsset (key : AssetKey) (amount : Int64) :
    (x.setAsset key amount).holding db = (x.holding db).setAsset key (some amount) :=
  holding_putAsset key _

theorem holding_setMetaData (kp : KeyPair) :
    (x.setMetaData kp).holding db = (x.holding db).setMetadata kp.key (some kp) :=
  holding_putMetadata kp.key _

theorem holding_deleteMetaData (kp : KeyPair) :
    (x.deleteMetaData kp).holding db = (x.holding db).setMetadata kp.key none :=
  holding_putMetadata kp.key _

theorem holding_getAsset (key : AssetKey) : (x.getAsset db key).2.holding db = x.holding db := by
  rcases hcache : x.assets key with - | r
  · rcases hdb : db.asset x.info.address key with - | amount
    · simp only [getAsset, hcache, hdb]
    · simp only [getAsset, hcache, hdb]
      rw [holding_putAsset, Holding.setAsset, update_eq_self_iff.mpr]
      simp [holding, hcache, hdb]
  · simp only [getAsset, hcache]

theorem holding_getMetaData (key : String) : (x.getMetaData db key).2.holding db = x.holding db := by
  rcases hcache : x.metadata key with - | r
  · rcases hdb : db.metadata x.info.address key with - | kp
    · simp only [getMetaData, hcache, hdb]
    · simp only [getMetaData, hcache, hdb]
      rw [holding_putMetadata, Holding.setMetadata, update_eq_self_iff.mpr]
      simp [holding, hcache, hdb]
  · simp only [getMetaData, hcache]

end AccountFrm

/-! ### What the environment of the block shows -/

/-- What a lookup in the environment of the block finds. -/
def seen (w : World) (s : LedgerContext) : Store :=
  fun a => (near w.db.accountFromDB s.envs.accounts 0 a).map (holding w.db)

/-- What a lookup finds when the change buffer is cleared. -/
def stored (w : World) (s : LedgerContext) : Store :=
  fun a => (view w.db.accountFromDB s.envs.accounts 0 a).map (holding w.db)

variable {w : World}

theorem seen_congr {s t : LedgerContext} (h : t.envs.accounts = s.envs.accounts) : seen w t = seen w s := by
  funext a
  simp only [seen, h]

theorem stored_congr {s t : LedgerContext} (h : t.envs.accounts 0 = s.envs.accounts 0) : stored w t = stored w s := by
  funext a
  simp only [stored, view, h]

theorem seen_eq_stored {s : LedgerContext} (h : s.envs.accounts 1 = empty) : seen w s = stored w s := by
  funext a
  simp only [seen, stored, near, view, h, empty_apply]
  rfl

theorem stored_commit (w : World) (s : LedgerContext) : stored w { s with envs := s.envs.commit 0 } = seen w s := by
  funext a
  simp only [seen, stored, Environments.commit_accounts, view_fold_low]
  rfl

/-- The change buffer of the block holds the account. -/
def Held (s : LedgerContext) (a : Address) : Prop := ∃ frm, s.envs.accounts 1 a = some (some frm)

structure Writes (w : World) (s t : LedgerContext) (V : Store) : Prop where
  frame : t = { s.withAccounts t.envs.accounts with trace := t.trace }
  tripped : t.trace.tripped = s.trace.tripped
  seen : seen w t = V
  held : ∀ a, Held s a → Held t a

namespace Writes
variable {w : World} {s t u : LedgerContext} {V V' : Store}

theorem refl : Writes w s s (OpenSesame.seen w s) := ⟨rfl, rfl, rfl, fun _ h => h⟩

theorem trans (h : Writes w s t V) (h' : Writes w t u V') : Writes w s u V' where
  frame := by
    rw [h'.frame, h.frame]
    rfl
  tripped := h'.tripped.trans h.tripped
  seen := h'.seen
  held a ha := h'.held a (h.held a ha)

end Writes

section Primitives
variable {w : World} {a : Address} {s t : LedgerContext}

theorem Held.seen (hheld : Held s a) :
    ∃ frm, s.envs.accounts 1 a = some (some frm) ∧ seen w s a = some (frm.holding w.db) := by
  obtain ⟨frm, hfrm⟩ := hheld
  exact ⟨frm, hfrm, by simp [OpenSesame.seen, near, hfrm]⟩

theorem record_writes (w : World) (s : LedgerContext) (a : Address) (frm : AccountFrm) :
    Writes w s (s.withAccounts (Overlay.record s.envs.accounts 1 a (some frm))) ((seen w s).put a (frm.holding w.db)) where
  frame := rfl
  tripped := rfl
  seen := by
    funext b
    by_cases hb : b = a
    · subst hb
      simp [OpenSesame.seen, AtomMap.near]
    · simp [OpenSesame.seen, AtomMap.near, Overlay.record_of_ne_key hb, Store.put_of_ne _ hb]
  held b hheld := by
    obtain ⟨g, hg⟩ := hheld
    by_cases hb : b = a
    · subst hb
      exact ⟨frm, by simp⟩
    · exact ⟨g, by rw [LedgerContext.withAccounts_accounts, Overlay.record_of_ne_key hb, hg]⟩

theorem record_held (s : LedgerContext) (a : Address) (frm : AccountFrm) :
    Held (s.withAccounts (Overlay.record s.envs.accounts 1 a (some frm))) a := ⟨frm, by simp⟩

theorem getEntry_writes {r : Option AccountFrm} (h : getEntry w 0 a s = some (r, t)) :
    Writes w s t (seen w s) ∧ r.map (AccountFrm.holding w.db) = seen w s a ∧ (r.isSome → Held t a) := by
  rw [getEntry_run] at h
  cases h
  refine ⟨?_, rfl, ?_⟩
  · rcases hnear : AtomMap.near w.db.accountFromDB s.envs.accounts 0 a with - | frm
    · exact .refl
    · have hwrites := record_writes w s a frm
      rwa [Store.put_eq_self (by rw [seen, hnear]; rfl)] at hwrites
  · intro hsome
    obtain ⟨frm, hnear⟩ := Option.isSome_iff_exists.mp hsome
    rw [hnear]
    exact record_held s a frm

theorem alterEntry_held {f : AccountFrm → AccountFrm} (hheld : Held s a) (halter : alterEntry 0 a f s = some ((), t)) :
    ∃ frm : AccountFrm, seen w s a = some (frm.holding w.db) ∧
      Writes w s t ((seen w s).put a ((f frm).holding w.db)) ∧ Held t a := by
  obtain ⟨frm, hfrm, hnow⟩ := hheld.seen (w := w)
  rw [alterEntry_run hfrm] at halter
  cases halter
  exact ⟨frm, hnow, record_writes w s a _, record_held s a _⟩

theorem alterEntry_writes {f : AccountFrm → AccountFrm} {F : Holding → Holding}
    (hf : ∀ x, (f x).holding w.db = F (x.holding w.db)) {h : Holding} (hheld : Held s a) (hseen : seen w s a = some h)
    (halter : alterEntry 0 a f s = some ((), t)) : Writes w s t ((seen w s).put a (F h)) ∧ Held t a := by
  obtain ⟨frm, hnow, hwrites⟩ := alterEntry_held (w := w) hheld halter
  obtain rfl : frm.holding w.db = h := Option.some.inj (hnow.symm.trans hseen)
  rwa [hf frm] at hwrites

variable {frm : AccountFrm}

theorem addEntry_writes (h : addEntry 0 a frm s = some ((), t)) :
    Writes w s t ((seen w s).put a (frm.holding w.db)) ∧ Held t a := by
  have hrun : addEntry 0 a frm s = some ((), s.withAccounts (Overlay.record s.envs.accounts 1 a (some frm))) := by
    have henvs : s.envs.addEntry 0 a frm = ⟨Overlay.record s.envs.accounts 1 a (some frm), s.envs.settings⟩ := by
      rw [← Environments.addEntry_accounts]
      rfl
    rw [addEntry, henvs]
    rfl
  rw [hrun] at h
  cases h
  exact ⟨record_writes w s a frm, record_held s a frm⟩

theorem deref_seen (h : deref 0 a s = some (frm, t)) : t = s ∧ Held s a ∧ seen w s a = some (frm.holding w.db) := by
  obtain ⟨x, hx, heq⟩ := Option.map_eq_some_iff.mp h
  obtain ⟨rfl, rfl⟩ := Prod.mk.inj heq
  rw [Option.join_eq_some_iff] at hx
  exact ⟨rfl, ⟨x, hx⟩, by simp [seen, near, hx]⟩

theorem getAsset_writes {key : AssetKey} {r : Option Int64} (hheld : Held s a)
    (h : getAsset w 0 a frm key s = some (r, t)) :
    Writes w s t (seen w s) ∧ r = (frm.holding w.db).asset key := by
  obtain ⟨_, u, halter, h⟩ := of_bind h
  cases h
  obtain ⟨x, -, hseen⟩ := hheld.seen (w := w)
  have hwrites := (alterEntry_writes (F := id) (fun x => holding_getAsset key) hheld hseen halter).1
  rw [id, Store.put_eq_self hseen] at hwrites
  exact ⟨hwrites, getAsset_fst key⟩

theorem getMetaData_writes {key : String} {r : Option KeyPair} (hheld : Held s a)
    (h : getMetaData w 0 a frm key s = some (r, t)) :
    Writes w s t (seen w s) ∧ r = (frm.holding w.db).metadata key := by
  obtain ⟨_, u, halter, h⟩ := of_bind h
  cases h
  obtain ⟨x, -, hseen⟩ := hheld.seen (w := w)
  have hwrites := (alterEntry_writes (F := id) (fun x => holding_getMetaData key) hheld hseen halter).1
  rw [id, Store.put_eq_self hseen] at hwrites
  exact ⟨hwrites, getMetaData_fst key⟩

end Primitives

end OpenSesame
