import OpenSesame.Theorems.Ledger.Course
import OpenSesame.Theorems.Ledger.Privileges

/-! # Privileges over a whole history

From the genesis accounts on, and whatever operations are carried out, in transactions or by
scripts, every account has privileges that are well formed. -/

namespace OpenSesame
open Protocol StateOption OperationFrm Environments Option

def Filed (a : Address) (info : Account) : Prop := info.address = a ∧ WellFormed a info.privilege

theorem Filed.congr {a : Address} {info info' : Account} (h : Filed a info) (haddress : info'.address = info.address)
    (hprivilege : info'.privilege = info.privilege) : Filed a info' := by
  unfold Filed
  rw [haddress, hprivilege]
  exact h

structure Formed (w : World) (s : LedgerContext) : Prop where
  db : ∀ a acc, w.db.account a = some acc → Filed a acc
  layers : ∀ i a frm, s.envs.accounts i a = some (some frm) → Filed a frm.info

abbrev KeepsFormed (w : World) {α : Type} (m : LedgerM α) : Prop := Respects (Same (Formed w)) anyState anyState m

section Keeps
variable {w : World} {α : Type} {m : LedgerM α} {s t : LedgerContext} {d : ℕ} {a : Address}

theorem keepsFormed_of_run (h : ∀ {s r t}, Formed w s → m s = some (r, t) → Formed w t) : KeepsFormed w m :=
  .of_invariant (fun _ _ _ => trivial) fun _ hs hm _ => h hs hm

theorem keepsFormed_of_accounts (h : ∀ {s r t}, m s = some (r, t) → t.envs.accounts = s.envs.accounts) :
    KeepsFormed w m :=
  keepsFormed_of_run fun hs hm => ⟨hs.db, by rw [h hm]; exact hs.layers⟩

theorem Formed.near {frm : AccountFrm} (h : Formed w s)
    (hnear : AtomMap.near w.db.accountFromDB s.envs.accounts d a = some frm) : Filed a frm.info := by
  unfold AtomMap.near at hnear
  rcases hupper : s.envs.accounts (d + 1) a with - | upper
  · rw [hupper, getD_none] at hnear
    rcases hlower : s.envs.accounts d a with - | lower
    · rw [hlower, getD_none] at hnear
      obtain ⟨acc, hacc, rfl⟩ := map_eq_some_iff.mp hnear
      exact h.db a acc hacc
    · rw [hlower, getD_some] at hnear
      exact h.layers d a frm (hlower.trans (congrArg some hnear))
  · rw [hupper, getD_some] at hnear
    exact h.layers (d + 1) a frm (hupper.trans (congrArg some hnear))

theorem Formed.hold {r : Option AccountFrm} (h : Formed w s) (hr : ∀ frm, r = some frm → Filed a frm.info)
    (haccounts : t.envs.accounts = Overlay.hold s.envs.accounts d a r) : Formed w t := by
  refine ⟨h.db, fun i b frm hb => ?_⟩
  rw [haccounts] at hb
  cases r with
  | none => exact h.layers i b frm hb
  | some x =>
    by_cases hba : b = a
    · subst hba
      by_cases hi : i = d
      · subst hi
        rw [Overlay.hold_some, Overlay.record_self] at hb
        exact hr frm (some.inj hb)
      · rw [Overlay.hold_of_ne_layer hi] at hb
        exact h.layers i b frm hb
    · rw [Overlay.hold_of_ne hba] at hb
      exact h.layers i b frm hb

theorem getEntry_formed : KeepsFormed w (getEntry w d a) := by
  refine keepsFormed_of_run fun hs hm => ?_
  cases hm
  exact hs.hold (fun _ => hs.near) (getEntry_accounts ..)

theorem addEntry_formed {frm : AccountFrm} (h : Filed a frm.info) : KeepsFormed w (addEntry d a frm) := by
  refine keepsFormed_of_run fun hs hm => ?_
  cases hm
  refine hs.hold (r := some frm) (fun x heq => ?_) (addEntry_accounts ..)
  cases heq
  exact h

theorem alterEntry_formed {f : AccountFrm → AccountFrm} (h : ∀ x, Filed a x.info → Filed a (f x).info) :
    KeepsFormed w (alterEntry d a f) := by
  refine keepsFormed_of_run fun {s r t} hs hm => ?_
  cases hm
  refine hs.hold (fun frm heq => ?_) (alterEntry_accounts ..)
  obtain ⟨x, hx, rfl⟩ := map_eq_some_iff.mp heq
  exact h x (hs.layers _ a x (join_eq_some_iff.mp hx))

theorem deref_formed : KeepsFormed w (deref d a) := by
  refine keepsFormed_of_accounts fun hm => ?_
  obtain ⟨_, -, heq⟩ := map_eq_some_iff.mp hm
  cases heq
  rfl

/-- Every operation respects it, given what it writes of privileges. -/
def formedDiscipline (w : World) : OperationDiscipline w where
  rel := Same (Formed w)
  ok := anyState
  kept a title := title.1 = a ∧ WellFormed a title.2
  created a := ⟨rfl, wellFormed_creatAccountFrm a 0⟩
  getEntry _ _ := getEntry_formed
  deref _ _ := deref_formed
  alterEntry _ _ _ _ hk := alterEntry_formed hk
  addEntry _ _ _ _ hk := .of_any (addEntry_formed hk)
  askLedger := keepsFormed_of_accounts fun hm => by cases hm; rfl
  askTx _ _ _ := keepsFormed_of_accounts fun hm => by cases hm; rfl
  getBottomTx := keepsFormed_of_accounts fun hm => by
    obtain ⟨_, -, heq⟩ := map_eq_some_iff.mp hm
    cases heq
    rfl

end Keeps

theorem apply_formed {w : World} {execute : ContractParameter → LedgerM Result} {tran : Transaction} {d index n : ℕ}
    {op : Operation} (hversion : w.checkVersionGt1000 = true)
    (hvalid : (checkValid w op (sourceAddress tran op) n).code = .success)
    (hexec : ∀ p, KeepsFormed w (execute p)) : KeepsFormed w (apply w execute tran d index op) := by
  refine (formedDiscipline w).applyOperation hexec tran d index op (fun htype => ?_) fun change hchange x hx => ?_
  · rw [AccountFrm.title, (newAccount_eq ..).1]
    exact ⟨rfl, wellFormed_new hvalid htype hversion _⟩
  · refine ⟨?_, (WellFormed.updates _).change hvalid hchange hx.2⟩
    rw [(OnlyPrivilege.of_privilegeChange hchange).frame]
    exact hx.1

/-! ### Histories -/

/-- What happens between operations: an account that is held afterwards was there before, in some layer or in the
database, with the same privileges. Frames are opened, committed and dropped, accounts are looked up, fees and
nonces change. -/
def Untouched (w : World) (s t : LedgerContext) : Prop :=
  ∀ i a frm, t.envs.accounts i a = some (some frm) →
    ∃ before : Account, ((∃ j x, s.envs.accounts j a = some (some x) ∧ x.info = before) ∨ w.db.account a = some before) ∧
      frm.info.address = before.address ∧ frm.info.privilege = before.privilege

/-- Operations that passed the check, one after the other, in environments of any depth. The operations of the scripts
they run are among them. -/
inductive Operates (w : World) : LedgerContext → LedgerContext → Prop
  | untouched {s t : LedgerContext} (h : Untouched w s t) : Operates w s t
  | trans {s t u : LedgerContext} (first : Operates w s t) (second : Operates w t u) : Operates w s u
  | apply {execute : ContractParameter → LedgerM Result} {tran : Transaction} {d index : ℕ} {op : Operation} {n : ℕ}
      {r : Result} {s t : LedgerContext}
      (valid : (checkValid w op (sourceAddress tran op) n).code = .success)
      (scripts : ∀ p s r t, execute p s = some (r, t) → Operates w s t)
      (run : OperationFrm.apply w execute tran d index op s = some (r, t)) : Operates w s t

/-- The account databases of a chain whose ledgers are of a version after 1000, from the genesis accounts on. -/
inductive History : AccountDb → Prop
  | genesis (account : Address) (validators : List Address) : History (.createGenesisAccount account validators)
  | block {w : World} {value : ConsensusValue} {test : Bool} {s : LedgerContext} (past : History w.db)
      (version : w.checkVersionGt1000 = true) (run : Operates w (.start value test) s) : History (w.db.commit s.envs)

variable {w : World}

theorem Formed.untouched {s t : LedgerContext} (h : Formed w s) (huntouched : Untouched w s t) : Formed w t := by
  refine ⟨h.db, fun i a frm hfrm => ?_⟩
  obtain ⟨before, hbefore, haddress, hprivilege⟩ := huntouched i a frm hfrm
  refine Filed.congr ?_ haddress hprivilege
  rcases hbefore with ⟨j, x, hx, rfl⟩ | hdb
  · exact h.layers j a x hx
  · exact h.db a before hdb

theorem Operates.formed {s t : LedgerContext} (hversion : w.checkVersionGt1000 = true)
    (h : Operates w s t) : Formed w s → Formed w t := by
  induction h with
  | untouched h => exact fun hs => hs.untouched h
  | trans _ _ ih₁ ih₂ => exact fun hs => ih₂ (ih₁ hs)
  | @apply execute tran d index op n r s t valid _ run ih =>
    intro hs
    have hexec (p : ContractParameter) : KeepsFormed w (execute p) := keepsFormed_of_run fun hu hm => ih p _ _ _ hm hu
    exact (apply_formed hversion valid hexec).invariant trivial hs run trivial

theorem formed_start (h : ∀ a acc, w.db.account a = some acc → Filed a acc) (value : ConsensusValue)
    (test : Bool) : Formed w (.start value test) :=
  ⟨h, fun _ _ _ hfrm => by cases hfrm⟩

theorem History.filed {db : AccountDb} (h : History db) : ∀ a acc, db.account a = some acc → Filed a acc := by
  induction h with
  | genesis account validators =>
    intro a acc hacc
    unfold AccountDb.createGenesisAccount at hacc
    dsimp only at hacc
    split at hacc
    · cases hacc
      subst a
      exact ⟨rfl, wellFormed_creatAccountFrm ..⟩
    · split at hacc
      · cases hacc
        exact ⟨rfl, wellFormed_creatAccountFrm ..⟩
      · cases hacc
  | @block w value test s _ version run ih =>
    have hs := run.formed version (formed_start ih value test)
    intro a acc hacc
    unfold AccountDb.commit at hacc
    dsimp only at hacc
    split at hacc
    · rename_i frm hfrm
      cases hacc
      exact hs.layers 0 a frm hfrm
    · exact ih a acc hacc

/-- Whatever operations were carried out, an account that is found has privileges that are well formed. -/
theorem privileges_wellFormed {w : World} {value : ConsensusValue} {test : Bool} {s t : LedgerContext} {d : ℕ}
    {a : Address} {frm : AccountFrm} (past : History w.db) (version : w.checkVersionGt1000 = true)
    (run : Operates w (.start value test) s) (found : getEntry w d a s = some (some frm, t)) :
    frm.info.address = a ∧ WellFormed a frm.info.privilege := by
  have hs := run.formed version (formed_start past.filed value test)
  obtain ⟨hnear, -⟩ := Prod.mk.inj (some.inj found)
  rw [getEntry_fst] at hnear
  exact hs.near hnear

/-- The genesis account gives itself another weight and takes two signers, one of them with no weight. -/
def signersOperation : Operation where
  type := .setSignerWeight
  setSignerWeight := { masterWeight := 2, signers := [⟨"a", 5⟩, ⟨"b", 0⟩] }

def genesisWorld : World := smallWorld (.createGenesisAccount "g" ["v"]) idleEngine

def genesisValue : ConsensusValue where
  txset := []
  closeTime := 0
  ledgerSeq := 2

theorem privileges_wellFormed_signers :
    ∃ s t frm, Operates genesisWorld (.start genesisValue) s ∧ getEntry genesisWorld 0 "g" s = some (some frm, t) ∧
      frm.info.privilege.signers.map (fun x => (x.address, x.weight)) = [("a", 5)] ∧ WellFormed "g" frm.info.privilege := by
  have hrun : (apply genesisWorld (fun _ => pure {}) { sourceAddress := "g" } 0 0 signersOperation
      (.start genesisValue)).any (fun r => (r.2.envs.getEntry genesisWorld.db 0 "g").1.any
        fun frm => frm.info.privilege.signers.map (fun x => (x.address, x.weight)) == [("a", 5)]) = true := by
    decide +kernel
  obtain ⟨⟨r, s⟩, h, hfound⟩ := (any_eq_true _ _).mp hrun
  obtain ⟨frm, hfrm, hsigners⟩ := (any_eq_true _ _).mp hfound
  have hoperates : Operates genesisWorld (.start genesisValue) s := by
    refine .apply (n := 0) (by decide +kernel) (fun p s r t hp => .untouched ?_) h
    cases hp
    exact fun i a x hx => ⟨x.info, .inl ⟨i, x, hx, rfl⟩, rfl, rfl⟩
  have hentry : ∃ t, getEntry genesisWorld 0 "g" s = some (some frm, t) := ⟨_, by rw [getEntry, hfrm]⟩
  obtain ⟨t, hentry⟩ := hentry
  refine ⟨s, t, frm, hoperates, hentry, by simpa using hsigners, ?_⟩
  exact (privileges_wellFormed (.genesis "g" ["v"]) (by decide) hoperates hentry).2

end OpenSesame
