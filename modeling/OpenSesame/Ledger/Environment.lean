
import OpenSesame.Ledger.Account
import OpenSesame.Utils.Strings

/-! # `ledger/environment.cpp`: the stack of environments of a block

An `Environment` is an `AtomMap` of accounts with a second one of voted settings. The environment of the block
has depth 0 and commits into its own `stor_`; `NewStackFrameEnv` makes one of depth `d + 1` whose data are the
change buffers of the one of depth `d`. Layer 0 below is the `stor_` of the block, layer `d + 1` the change
buffer of depth `d`. -/

namespace OpenSesame
open Protocol Overlay AtomMap

structure Environments where
  accounts : ℕ → Overlay Address AccountFrm
  settings : ℕ → Overlay String Json

namespace Environments

def init : Environments :=
  { accounts := fun _ => empty, settings := fun _ => empty }

/-- `GetEntry` of the environment of depth `d`. -/
def getEntry (db : AccountDb) (d : ℕ) (key : Address) (e : Environments) : Option AccountFrm × Environments :=
  let r := (ofLayers e.accounts d).getValue db.accountFromDB key
  (r.1, { e with accounts := toLayers e.accounts d r.2 })

def addEntry (d : ℕ) (key : Address) (frm : AccountFrm) (e : Environments) : Environments :=
  { e with accounts := toLayers e.accounts d ((ofLayers e.accounts d).setValue key frm) }

/-- A change of an account through the pointer `GetEntry` or `AddEntry` left in the environment of depth `d`. -/
def alterEntry (d : ℕ) (key : Address) (f : AccountFrm → AccountFrm) (e : Environments) : Environments :=
  { e with accounts := toLayers e.accounts d ((ofLayers e.accounts d).alter key f) }

/-- `Commit` of the environment of depth `d`. -/
def commit (d : ℕ) (e : Environments) : Environments :=
  { accounts := toLayers e.accounts d (ofLayers e.accounts d).commit
    settings := toLayers e.settings d (ofLayers e.settings d).commit }

/-- `ClearChangeBuf` of the environment of depth `d`. -/
def clearChangeBuf (d : ℕ) (e : Environments) : Environments :=
  { accounts := toLayers e.accounts d (ofLayers e.accounts d).clearChangeBuf
    settings := toLayers e.settings d (ofLayers e.settings d).clearChangeBuf }

/-- `NewStackFrameEnv` of the environment of depth `d`: the buffers of depth `d + 1` are new. -/
def newStackFrameEnv (d : ℕ) (e : Environments) : Environments :=
  clearChangeBuf (d + 1) e

/-! ### Voted settings -/

def validatorsKey : String := "validators"

def feesKey : String := "configFees"

def getSetting (d : ℕ) (key : String) (e : Environments) : Option Json × Environments :=
  let r := (ofLayers e.settings d).getValue (fun _ => none) key
  (r.1, { e with settings := toLayers e.settings d r.2 })

def setSetting (d : ℕ) (key : String) (value : Json) (e : Environments) : Environments :=
  { e with settings := toLayers e.settings d ((ofLayers e.settings d).setValue key value) }

/-- The members of `new` written into those of `old`, one by one. -/
def mergeMembers (old new : List (String × Json)) : List (String × Json) :=
  new.foldl (fun l m => if l.any (·.1 == m.1) then l.map fun x => if x.1 == m.1 then m else x else l ++ [m]) old

/-- `(*fees)[name] = feeConfig[name]` for every member name of `feeConfig`. -/
def mergeFees (feeConfig fees : Json) : Json :=
  match fees, feeConfig with
  | .obj old, .obj new => .obj (mergeMembers old new)
  | _, _ => fees

def updateFeeConfig (d : ℕ) (feeConfig : Json) (e : Environments) : Environments :=
  match getSetting d feesKey e with
  | (none, e) => setSetting d feesKey feeConfig e
  | (some _, e) =>
    { e with settings := toLayers e.settings d ((ofLayers e.settings d).alter feesKey (mergeFees feeConfig)) }

/-- The validators of the last closed ledger, as `GetValidators` writes them down. -/
def validatorsJson (validators : List Validator) : Json :=
  .arr (validators.map fun v => .arr [.str v.address, .str (toString v.pledgeCoinAmount.toInt)])

/-- `GetValidators`: where nothing was voted, the validators of the last closed ledger are put down. -/
def getValidators (validators : List Validator) (d : ℕ) (e : Environments) : Json × Environments :=
  match getSetting d validatorsKey e with
  | (some v, e) => (v, e)
  | (none, e) => (validatorsJson validators, setSetting d validatorsKey (validatorsJson validators) e)

def updateNewValidators (d : ℕ) (validators : Json) (e : Environments) : Environments :=
  setSetting d validatorsKey validators e

def asInt64 : Json → Int64
  | .num n => n
  | .bool b => if b then 1 else 0
  | _ => 0

def asString : Json → String
  | .str s => s
  | _ => ""

/-- What a member of the voted fees does to the configuration. -/
def applyFee (fee : FeeConfig) (member : String × Json) : FeeConfig :=
  match Strings.stoi member.1 with
  | 1 => { fee with gasPrice := asInt64 member.2 }
  | 2 => { fee with baseReserve := asInt64 member.2 }
  | _ => fee

/-- The configuration a vote gives. -/
def votedFee (old : FeeConfig) : Option Json → FeeConfig
  | some (.obj members) => members.foldl applyFee old
  | _ => old

def getVotedFee (old : FeeConfig) (d : ℕ) (e : Environments) : FeeConfig × Environments :=
  let r := getSetting d feesKey e
  (votedFee old r.1, r.2)

def votedValidator : Json → Validator
  | .arr (address :: amount :: _) => ⟨asString address, Strings.stoi64 (asString amount)⟩
  | .arr [address] => ⟨asString address, 0⟩
  | _ => ⟨"", 0⟩

/-- The validators a vote gives. -/
def votedValidators (old : List Validator) : Option Json → List Validator
  | some (.arr l) => l.map votedValidator
  | some _ => []
  | none => old

def getVotedValidators (old : List Validator) (d : ℕ) (e : Environments) : List Validator × Environments :=
  let r := getSetting d validatorsKey e
  (votedValidators old r.1, r.2)

/-! ### What the operations do to the layers -/

variable {d : ℕ} (e : Environments)

@[simp] theorem commit_accounts : (e.commit d).accounts = fold e.accounts d := rfl

@[simp] theorem commit_settings : (e.commit d).settings = fold e.settings d := rfl

@[simp] theorem clearChangeBuf_accounts : (e.clearChangeBuf d).accounts = wipe e.accounts (d + 1) :=
  toLayers_clearChangeBuf ..

@[simp] theorem clearChangeBuf_settings : (e.clearChangeBuf d).settings = wipe e.settings (d + 1) :=
  toLayers_clearChangeBuf ..

theorem getEntry_fst (db : AccountDb) (d : ℕ) (a : Address) :
    (e.getEntry db d a).1 = near db.accountFromDB e.accounts d a :=
  getValue_fst ..

theorem getEntry_accounts (db : AccountDb) (d : ℕ) (a : Address) : (e.getEntry db d a).2.accounts =
      hold e.accounts (d + 1) a (near db.accountFromDB e.accounts d a) :=
  toLayers_getValue ..

theorem addEntry_accounts (a : Address) (frm : AccountFrm) :
    (e.addEntry d a frm).accounts = Overlay.record e.accounts (d + 1) a (some frm) :=
  toLayers_setValue ..

theorem alterEntry_accounts (a : Address) (f : AccountFrm → AccountFrm) :
    (e.alterEntry d a f).accounts = hold e.accounts (d + 1) a ((e.accounts (d + 1) a).join.map f) :=
  toLayers_alter ..

theorem getSetting_fst (key : String) : (e.getSetting d key).1 = near (fun _ => none) e.settings d key :=
  getValue_fst ..

theorem getSetting_settings (key : String) : (e.getSetting d key).2.settings =
      hold e.settings (d + 1) key (near (fun _ => none) e.settings d key) :=
  toLayers_getValue ..

theorem updateNewValidators_settings (v : Json) :
    (e.updateNewValidators d v).settings = Overlay.record e.settings (d + 1) validatorsKey (some v) :=
  toLayers_setValue ..

theorem getValidators_fst (validators : List Validator) : (e.getValidators validators d).1 =
      (near (fun _ => none) e.settings d validatorsKey).getD (validatorsJson validators) := by
  have h := getSetting_fst (d := d) e validatorsKey
  unfold getValidators
  split <;> rename_i heq <;> rw [heq] at h <;> simp [← h]

theorem getValidators_settings (validators : List Validator) :
    (e.getValidators validators d).2.settings = Overlay.record e.settings (d + 1) validatorsKey
      (some ((near (fun _ => none) e.settings d validatorsKey).getD (validatorsJson validators))) := by
  have h := getSetting_fst (d := d) e validatorsKey
  have h' := getSetting_settings (d := d) e validatorsKey
  unfold getValidators
  split <;> rename_i heq <;> rw [heq] at h h' <;> simp only [← h] at h' ⊢
  · exact h'
  · exact (toLayers_setValue ..).trans (by rw [h']; rfl)

theorem updateFeeConfig_settings (feeConfig : Json) :
    (e.updateFeeConfig d feeConfig).settings = Overlay.record e.settings (d + 1) feesKey
      (some (match near (fun _ => none) e.settings d feesKey with
        | none => feeConfig
        | some fees => mergeFees feeConfig fees)) := by
  have h := getSetting_fst (d := d) e feesKey
  have h' := getSetting_settings (d := d) e feesKey
  unfold updateFeeConfig
  split <;> rename_i heq <;> rw [heq] at h h' <;> simp only [← h] at h' ⊢
  · exact (toLayers_setValue ..).trans (by rw [h']; rfl)
  · rw [toLayers_alter, h']
    simp

theorem getValidators_accounts (validators : List Validator) :
    (e.getValidators validators d).2.accounts = e.accounts := by
  unfold getValidators
  split <;> rename_i heq <;> exact congrArg (fun r => r.2.accounts) heq.symm

theorem updateFeeConfig_accounts (feeConfig : Json) : (e.updateFeeConfig d feeConfig).accounts = e.accounts := by
  unfold updateFeeConfig
  split <;> rename_i heq <;> exact congrArg (fun r => r.2.accounts) heq.symm

end Environments
end OpenSesame
