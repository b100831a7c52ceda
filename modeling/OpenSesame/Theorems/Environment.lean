import OpenSesame.Ledger.Environment

/-! # What a read in a stack of environments returns

A run works on the environments of a block: reads, changes and votes in any frame, commits of any
frame, frames made and thrown away. -/

namespace OpenSesame
open Protocol Overlay Environments AtomMap

/-! ### Runs -/

/-- An operation on the stack; `d` is the depth of the frame it is made in. -/
inductive FrameOp where
  | getEntry (d : ℕ) (a : Address)
  | addEntry (d : ℕ) (a : Address) (frm : AccountFrm)
  /-- `GetEntry` and, if there is an account, a change of it in place. -/
  | change (d : ℕ) (a : Address) (f : AccountFrm → AccountFrm)
  | getValidators (d : ℕ)
  | getVotedValidators (d : ℕ)
  | updateNewValidators (d : ℕ) (validators : Json)
  | getVotedFee (d : ℕ)
  | updateFeeConfig (d : ℕ) (feeConfig : Json)
  | commit (d : ℕ)
  | clearChangeBuf (d : ℕ)
  | newStackFrameEnv
  /-- The innermost frame is thrown away. -/
  | discard

/-- What was changed, when, and what each change left. -/
structure Reference where
  accounts : Log Address AccountFrm
  settings : Log String Json
  now : ℕ

/-- The environments with the depth of the innermost frame, and their reference. -/
structure Frames where
  envs : Environments
  depth : ℕ
  ref : Reference

/-- The settings of the last closed ledger: its validators; no fee is voted. -/
def settingsBase (validators : List Validator) (key : String) : Option Json :=
  if key = validatorsKey then some (validatorsJson validators) else none

section Run
variable (db : AccountDb) (validators : List Validator)

/-- What an operation does to the environments and to the depth. -/
def FrameOp.apply (s : Frames) : FrameOp → Environments × ℕ
  | .getEntry d a => ((s.envs.getEntry db d a).2, s.depth)
  | .addEntry d a frm => (s.envs.addEntry d a frm, s.depth)
  | .change d a f => ((s.envs.getEntry db d a).2.alterEntry d a f, s.depth)
  | .getValidators d => ((s.envs.getValidators validators d).2, s.depth)
  | .getVotedValidators d => ((s.envs.getVotedValidators validators d).2, s.depth)
  | .updateNewValidators d v => (s.envs.updateNewValidators d v, s.depth)
  | .getVotedFee d => ((s.envs.getVotedFee ⟨0, 0⟩ d).2, s.depth)
  | .updateFeeConfig d c => (s.envs.updateFeeConfig d c, s.depth)
  | .commit d => (s.envs.commit d, s.depth)
  | .clearChangeBuf d => (s.envs.clearChangeBuf d, s.depth)
  | .newStackFrameEnv => (s.envs.newStackFrameEnv s.depth, s.depth + 1)
  | .discard => (s.envs.clearChangeBuf s.depth, s.depth - 1)

/-- The account the changes made so far leave to be seen from depth `d`. -/
def Reference.account (r : Reference) (d : ℕ) (a : Address) : Option AccountFrm :=
  outcome db.accountFromDB r.accounts (d + 1) a

/-- The setting the changes made so far leave to be seen from depth `d`. -/
def Reference.setting (r : Reference) (d : ℕ) (key : String) : Option Json :=
  outcome (settingsBase validators) r.settings (d + 1) key

/-- What an operation does to the reference: reads do nothing, changes are noted where they are made, the
changes of a committed frame become its parent's, those of a cleared or discarded one are forgotten. -/
def FrameOp.note (s : Frames) : FrameOp → Reference
  | .addEntry d a frm =>
    { s.ref with accounts := Overlay.change s.ref.accounts (d + 1) a (s.ref.now, some frm), now := s.ref.now + 1 }
  | .change d a f =>
    match s.ref.account db d a with
    | none => s.ref
    | some v =>
      { s.ref with accounts := Overlay.change s.ref.accounts (d + 1) a (s.ref.now, some (f v)), now := s.ref.now + 1 }
  | .updateNewValidators d v =>
    { s.ref with
      settings := Overlay.change s.ref.settings (d + 1) Environments.validatorsKey (s.ref.now, some v)
      now := s.ref.now + 1 }
  | .updateFeeConfig d c =>
    let fees := match s.ref.setting validators d Environments.feesKey with
      | none => c
      | some fees => Environments.mergeFees c fees
    { s.ref with
      settings := Overlay.change s.ref.settings (d + 1) Environments.feesKey (s.ref.now, some fees)
      now := s.ref.now + 1 }
  | .commit d => { s.ref with accounts := foldLog s.ref.accounts d, settings := foldLog s.ref.settings d }
  | .clearChangeBuf d =>
    { s.ref with accounts := wipeLog s.ref.accounts (d + 1), settings := wipeLog s.ref.settings (d + 1) }
  | .discard =>
    { s.ref with
      accounts := wipeLog s.ref.accounts (s.depth + 1), settings := wipeLog s.ref.settings (s.depth + 1) }
  | _ => s.ref

/-- One operation, on the environments and on the reference. -/
def FrameOp.step (s : Frames) (op : FrameOp) : Frames :=
  { envs := (op.apply db validators s).1, depth := (op.apply db validators s).2, ref := op.note db validators s }

end Run

/-- A block environment with nothing in it. -/
def Frames.init : Frames :=
  { envs := Environments.init, depth := 0, ref := { accounts := fun _ _ => none, settings := fun _ _ => none, now := 0 } }

/-- The frame an operation names is there; the block environment is never thrown away. -/
def FrameOp.Legal (s : Frames) : FrameOp → Prop
  | .getEntry d _ | .addEntry d _ _ | .change d _ _ | .getValidators d | .getVotedValidators d
  | .updateNewValidators d _ | .getVotedFee d | .updateFeeConfig d _ | .commit d | .clearChangeBuf d => d ≤ s.depth
  | .newStackFrameEnv => True
  | .discard => 0 < s.depth

/-- A key is held by the buffer of the frame of depth `d` or by the one it was made from, or no layer further
out holds it. -/
def Linked {K V : Type} (L : ℕ → Overlay K V) (d : ℕ) (k : K) : Prop :=
  L (d + 1) k ≠ none ∨ L d k ≠ none ∨ ∀ i < d, L i k = none

/-- No frame inside the one of depth `d` holds its own copy of a key. -/
def Uncopied {K V : Type} (L : ℕ → Overlay K V) (d : ℕ) (k : K) : Prop :=
  ∀ i, d + 1 < i → L i k = none

/-- The condition under which the stack works: an entry is read only where it is linked, changed only where no
inner frame holds a copy, and a buffer is cleared only in the innermost frame. -/
def FrameOp.Apt (s : Frames) : FrameOp → Prop
  | .getEntry d a => Linked s.envs.accounts d a
  | .addEntry d a _ => Uncopied s.envs.accounts d a
  | .change d a _ => Linked s.envs.accounts d a ∧ Uncopied s.envs.accounts d a
  | .getValidators d | .getVotedValidators d => Linked s.envs.settings d validatorsKey
  | .updateNewValidators d _ => Uncopied s.envs.settings d validatorsKey
  | .getVotedFee d => Linked s.envs.settings d feesKey
  | .updateFeeConfig d _ => Linked s.envs.settings d feesKey ∧ Uncopied s.envs.settings d feesKey
  | .clearChangeBuf d => d = s.depth
  | .commit _ | .newStackFrameEnv | .discard => True

section Layers
variable {K V : Type} [DecidableEq K] {base : K → Option V} {L : ℕ → Overlay K V} {g : Log K V} {now d : ℕ} {k : K}

omit [DecidableEq K] in
theorem near_eq_view (h : Linked L d k) : near base L d k = view base L (d + 1) k := by
  rcases hb : L (d + 1) k with _ | r
  · rw [view_succ_of_unheld hb]
    rcases hd : L d k with _ | r
    · have hlow : ∀ i < d, L i k = none := by
        rcases h with h | h | h
        · exact absurd hb h
        · exact absurd hd h
        · exact h
      have hall : ∀ i ≤ d, L i k = none := by
        intro i hi
        rcases Nat.lt_or_eq_of_le hi with hlt | rfl
        · exact hlow i hlt
        · exact hd
      rw [view_eq_base hall]
      simp [near, hb, hd]
    · rw [view_of_held hd]
      simp [near, hb, hd]
  · rw [view_of_held hb]
    simp [near, hb]

theorem Overlay.Tracks.read (h : Tracks base L g now) (hl : Linked L d k) :
    Tracks base (toLayers L d ((ofLayers L d).getValue base k).2) g now := by
  rw [toLayers_getValue, near_eq_view hl]
  exact h.hold

theorem toLayers_alter_getValue (base : K → Option V) (L : ℕ → Overlay K V) (d : ℕ) (k : K) (f : V → V) :
    let L' := toLayers L d ((ofLayers L d).getValue base k).2
    toLayers L' d ((ofLayers L' d).alter k f) = hold L (d + 1) k ((near base L d k).map f) := by
  intro L'
  have hL' : L' = _ := toLayers_getValue base L d k
  rw [toLayers_alter]
  rcases hn : near base L d k with _ | v
  · rw [hn] at hL'
    rw [hL']
    rcases hb : L (d + 1) k with _ | _ | v
    · simp [hb]
    · simp [hb]
    · simp [near, hb] at hn
  · rw [hn] at hL'
    simp [hL']

end Layers

/-- The states reached by legal operations that meet the condition. -/
inductive AptRun (db : AccountDb) (validators : List Validator) : Frames → Prop
  | init : AptRun db validators Frames.init
  | step {s : Frames} (op : FrameOp) : AptRun db validators s → op.Legal s → op.Apt s →
      AptRun db validators (op.step db validators s)

/-! ### The invariant -/

/-- The environments are in step with their reference. Layers above the innermost frame are empty, and no
setting is deleted. -/
structure Frames.InStep (db : AccountDb) (validators : List Validator) (s : Frames) : Prop where
  accounts : Tracks db.accountFromDB s.envs.accounts s.ref.accounts s.ref.now
  settings : Tracks (settingsBase validators) s.envs.settings s.ref.settings s.ref.now
  aboveAccounts : ∀ i, s.depth + 1 < i → s.envs.accounts i = empty
  aboveSettings : ∀ i, s.depth + 1 < i → s.envs.settings i = empty
  kept : ∀ i k, s.envs.settings i k ≠ some none

section Shape
variable {K V : Type} [DecidableEq K] {L : ℕ → Overlay K V} {d n : ℕ} {k : K}

theorem hold_above (o : Option V) (hd : d ≤ n) (h : ∀ i, n < i → L i = empty) :
    ∀ i, n < i → hold L d k o i = empty := by
  intro i hi
  cases o with
  | none => exact h i hi
  | some v => rw [hold_some, record_of_ne_layer (by omega), h i hi]

theorem hold_kept (o : Option V) (h : ∀ i k, L i k ≠ some none) : ∀ i k', hold L d k o i k' ≠ some none := by
  intro i k'
  cases o with
  | none => exact h i k'
  | some v =>
    by_cases hk : k' = k
    · subst hk
      by_cases hi : i = d
      · subst hi
        simp
      · rw [hold_some, record_of_ne_layer hi]
        exact h i k'
    · rw [hold_some, record_of_ne_key hk]
      exact h i k'

omit [DecidableEq K] in
theorem fold_above (hd : d < n) (h : ∀ i, n < i → L i = empty) : ∀ i, n < i → fold L d i = empty := by
  intro i hi
  rw [fold_of_ne (by omega) (by omega), h i hi]

omit [DecidableEq K] in
theorem fold_kept (h : ∀ i k, L i k ≠ some none) : ∀ i k, fold L d i k ≠ some none := by
  intro i k
  by_cases hi : i = d
  · subst hi
    rw [fold_low, merge]
    rcases hk : L (i + 1) k with _ | r
    · simpa using h i k
    · have hne := h (i + 1) k
      rw [hk] at hne
      simpa using hne
  · by_cases hi' : i = d + 1
    · rw [hi', fold_high]
      simp
    · rw [fold_of_ne hi hi']
      exact h i k

omit [DecidableEq K] in
theorem wipe_above (h : ∀ i, n < i → L i = empty) : ∀ i, n < i → wipe L d i = empty := by
  intro i hi
  by_cases hid : i = d
  · rw [hid, wipe_self]
  · rw [wipe_of_ne hid, h i hi]

omit [DecidableEq K] in
theorem wipe_kept (h : ∀ i k, L i k ≠ some none) : ∀ i k, wipe L d i k ≠ some none := by
  intro i k
  by_cases hid : i = d
  · rw [hid, wipe_self]
    simp
  · rw [wipe_of_ne hid]
    exact h i k

end Shape

section Step
variable {db : AccountDb} {validators : List Validator} {s : Frames}

theorem Frames.inStep_init : Frames.init.InStep db validators where
  accounts := Tracks.init
  settings := Tracks.init
  aboveAccounts _ _ := rfl
  aboveSettings _ _ := rfl
  kept _ _ h := nomatch h

variable (h : s.InStep db validators)
include h

theorem Frames.InStep.near_settings (d : ℕ) (key : String) :
    near (settingsBase validators) s.envs.settings d key =
      (near (fun _ => none) s.envs.settings d key).or (settingsBase validators key) := by
  simp only [near]
  rcases hb : s.envs.settings (d + 1) key with _ | _ | v
  · rcases hd : s.envs.settings d key with _ | _ | v
    · rfl
    · exact absurd hd (h.kept d key)
    · rfl
  · exact absurd hb (h.kept (d + 1) key)
  · rfl

variable {key : String} {d : ℕ}

theorem Frames.InStep.near_setting (hl : Linked s.envs.settings d key) :
    (near (fun _ => none) s.envs.settings d key).or (settingsBase validators key) =
      s.ref.setting validators d key := by
  rw [← h.near_settings, near_eq_view hl, h.settings.seen]
  rfl

theorem Frames.InStep.near_account {a : Address} (hl : Linked s.envs.accounts d a) :
    near db.accountFromDB s.envs.accounts d a = s.ref.account db d a := by
  rw [near_eq_view hl, h.accounts.seen]
  rfl

theorem Frames.InStep.of_accounts {s' : Frames} (hdepth : s'.depth = s.depth)
    (hsettings : s'.envs.settings = s.envs.settings) (hlog : s'.ref.settings = s.ref.settings)
    (hnow : s.ref.now ≤ s'.ref.now)
    (htracks : Tracks db.accountFromDB s'.envs.accounts s'.ref.accounts s'.ref.now)
    (habove : ∀ i, s.depth + 1 < i → s'.envs.accounts i = empty) : s'.InStep db validators where
  accounts := htracks
  settings := by
    rw [hsettings, hlog]
    exact { h.settings with past := fun d k x hx => lt_of_lt_of_le (h.settings.past d k x hx) hnow }
  aboveAccounts := by rwa [hdepth]
  aboveSettings := by
    rw [hdepth, hsettings]
    exact h.aboveSettings
  kept := by
    rw [hsettings]
    exact h.kept

theorem Frames.InStep.of_settings {s' : Frames} {o : Option Json}
    (hdepth : s'.depth = s.depth) (hd : d ≤ s.depth) (haccounts : s'.envs.accounts = s.envs.accounts)
    (hlog : s'.ref.accounts = s.ref.accounts) (hnow : s.ref.now ≤ s'.ref.now)
    (hsettings : s'.envs.settings = hold s.envs.settings (d + 1) key o)
    (htracks : Tracks (settingsBase validators) s'.envs.settings s'.ref.settings s'.ref.now) :
    s'.InStep db validators where
  accounts := by
    rw [haccounts, hlog]
    exact { h.accounts with past := fun d k x hx => lt_of_lt_of_le (h.accounts.past d k x hx) hnow }
  settings := htracks
  aboveAccounts := by
    rw [hdepth, haccounts]
    exact h.aboveAccounts
  aboveSettings := by
    rw [hdepth, hsettings]
    exact hold_above o (by omega) h.aboveSettings
  kept := by
    rw [hsettings]
    exact hold_kept o h.kept

theorem Frames.InStep.getSetting (hd : d ≤ s.depth) (hl : Linked s.envs.settings d key) :
    Frames.InStep db validators { s with envs := (s.envs.getSetting d key).2 } := by
  refine h.of_settings rfl hd rfl rfl (le_refl _) (s.envs.getSetting_settings key) ?_
  show Tracks _ (s.envs.getSetting d key).2.settings _ _
  rw [s.envs.getSetting_settings]
  cases hn : near (fun _ => none) s.envs.settings d key with
  | none => exact h.settings
  | some v =>
    refine h.settings.copy ?_
    rw [← near_eq_view hl, h.near_settings, hn, Option.some_or]

theorem Frames.InStep.clear : Frames.InStep db validators { s with
        envs := s.envs.clearChangeBuf s.depth
        ref := { s.ref with
          accounts := wipeLog s.ref.accounts (s.depth + 1), settings := wipeLog s.ref.settings (s.depth + 1) } } where
  accounts := by
    rw [clearChangeBuf_accounts]
    refine h.accounts.wipe fun k _ i hi => ?_
    rw [h.aboveAccounts i hi]
    rfl
  settings := by
    rw [clearChangeBuf_settings]
    refine h.settings.wipe fun k _ i hi => ?_
    rw [h.aboveSettings i hi]
    rfl
  aboveAccounts := by
    rw [clearChangeBuf_accounts]
    exact wipe_above h.aboveAccounts
  aboveSettings := by
    rw [clearChangeBuf_settings]
    exact wipe_above h.aboveSettings
  kept := by
    rw [clearChangeBuf_settings]
    exact wipe_kept h.kept

theorem Frames.InStep.step {op : FrameOp} (hlegal : op.Legal s) (hapt : op.Apt s) :
    (op.step db validators s).InStep db validators := by
  cases op with
  | getEntry d a =>
    refine h.of_accounts rfl rfl rfl (le_refl _) (h.accounts.read hapt) ?_
    intro i hi
    have he := s.envs.getEntry_accounts db d a
    exact (congrFun he i).trans (hold_above _ (Nat.succ_le_succ hlegal) h.aboveAccounts i hi)
  | addEntry d a frm =>
    have he := s.envs.addEntry_accounts (d := d) a frm
    refine h.of_accounts rfl rfl rfl (Nat.le_succ _) ?_ ?_
    · show Tracks _ (s.envs.addEntry d a frm).accounts _ _
      rw [he]
      exact h.accounts.change hapt
    · intro i hi
      exact (congrFun he i).trans (hold_above (some frm) (Nat.succ_le_succ hlegal) h.aboveAccounts i hi)
  | change d a f =>
    obtain ⟨hl, hu⟩ := hapt
    have he : ((s.envs.getEntry db d a).2.alterEntry d a f).accounts = _ :=
      toLayers_alter_getValue db.accountFromDB s.envs.accounts d a f
    rw [h.near_account hl] at he
    have habove (i : ℕ) (hi : s.depth + 1 < i) :
        ((s.envs.getEntry db d a).2.alterEntry d a f).accounts i = empty :=
      (congrFun he i).trans (hold_above _ (Nat.succ_le_succ hlegal) h.aboveAccounts i hi)
    cases hv : s.ref.account db d a with
    | none =>
      have hn : (FrameOp.change d a f).note db validators s = s.ref := by simp [FrameOp.note, hv]
      rw [hv] at he
      refine h.of_accounts rfl rfl (by rw [FrameOp.step, hn]) (by rw [FrameOp.step, hn]) ?_ habove
      rw [FrameOp.step, hn]
      show Tracks _ ((s.envs.getEntry db d a).2.alterEntry d a f).accounts _ _
      rw [he]
      exact h.accounts
    | some v =>
      have hn : (FrameOp.change d a f).note db validators s =
          { s.ref with accounts := Overlay.change s.ref.accounts (d + 1) a (s.ref.now, some (f v)),
                       now := s.ref.now + 1 } := by simp [FrameOp.note, hv]
      rw [hv] at he
      refine h.of_accounts rfl rfl (by rw [FrameOp.step, hn]) (by rw [FrameOp.step, hn]; exact Nat.le_succ _) ?_ habove
      rw [FrameOp.step, hn]
      show Tracks _ ((s.envs.getEntry db d a).2.alterEntry d a f).accounts _ _
      rw [he]
      exact h.accounts.change hu
  | getValidators d =>
    have hv := h.near_setting hapt
    refine h.of_settings rfl hlegal (s.envs.getValidators_accounts validators) rfl (le_refl _) (o := some _)
      (s.envs.getValidators_settings validators) ?_
    show Tracks _ (s.envs.getValidators validators d).2.settings _ _
    rw [s.envs.getValidators_settings]
    refine h.settings.copy ?_
    rw [h.settings.seen]
    refine Eq.trans hv.symm ?_
    cases AtomMap.near (fun _ => none) s.envs.settings d Environments.validatorsKey <;> rfl
  | getVotedValidators d => exact h.getSetting hlegal hapt
  | updateNewValidators d v =>
    refine h.of_settings rfl hlegal rfl rfl (Nat.le_succ _) (o := some v) (s.envs.updateNewValidators_settings v) ?_
    show Tracks _ (s.envs.updateNewValidators d v).settings _ _
    rw [s.envs.updateNewValidators_settings]
    exact h.settings.change hapt
  | getVotedFee d => exact h.getSetting hlegal hapt
  | updateFeeConfig d c =>
    obtain ⟨hl, hu⟩ := hapt
    have hv := h.near_setting hl
    have hnone : settingsBase validators Environments.feesKey = none := by
      simp [settingsBase, Environments.feesKey, Environments.validatorsKey]
    rw [hnone, Option.or_none] at hv
    have he := s.envs.updateFeeConfig_settings (d := d) c
    rw [hv] at he
    refine h.of_settings rfl hlegal (s.envs.updateFeeConfig_accounts c) rfl (Nat.le_succ _) (o := some _) he ?_
    show Tracks _ (s.envs.updateFeeConfig d c).settings _ _
    rw [he]
    exact h.settings.change hu
  | commit d =>
    exact
      { accounts := h.accounts.fold
        settings := h.settings.fold
        aboveAccounts := fold_above (Nat.lt_succ_of_le hlegal) h.aboveAccounts
        aboveSettings := fold_above (Nat.lt_succ_of_le hlegal) h.aboveSettings
        kept := fold_kept h.kept }
  | clearChangeBuf d =>
    obtain rfl : d = s.depth := hapt
    exact h.clear
  | newStackFrameEnv =>
    have ha := h.aboveAccounts (s.depth + 2) (by omega)
    have hs := h.aboveSettings (s.depth + 2) (by omega)
    have he : s.envs.newStackFrameEnv s.depth = s.envs := by
      refine (congrArg₂ Environments.mk ?_ ?_ : s.envs.newStackFrameEnv s.depth = s.envs)
      · exact (Environments.clearChangeBuf_accounts ..).trans (wipe_eq_self ha)
      · exact (Environments.clearChangeBuf_settings ..).trans (wipe_eq_self hs)
    have hstep : FrameOp.newStackFrameEnv.step db validators s = { s with depth := s.depth + 1 } := by
      simp only [FrameOp.step, FrameOp.apply, FrameOp.note, he]
    rw [hstep]
    exact
      { h with
        aboveAccounts := fun i hi => h.aboveAccounts i (by simp only at hi; omega)
        aboveSettings := fun i hi => h.aboveSettings i (by simp only at hi; omega) }
  | discard =>
    -- the buffers of the frame that is gone are empty, so one layer less may be in use
    have hpos : 0 < s.depth := hlegal
    have hc := h.clear
    refine { hc with aboveAccounts := fun i hi => ?_, aboveSettings := fun i hi => ?_ }
    · rcases Nat.lt_or_ge (s.depth + 1) i with hlt | hge
      · exact hc.aboveAccounts i hlt
      · obtain rfl : i = s.depth + 1 := by simp only [FrameOp.step, FrameOp.apply] at hi; omega
        show (s.envs.clearChangeBuf s.depth).accounts (s.depth + 1) = empty
        rw [Environments.clearChangeBuf_accounts, wipe_self]
    · rcases Nat.lt_or_ge (s.depth + 1) i with hlt | hge
      · exact hc.aboveSettings i hlt
      · obtain rfl : i = s.depth + 1 := by simp only [FrameOp.step, FrameOp.apply] at hi; omega
        show (s.envs.clearChangeBuf s.depth).settings (s.depth + 1) = empty
        rw [Environments.clearChangeBuf_settings, wipe_self]

omit h in
theorem AptRun.inStep (h : AptRun db validators s) : s.InStep db validators := by
  induction h with
  | init => exact Frames.inStep_init
  | step op _ hlegal hapt ih => exact ih.step hlegal hapt

end Step

/-! ### Reads and commits of a run -/

/-- What the reads of a state return and what its commits leave, against the reference. -/
structure Frames.ReadsLatest (db : AccountDb) (validators : List Validator) (s : Frames) : Prop where
  getEntry : ∀ d ≤ s.depth, ∀ a, Linked s.envs.accounts d a → (s.envs.getEntry db d a).1 = s.ref.account db d a
  getValidators : ∀ d ≤ s.depth, Linked s.envs.settings d validatorsKey →
    some (s.envs.getValidators validators d).1 = s.ref.setting validators d validatorsKey
  getVotedValidators : ∀ d ≤ s.depth, Linked s.envs.settings d validatorsKey →
    (s.envs.getSetting d validatorsKey).1.or (some (validatorsJson validators)) =
      s.ref.setting validators d validatorsKey
  getVotedFee : ∀ d ≤ s.depth, Linked s.envs.settings d feesKey → ∀ old,
    (s.envs.getVotedFee old d).1 = votedFee old (s.ref.setting validators d feesKey)
  /-- A frame that did not change an account leaves it as it was when it commits. -/
  commit : ∀ d ≤ s.depth, ∀ a, s.ref.accounts (d + 1) a = none →
    view db.accountFromDB (s.envs.commit d).accounts d a = view db.accountFromDB s.envs.accounts d a
  commitSettings : ∀ d ≤ s.depth, ∀ key, s.ref.settings (d + 1) key = none →
    view (settingsBase validators) (s.envs.commit d).settings d key =
      view (settingsBase validators) s.envs.settings d key

theorem Overlay.Tracks.view_fold_unchanged {K V : Type} {base : K → Option V} {L : ℕ → Overlay K V} {g : Log K V}
    {now d : ℕ} {k : K} (h : Tracks base L g now) (hk : g (d + 1) k = none) :
    view base (Overlay.fold L d) d k = view base L d k := by
  rw [view_fold_low, h.seen, h.seen, outcome, outcome, latest, hk, later_none_left]

/-- In every state an apt run reaches, each linked read returns the state after the latest change made in an
enclosing frame or committed before, and a frame that only read an entry commits nothing new. -/
theorem layered_reads_latest {db : AccountDb} {validators : List Validator} {s : Frames}
    (h : AptRun db validators s) : s.ReadsLatest db validators where
  getEntry d _ a hl := (s.envs.getEntry_fst db d a).trans (h.inStep.near_account hl)
  getValidators d _ hl := by
    have hv := h.inStep.near_setting hl
    rw [s.envs.getValidators_fst, ← hv]
    cases near (fun _ => none) s.envs.settings d validatorsKey <;> rfl
  getVotedValidators d _ hl := by
    rw [s.envs.getSetting_fst]
    exact h.inStep.near_setting hl
  getVotedFee d _ hl old := by
    have hv := h.inStep.near_setting hl
    have hnone : settingsBase validators feesKey = none := by
      simp [settingsBase, feesKey, validatorsKey]
    rw [hnone, Option.or_none] at hv
    rw [← hv, ← s.envs.getSetting_fst]
    rfl
  commit d _ a hk := h.inStep.accounts.view_fold_unchanged hk
  commitSettings d _ key hk := h.inStep.settings.view_fold_unchanged hk

/-- One account, whose nonce in the database is 1. -/
def oneAccountDb : AccountDb where
  account a := if a = "alice" then some { address := "alice", nonce := 1 } else none
  asset _ _ := none
  metadata _ _ := none

/-- Run a list of operations from the fresh block environment. -/
def runFrames (db : AccountDb) (validators : List Validator) (ops : List FrameOp) : Frames :=
  ops.foldl (FrameOp.step db validators) Frames.init

/-- What a transaction does before it is applied, and then the frame of a nested transaction: the nonce is
increased in the block environment, which commits it. -/
def nonceThenFrame : List FrameOp :=
  [.change 0 "alice" AccountFrm.nonceIncrease, .commit 0, .newStackFrameEnv]

/-- The nested frame reads the nonce of the database, not the one the block has committed. -/
theorem nested_read_is_stale :
    let s := runFrames oneAccountDb [] nonceThenFrame
    (s.envs.getEntry oneAccountDb s.depth "alice").1.map AccountFrm.nonce = some 1 ∧
      (s.ref.account oneAccountDb s.depth "alice").map AccountFrm.nonce = some 2 := by
  decide

theorem layered_reads_latest_frame : ∃ s, AptRun oneAccountDb [] s ∧ s.depth = 1 ∧
      (s.envs.getEntry oneAccountDb 1 "alice").1 = s.ref.account oneAccountDb 1 "alice" ∧
      (s.ref.account oneAccountDb 1 "alice").map AccountFrm.nonce = some 2 := by
  have hrun : AptRun oneAccountDb []
      (runFrames oneAccountDb [] [.change 0 "alice" AccountFrm.nonceIncrease, .newStackFrameEnv]) := by
    refine AptRun.step .newStackFrameEnv (AptRun.step (.change 0 "alice" _) AptRun.init ?_ ?_) ?_ ?_
    · exact Nat.zero_le 0
    · exact ⟨Or.inr (Or.inr fun i hi => absurd hi (Nat.not_lt_zero i)), fun i _ => rfl⟩
    · trivial
    · trivial
  refine ⟨_, hrun, by decide, ?_, by decide⟩
  exact (layered_reads_latest hrun).getEntry 1 (by decide) "alice" (Or.inr (Or.inl (Option.some_ne_none _)))

end OpenSesame
