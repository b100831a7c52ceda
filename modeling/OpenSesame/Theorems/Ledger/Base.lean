import OpenSesame.Theorems.Ledger.Discipline

/-! # What `Apply` leaves alone

Until the environment of the block is committed, its `stor_` is not touched: every write of a transaction and of
the scripts it runs goes to a change buffer. -/

namespace OpenSesame
open Protocol Environments Overlay

structure SameBase (s₀ s : LedgerContext) : Prop where
  accounts : s.envs.accounts 0 = s₀.envs.accounts 0
  settings : s.envs.settings 0 = s₀.envs.settings 0
  ledgerSeq : s.ledgerSeq = s₀.ledgerSeq
  closeTime : s.closeTime = s₀.closeTime
  isTestMode : s.isTestMode = s₀.isTestMode

namespace SameBase
variable {s₀ s t : LedgerContext}

theorem refl (s : LedgerContext) : SameBase s s := ⟨rfl, rfl, rfl, rfl, rfl⟩

theorem trans (h : SameBase s₀ s) (h' : SameBase s t) : SameBase s₀ t where
  accounts := h'.accounts.trans h.accounts
  settings := h'.settings.trans h.settings
  ledgerSeq := h'.ledgerSeq.trans h.ledgerSeq
  closeTime := h'.closeTime.trans h.closeTime
  isTestMode := h'.isTestMode.trans h.isTestMode

theorem symm (h : SameBase s₀ s) : SameBase s s₀ where
  accounts := h.accounts.symm
  settings := h.settings.symm
  ledgerSeq := h.ledgerSeq.symm
  closeTime := h.closeTime.symm
  isTestMode := h.isTestMode.symm

theorem of_envs {e : Environments} {tr : Trace} (ha : e.accounts 0 = s.envs.accounts 0)
    (hs : e.settings 0 = s.envs.settings 0) : SameBase s { s with envs := e, trace := tr } :=
  ⟨ha, hs, rfl, rfl, rfl⟩

end SameBase

variable {P : LedgerContext → Prop} {s₀ : LedgerContext} {α : Type}

theorem respects_base {m : LedgerM α} (h : ∀ s a t, m s = some (a, t) → SameBase s t) :
    Respects (Same (SameBase s₀)) (fun _ => True) P m :=
  .of_invariant (fun _ _ h => h) fun _ hI hs _ => hI.trans (h _ _ _ hs)

theorem respects_base_of_total {f : LedgerContext → α} {g : LedgerContext → LedgerContext} (h : ∀ s, SameBase s (g s)) :
    Respects (Same (SameBase s₀)) (fun _ => True) P fun s => some (f s, g s) := by
  refine respects_base fun s a t hs => ?_
  cases hs
  exact h s

theorem respects_base_of_option {f : LedgerContext → Option α} {g : LedgerContext → LedgerContext}
    (h : ∀ s, SameBase s (g s)) :
    Respects (Same (SameBase s₀)) (fun _ => True) P fun s => (f s).map fun a => (a, g s) := by
  refine respects_base fun s a t hs => ?_
  obtain ⟨_, -, hs⟩ := Option.map_eq_some_iff.mp hs
  cases hs
  exact h s

section Primitives
variable (w : World) (d : ℕ) (a : Address) (s : LedgerContext)

theorem getEntry_base : SameBase s { s with
      envs := (s.envs.getEntry w.db d a).2
      trace := { s.trace with missed := s.trace.missed || s.envs.passesOver d a } } :=
  .of_envs (by rw [getEntry_accounts, hold_of_ne_layer (by omega)]) rfl

theorem alterEntry_base (f : AccountFrm → AccountFrm) : SameBase s { s with envs := s.envs.alterEntry d a f } :=
  .of_envs (by rw [alterEntry_accounts, hold_of_ne_layer (by omega)]) rfl

theorem addEntry_base (frm : AccountFrm) : SameBase s { s with envs := s.envs.addEntry d a frm } :=
  .of_envs (by rw [addEntry_accounts, record_of_ne_layer (by omega)]) rfl

theorem commit_base : SameBase s { s with envs := s.envs.commit (d + 1) } :=
  .of_envs (by rw [commit_accounts, fold_of_ne (by omega) (by omega)])
    (by rw [commit_settings, fold_of_ne (by omega) (by omega)])

theorem newStackFrameEnv_base : SameBase s { s with envs := s.envs.newStackFrameEnv d } :=
  .of_envs (by rw [Environments.newStackFrameEnv, Environments.clearChangeBuf_accounts, Overlay.wipe_of_ne (by omega)])
    (by rw [Environments.newStackFrameEnv, Environments.clearChangeBuf_settings, Overlay.wipe_of_ne (by omega)])

theorem getValidators_base : SameBase s { s with envs := (s.envs.getValidators w.validators d).2 } :=
  .of_envs (by rw [getValidators_accounts]) (by rw [getValidators_settings, record_of_ne_layer (by omega)])

theorem updateFeeConfig_base (j : Json) : SameBase s { s with envs := s.envs.updateFeeConfig d j } :=
  .of_envs (by rw [updateFeeConfig_accounts]) (by rw [updateFeeConfig_settings, record_of_ne_layer (by omega)])

theorem updateNewValidators_base (j : Json) : SameBase s { s with envs := s.envs.updateNewValidators d j } :=
  .of_envs rfl (by rw [updateNewValidators_settings, record_of_ne_layer (by omega)])

end Primitives

def baseDiscipline (w : World) (s₀ : LedgerContext) : ScriptDiscipline w where
  rel := Same (SameBase s₀)
  ok _ := True
  getEntry d a := respects_base_of_total (getEntry_base w d a)
  deref _ _ := respects_base_of_option .refl
  alterEntry d a f _ _ := respects_base_of_total fun s => alterEntry_base d a s f
  addEntry d a frm _ _ := respects_base_of_total fun s => addEntry_base d a s frm
  nonceIncrease d a := respects_base_of_total fun s =>
    alterEntry_base d a s AccountFrm.nonceIncrease |>.trans ⟨rfl, rfl, rfl, rfl, rfl⟩
  commit d := respects_base_of_total (commit_base d)
  newStackFrameEnv d := respects_base_of_total (newStackFrameEnv_base d)
  getValidators d := respects_base_of_total (getValidators_base w d)
  updateFeeConfig d j := respects_base_of_total fun s => updateFeeConfig_base d s j
  updateNewValidators d j := respects_base_of_total fun s => updateNewValidators_base d s j
  askLedger := respects_base_of_total .refl
  askTx _ _ _ := respects_base_of_total .refl
  alterTx _ _ _ := respects_base_of_total fun _ => ⟨rfl, rfl, rfl, rfl, rfl⟩
  pushTx _ := respects_base_of_total fun _ => ⟨rfl, rfl, rfl, rfl, rfl⟩
  pushAgain _ := respects_base_of_total fun _ => ⟨rfl, rfl, rfl, rfl, rfl⟩
  popTx := popTx_eq ▸ respects_base_of_option fun _ => ⟨rfl, rfl, rfl, rfl, rfl⟩
  stackSize := respects_base_of_total .refl
  getBottomTx := respects_base_of_option .refl
  getTopTx := respects_base_of_option .refl
  trip _ _ := respects_base_of_total fun _ => ⟨rfl, rfl, rfl, rfl, rfl⟩
  noteResult _ := respects_base_of_total fun _ => ⟨rfl, rfl, rfl, rfl, rfl⟩

theorem applyTop_base {w : World} {fuel i : ℕ} {s t : LedgerContext} {ret : Bool}
    (h : LedgerFrm.applyTop w fuel i s = some (ret, t)) : SameBase s t :=
  ((baseDiscipline w s).applyTop fuel i).invariant trivial (.refl s) h trivial

end OpenSesame
