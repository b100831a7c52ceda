
import OpenSesame.Theorems.Ledger.Block

/-! # Nonces and replays

The nonce of an account is increased in the environment of the block and committed there before
anything else happens. -/

namespace OpenSesame
open Protocol StateOption LedgerFrm Environments Overlay AccountFrm Function

/-- The nonces as they are committed in the block. -/
def nonces (w : World) (s : LedgerContext) (a : Address) : Option Int64 :=
  (view w.db.accountFromDB s.envs.accounts 0 a).map nonce

def AtLeast (m : Option Int64) (n : Int64) : Prop := ∀ x ∈ m, x ≤ n

/-- No nonce gets smaller, and no account is lost. -/
def Grows (f g : Address → Option Int64) : Prop := ∀ a n, f a = some n → ∃ m, g a = some m ∧ n ≤ m

theorem Grows.refl (f : Address → Option Int64) : Grows f f := fun _ n h => ⟨n, h, Int64.le_refl n⟩

theorem Grows.trans {f g h : Address → Option Int64} (hfg : Grows f g) (hgh : Grows g h) : Grows f h := by
  intro a n hn
  obtain ⟨m, hm, hnm⟩ := hfg a n hn
  obtain ⟨k, hk, hmk⟩ := hgh a m hm
  exact ⟨k, hk, Int64.le_trans hnm hmk⟩

/-! ### A floor under the nonces -/

/-- The `stor_` has the nonces `V`, no layer deletes an account, and no change buffer has a nonce below `V`. -/
structure Floor (db : AccountDb) (V : Address → Option Int64) (L : ℕ → Overlay Address AccountFrm) : Prop where
  low : ∀ a, (view db.accountFromDB L 0 a).map nonce = V a
  live : ∀ j a, L j a ≠ some none
  floor : ∀ j a frm, L (j + 1) a = some (some frm) → AtLeast (V a) frm.nonce

namespace Floor
variable {db : AccountDb} {V : Address → Option Int64} {L : ℕ → Overlay Address AccountFrm} {d : ℕ} {a : Address}
  {frm : AccountFrm}

variable (h : Floor db V L)
include h

theorem update {m : Overlay Address AccountFrm} (hlive : ∀ a, m a ≠ some none)
    (hfloor : ∀ a frm, m a = some (some frm) → AtLeast (V a) frm.nonce) :
    Floor db V (update L (d + 1) m) where
  low a := by
    rw [← h.low a, view, view, update_of_ne (Nat.succ_ne_zero d).symm]
  live j := by
    by_cases hj : j = d + 1
    · subst hj
      rw [update_self]
      exact hlive
    · rw [update_of_ne hj]
      exact h.live j
  floor j := by
    by_cases hj : j + 1 = d + 1
    · rw [hj, update_self]
      exact hfloor
    · rw [update_of_ne hj]
      exact h.floor j

theorem record (hfrm : AtLeast (V a) frm.nonce) : Floor db V (Overlay.record L (d + 1) a (some frm)) := by
  refine h.update (fun b => ?_) fun b x hx => ?_
  · by_cases hb : b = a
    · subst hb
      rw [Overlay.put_self]
      exact nofun
    · rw [Overlay.put_of_ne _ hb]
      exact h.live _ b
  · by_cases hb : b = a
    · subst hb
      rw [Overlay.put_self] at hx
      obtain rfl := Option.some.inj (Option.some.inj hx)
      exact hfrm
    · rw [Overlay.put_of_ne _ hb] at hx
      exact h.floor d b x hx

theorem hold {o : Option AccountFrm} (ho : ∀ x ∈ o, AtLeast (V a) x.nonce) :
    Floor db V (hold L (d + 1) a o) := by
  cases o with
  | none => exact h
  | some x => exact h.record (ho x rfl)

theorem wipe : Floor db V (wipe L (d + 1)) := h.update (fun _ => nofun) fun _ _ hx => absurd hx nofun

theorem fold : Floor db V (fold L (d + 1)) := by
  refine Floor.update (Floor.update h (fun b => ?_) fun b x hx => ?_) (fun _ => nofun) fun _ _ hx => absurd hx nofun
  · rw [merge]
    cases hL : L (d + 1 + 1) b with
    | none => exact h.live _ b
    | some r => rw [Option.some_or, ← hL]; exact h.live _ b
  · rw [merge] at hx
    cases hL : L (d + 1 + 1) b with
    | none =>
      rw [hL, Option.none_or] at hx
      exact h.floor d b x hx
    | some r =>
      rw [hL, Option.some_or] at hx
      exact h.floor (d + 1) b x (hL.trans hx)

theorem near (hfrm : AtomMap.near db.accountFromDB L d a = some frm)
    (hover : ∀ i < d, L (d + 1) a = none → L d a = none → L i a = none) : AtLeast (V a) frm.nonce := by
  rw [AtomMap.near] at hfrm
  have hlow {x : AccountFrm} (hx : view db.accountFromDB L 0 a = some x) : AtLeast (V a) x.nonce := by
    rintro m hm
    rw [← h.low a, hx] at hm
    exact Option.some.inj hm ▸ Int64.le_refl _
  rcases hbuff : L (d + 1) a with - | r
  · rw [hbuff, Option.getD_none] at hfrm
    rcases hdata : L d a with - | r
    · rw [hdata, Option.getD_none] at hfrm
      have hzero : L 0 a = none := by
        cases d with
        | zero => exact hdata
        | succ d => exact hover 0 (Nat.succ_pos d) hbuff hdata
      exact hlow (by rw [view, hzero]; exact hfrm)
    · rw [hdata, Option.getD_some] at hfrm
      subst hfrm
      cases d with
      | zero => exact hlow (view_of_held hdata)
      | succ d => exact h.floor d a frm hdata
  · rw [hbuff, Option.getD_some] at hfrm
    subst hfrm
    exact h.floor d a frm hbuff

theorem absent (hnone : AtomMap.near db.accountFromDB L d a = none)
    (hover : ∀ i < d, L (d + 1) a = none → L d a = none → L i a = none) : V a = none := by
  have hempty {r : Option AccountFrm} {j : ℕ} (hr : L j a = some r) (hr' : r = none) : False := h.live j a (hr' ▸ hr)
  rw [AtomMap.near] at hnone
  rcases hbuff : L (d + 1) a with - | r
  · rw [hbuff, Option.getD_none] at hnone
    rcases hdata : L d a with - | r
    · rw [hdata, Option.getD_none] at hnone
      have hzero : L 0 a = none := by
        cases d with
        | zero => exact hdata
        | succ d => exact hover 0 (Nat.succ_pos d) hbuff hdata
      rw [← h.low a, view, hzero, Option.getD_none, hnone, Option.map_none]
    · rw [hdata, Option.getD_some] at hnone
      exact (hempty hdata hnone).elim
  · rw [hbuff, Option.getD_some] at hnone
    exact (hempty hbuff hnone).elim

end Floor

theorem passesOver_eq_false {e : Environments} {d : ℕ} {a : Address} (h : e.passesOver d a = false) :
    ∀ i < d, e.accounts (d + 1) a = none → e.accounts d a = none → e.accounts i a = none := by
  intro i hi hbuff hdata
  simp only [passesOver, hbuff, hdata, Option.isNone_none, Bool.true_and, List.any_eq_false,
    List.mem_range, Bool.not_eq_true, Option.isSome_eq_false_iff, Option.isNone_iff_eq_none] at h
  exact h i hi

/-- No lookup passed over a layer that holds the account, and no nonce was at its limit when it was increased. -/
structure Calm (s : LedgerContext) : Prop where
  missed : s.trace.missed = false
  wrapped : s.trace.wrapped = false

section Primitives
variable {w : World} {V : Address → Option Int64} {α : Type} {P : LedgerContext → Prop} {m : LedgerM α}
  {g : LedgerContext → LedgerContext}

abbrev FloorAt (w : World) (V : Address → Option Int64) (s : LedgerContext) : Prop := Floor w.db V s.envs.accounts

theorem respects_floor {f : LedgerContext → Option α} (hcalm : ∀ s, Calm (g s) → Calm s)
    (h : ∀ s, P s → Calm (g s) → FloorAt w V s → FloorAt w V (g s)) :
    Respects (Same (FloorAt w V)) Calm P fun s => (f s).map fun a => (a, g s) := by
  refine .of_option (fun s _ => hcalm s) ?_
  rintro s _ hP ⟨rfl, hs⟩ hok
  exact ⟨rfl, rfl, h _ hP hok hs⟩

theorem respects_floor_of_total {f : LedgerContext → α} (hcalm : ∀ s, Calm (g s) → Calm s)
    (h : ∀ s, P s → Calm (g s) → FloorAt w V s → FloorAt w V (g s)) :
    Respects (Same (FloorAt w V)) Calm P fun s => some (f s, g s) :=
  respects_floor (f := fun s => some (f s)) hcalm h

theorem getEntry_floor (d : ℕ) (a : Address) : Respects (Same (FloorAt w V)) Calm P (getEntry w d a) := by
  refine respects_floor_of_total (fun s hs => ⟨?_, hs.wrapped⟩) fun s _ hs h => ?_
  · exact (Bool.or_eq_false_iff.mp hs.missed).1
  · have hover := passesOver_eq_false (Bool.or_eq_false_iff.mp hs.missed).2
    change Floor _ _ (s.envs.getEntry w.db d a).2.accounts
    rw [getEntry_accounts]
    exact h.hold fun x hx => h.near hx hover

theorem alter_floor {d : ℕ} {a : Address} {f : AccountFrm → AccountFrm} {s : LedgerContext} (h : FloorAt w V s)
    (hf : ∀ x, s.envs.accounts (d + 1) a = some (some x) → x.nonce ≤ (f x).nonce) :
    Floor w.db V (s.envs.alterEntry d a f).accounts := by
  rw [alterEntry_accounts]
  refine h.hold fun y hy => ?_
  obtain ⟨x, hx, rfl⟩ := Option.map_eq_some_iff.mp hy
  have hx' : s.envs.accounts (d + 1) a = some (some x) := Option.join_eq_some_iff.mp hx
  exact fun n hn => Int64.le_trans (h.floor d a x hx' n hn) (hf x hx')

theorem lt_nonceIncrease {x : AccountFrm} (h : x.nonce ≠ 9223372036854775807) : x.nonce < x.nonceIncrease.nonce := by
  have hlt := x.nonce.toInt_lt
  have hge := x.nonce.le_toInt
  have hne : x.nonce.toInt ≠ 2 ^ 63 - 1 := fun heq => h (Int64.toInt_inj.mp heq)
  have hone : (1 : Int64).toInt = 1 := rfl
  have hsum := SafeInt.toInt_add_of_range (x := x.nonce) (y := 1) (by omega) (by omega)
  rw [Int64.lt_iff_toInt_lt]
  change x.nonce.toInt < (x.nonce + 1).toInt
  omega

theorem le_nonceIncrease {x : AccountFrm} (h : x.nonce ≠ 9223372036854775807) : x.nonce ≤ x.nonceIncrease.nonce :=
  Int64.le_of_lt (lt_nonceIncrease h)

theorem nonceIncrease_floor (d : ℕ) (a : Address) : Respects (Same (FloorAt w V)) Calm P (nonceIncrease d a) := by
  refine respects_floor_of_total (fun s hs => ⟨hs.missed, ?_⟩) fun s _ hs h => ?_
  · exact (Bool.or_eq_false_iff.mp hs.wrapped).1
  · refine alter_floor h fun x hx => le_nonceIncrease ?_
    have hfull := (Bool.or_eq_false_iff.mp hs.wrapped).2
    rw [hx] at hfull
    simpa using hfull

theorem addEntry_floor (d : ℕ) (a : Address) {frm : AccountFrm} :
    Respects (Same (FloorAt w V)) Calm (Absent w d a) (addEntry d a frm) := by
  refine respects_floor_of_total (fun s hs => ⟨hs.missed, hs.wrapped⟩) fun s hP hs h => ?_
  change Floor _ _ (s.envs.addEntry d a frm).accounts
  rw [Environments.addEntry_accounts]
  refine h.record fun n hn => ?_
  obtain hmissed | ⟨hnone, hover⟩ := hP
  · exact absurd hmissed (by rw [show s.trace.missed = false from hs.missed]; exact nofun)
  · rw [h.absent hnone (passesOver_eq_false hover)] at hn
    exact absurd hn nofun

end Primitives

def floorDiscipline (w : World) (V : Address → Option Int64) : ScriptDiscipline w where
  rel := Same (FloorAt w V)
  ok := Calm
  getEntry d a := getEntry_floor d a
  deref _ _ := respects_floor (fun _ h => h) fun _ _ _ h => h
  alterEntry _ _ _ hf _ := respects_floor_of_total (fun _ h => ⟨h.missed, h.wrapped⟩) fun _ _ _ h =>
    alter_floor h fun x _ => (hf x).symm ▸ Int64.le_refl _
  addEntry d a _ _ _ := addEntry_floor d a
  nonceIncrease d a := nonceIncrease_floor d a
  commit _ := respects_floor_of_total (fun _ h => ⟨h.missed, h.wrapped⟩) fun _ _ _ h => Floor.fold h
  newStackFrameEnv _ := respects_floor_of_total (fun _ h => ⟨h.missed, h.wrapped⟩) fun s _ _ h => by
    change Floor _ _ (s.envs.clearChangeBuf _).accounts
    rw [clearChangeBuf_accounts]
    exact Floor.wipe h
  getValidators _ := respects_floor_of_total (fun _ h => ⟨h.missed, h.wrapped⟩) fun s _ _ h => by
    change Floor _ _ (s.envs.getValidators _ _).2.accounts
    rw [getValidators_accounts]
    exact h
  updateFeeConfig _ _ := respects_floor_of_total (fun _ h => ⟨h.missed, h.wrapped⟩) fun s _ _ h => by
    change Floor _ _ (s.envs.updateFeeConfig _ _).accounts
    rw [updateFeeConfig_accounts]
    exact h
  updateNewValidators _ _ := respects_floor_of_total (fun _ h => ⟨h.missed, h.wrapped⟩) fun _ _ _ h => h
  askLedger := respects_floor_of_total (fun _ h => h) fun _ _ _ h => h
  askTx _ _ _ := respects_floor_of_total (fun _ h => h) fun _ _ _ h => h
  alterTx _ _ _ := respects_floor_of_total (fun _ h => ⟨h.missed, h.wrapped⟩) fun _ _ _ h => h
  pushTx _ := respects_floor_of_total (fun _ h => ⟨h.missed, h.wrapped⟩) fun _ _ _ h => h
  pushAgain _ := respects_floor_of_total (fun _ h => ⟨h.missed, h.wrapped⟩) fun _ _ _ h => h
  popTx := popTx_eq ▸ respects_floor (fun _ h => ⟨h.missed, h.wrapped⟩) fun _ _ _ h => h
  stackSize := respects_floor_of_total (fun _ h => h) fun _ _ _ h => h
  getBottomTx := respects_floor (fun _ h => h) fun _ _ _ h => h
  getTopTx := respects_floor (fun _ h => h) fun _ _ _ h => h
  trip _ _ := respects_floor_of_total (fun _ h => ⟨h.missed, h.wrapped⟩) fun _ _ _ h => h
  noteResult _ := respects_floor_of_total (fun _ h => ⟨h.missed, h.wrapped⟩) fun _ _ _ h => h

/-! ### One transaction -/

structure Rested (s : LedgerContext) : Prop where
  above : ∀ j, s.envs.accounts (j + 1) = empty
  live : ∀ a, s.envs.accounts 0 a ≠ some none

theorem rested_start (value : ConsensusValue) (isTestMode : Bool) : Rested (.start value isTestMode) :=
  ⟨fun _ => rfl, fun _ => nofun⟩

variable {env : TransactionEnv} {position : ℕ} {b b' : Block}

section Transaction
variable {w : World} {fuel i : ℕ} {s t u : LedgerContext} {V : Address → Option Int64}

theorem Rested.floor (h : Rested s) : FloorAt w (nonces w s) s where
  low _ := rfl
  live j := by
    cases j with
    | zero => exact h.live
    | succ j => rw [h.above]; exact fun _ => nofun
  floor j a frm hfrm := by
    rw [h.above] at hfrm
    exact absurd hfrm nofun

theorem FloorAt.commit (h : FloorAt w V s) (d : ℕ) :
    Grows V (nonces w { s with envs := s.envs.commit d }) ∧ ∀ a, (s.envs.commit d).accounts 0 a ≠ some none := by
  cases d with
  | succ d =>
    have hfold : Floor w.db V (s.envs.commit (d + 1)).accounts := Floor.fold h
    exact ⟨fun a n hn => ⟨n, (hfold.low a).trans hn, Int64.le_refl n⟩, hfold.live 0⟩
  | zero =>
    have hzero : (s.envs.commit 0).accounts 0 = (s.envs.accounts 1).merge (s.envs.accounts 0) := by
      rw [commit_accounts, fold_low]
    refine ⟨fun a n hn => ?_, fun a => ?_⟩
    · have hview : nonces w { s with envs := s.envs.commit 0 } a =
          (view w.db.accountFromDB s.envs.accounts 1 a).map nonce :=
        congrArg (Option.map nonce) view_fold_low
      rw [hview]
      rcases hL : s.envs.accounts 1 a with - | - | frm
      · rw [view_succ_of_unheld hL, h.low a]
        exact ⟨n, hn, Int64.le_refl n⟩
      · exact absurd hL (h.live 1 a)
      · rw [view_of_held hL]
        exact ⟨frm.nonce, rfl, h.floor 0 a frm hL n hn⟩
    · rw [hzero, merge]
      rcases hL : s.envs.accounts 1 a with - | r
      · exact h.live 0 a
      · rw [Option.some_or, ← hL]
        exact h.live 1 a

theorem nonceMax_ne {source : AccountFrm} {tr : Bool}
    (h : (tr || source.nonce == 9223372036854775807) = false) : tr = false ∧ source.nonce ≠ 9223372036854775807 := by
  simpa using h

theorem charged_nonces {source : AccountFrm} (newBalance : Int64) (hs : Rested s)
    (hnear : AtomMap.near w.db.accountFromDB s.envs.accounts 0 env.transaction.sourceAddress = some source) :
    Rested (LedgerFrm.charged env source newBalance s) ∧ nonces w s env.transaction.sourceAddress = some source.nonce ∧
      nonces w (LedgerFrm.charged env source newBalance s) =
        Function.update (nonces w s) env.transaction.sourceAddress (some (source.nonce + 1)) := by
  have hview : Overlay.view w.db.accountFromDB s.envs.accounts 1 env.transaction.sourceAddress = some source := hnear
  rw [Overlay.view_succ_of_unheld (by rw [hs.above]; rfl)] at hview
  refine ⟨⟨fun j => ?_, fun a => ?_⟩, congrArg (Option.map AccountFrm.nonce) hview, funext fun a => ?_⟩
  · rw [LedgerFrm.charged_accounts]
    cases j with
    | zero => exact Overlay.fold_high ..
    | succ j => rw [Overlay.fold_of_ne (by omega) (by omega), Overlay.record_of_ne_layer (by omega), hs.above]
  · rw [LedgerFrm.charged_accounts, Overlay.fold_low, Overlay.merge]
    by_cases ha : a = env.transaction.sourceAddress
    · subst ha
      rw [Overlay.record_self]
      rintro ⟨⟩
    · rw [Overlay.record_of_ne_key ha, Overlay.record_of_ne_key ha, hs.above]
      exact hs.live a
  · have hfold : nonces w (LedgerFrm.charged env source newBalance s) a =
        (Overlay.view w.db.accountFromDB (Overlay.record s.envs.accounts 1 env.transaction.sourceAddress
          (some (LedgerFrm.charge newBalance source))) 1 a).map AccountFrm.nonce :=
      congrArg (Option.map AccountFrm.nonce) Overlay.view_fold_low
    rw [hfold]
    by_cases ha : a = env.transaction.sourceAddress
    · subst ha
      rw [Overlay.view_of_held (Overlay.record_self ..), Function.update_self]
      rfl
    · rw [Overlay.view_record_of_ne ha, Function.update_of_ne ha, Overlay.view_succ_of_unheld (by rw [hs.above]; rfl)]
      rfl

variable {totalFee totalFee' : Int64}

theorem settleTop_calm (h : settleTop w i totalFee s = some (totalFee', t)) (hcalm : Calm t) :
    ∃ d y, Calm y ∧ t = { y with envs := y.envs.commit d } ∧ Calm s ∧ ∀ {V}, FloorAt w V s → FloorAt w V y := by
  obtain ⟨fee, y, hreturn, hsettle₁⟩ := of_bind h
  obtain ⟨d, y', henv, hsettle₂⟩ := of_bind hsettle₁
  obtain ⟨_, z, hcommit, hsettle₃⟩ := of_bind hsettle₂
  cases hcommit
  cases hsettle₃
  have hcalm' : Calm y' := ⟨hcalm.missed, hcalm.wrapped⟩
  have hcalmy : Calm y := ((floorDiscipline w fun _ => none).environmentOf i).guard trivial henv hcalm'
  refine ⟨d, y', hcalm', rfl, ((floorDiscipline w fun _ => none).returnFee i totalFee).guard trivial hreturn hcalmy,
    fun {V} hs => ?_⟩
  have hy : FloorAt w V y := ((floorDiscipline w V).returnFee i totalFee).invariant trivial hs hreturn hcalmy
  exact ((floorDiscipline w V).environmentOf i).invariant trivial hy henv hcalm'

theorem enforced_calm {late : Bool} {v : Verdict}
    (h : enforced w fuel late i totalFee s = some ((v, totalFee'), t)) (hcalm : Calm t) : Calm s := by
  obtain ⟨ret, x, expired, y, happly, hexpire, hend⟩ := enforced_eq_some h
  cases hexpire
  have hx : Calm x := by
    rcases hend with ⟨-, -, -, rfl⟩ | ⟨-, -, -, -, rfl⟩ | ⟨-, -, -, hsettle⟩
    · exact ⟨hcalm.missed, hcalm.wrapped⟩
    · exact hcalm
    · obtain ⟨_, _, -, -, hx, -⟩ := settleTop_calm hsettle hcalm
      exact hx
  have hs := ((floorDiscipline w fun _ => none).applyTop fuel i).guard trivial happly hx
  exact ⟨hs.missed, hs.wrapped⟩

theorem enforced_grows {late : Bool} {v : Verdict} (hs : FloorAt w V s)
    (h : enforced w fuel late i totalFee s = some ((v, totalFee'), t)) (hcalm : Calm t) :
    Grows V (nonces w t) ∧ ∀ a, t.envs.accounts 0 a ≠ some none := by
  obtain ⟨ret, x, expired, y, happly, hexpire, hend⟩ := enforced_eq_some h
  cases hexpire
  have happlied : Calm x → FloorAt w V x :=
    ((floorDiscipline w V).applyTop fuel i).invariant trivial (by exact hs) happly
  have hrefl {z : LedgerContext} (hz : FloorAt w V z) : Grows V (nonces w z) ∧ ∀ a, z.envs.accounts 0 a ≠ some none :=
    ⟨fun a n hn => ⟨n, (hz.low a).trans hn, Int64.le_refl n⟩, hz.live 0⟩
  rcases hend with ⟨-, -, -, rfl⟩ | ⟨-, -, -, -, rfl⟩ | ⟨-, -, -, hsettle⟩
  · exact hrefl (happlied ⟨hcalm.missed, hcalm.wrapped⟩ : FloorAt w V x)
  · exact hrefl (happlied hcalm)
  · obtain ⟨d, y, -, rfl, hx, hfloor⟩ := settleTop_calm hsettle hcalm
    exact (hfloor (happlied hx)).commit d

theorem afterLeave_accounts (s : LedgerContext) (j : ℕ) :
    (afterLeave s).envs.accounts j = if j = 0 then s.envs.accounts 0 else empty := by
  rw [afterLeave_envs]
  rfl

theorem checkTx_calm {clock : Clock}
    (h : checkLoop w fuel clock position [env] b s = some (some b', t)) (hcalm : Calm t) : Calm s := by
  obtain ⟨r, s₁, fee, s₂, tx, fee', s₃, hvalid, hpay, htx, -, hrest⟩ := checkLoop_cons.mp h
  cases hrest
  obtain ⟨i, u, v, x, henter, hbody, hleave, -⟩ := transaction_eq_some.mp htx
  obtain ⟨source, newBalance, -, -, -, rfl, rfl⟩ := charged_of_enter hvalid hpay henter
  obtain ⟨-, rfl⟩ := leave_eq_some.mp hleave
  have hx : Calm x := ⟨afterLeave_trace x ▸ hcalm.missed, afterLeave_trace x ▸ hcalm.wrapped⟩
  have hu := enforced_calm hbody hx
  exact ⟨hu.missed, (nonceMax_ne hu.wrapped).1⟩

theorem checkTx_grows {clock : Clock} (hs : Rested s)
    (h : checkLoop w fuel clock position [env] b s = some (some b', t)) (hcalm : Calm t) :
    Rested t ∧ Grows (nonces w s) (nonces w t) ∧
      ∃ n m, nonces w s env.transaction.sourceAddress = some n ∧ n < env.transaction.nonce ∧
        nonces w t env.transaction.sourceAddress = some m ∧ env.transaction.nonce ≤ m := by
  obtain ⟨r, s₁, fee, s₂, tx, fee', s₃, hvalid, hpay, htx, -, hrest⟩ := checkLoop_cons.mp h
  cases hrest
  obtain ⟨i, u, v, x, henter, hbody, hleave, -⟩ := transaction_eq_some.mp htx
  obtain ⟨source, newBalance, hnear, -, -, rfl, rfl⟩ := charged_of_enter hvalid hpay henter
  obtain ⟨-, rfl⟩ := leave_eq_some.mp hleave
  obtain ⟨-, -, source', hfound, hnonce, -⟩ := TransactionFrm.validForApply_ok hvalid
  rw [getEntry_run] at hfound
  obtain rfl : source = source' := Option.some.inj (hnear.symm.trans (Prod.mk.inj (Option.some.inj hfound)).1)
  obtain ⟨hrested, hbefore, hcharged⟩ := charged_nonces newBalance hs hnear
  have hx : Calm x := ⟨afterLeave_trace x ▸ hcalm.missed, afterLeave_trace x ▸ hcalm.wrapped⟩
  obtain ⟨hgrows, hlive⟩ := enforced_grows hrested.floor hbody hx
  have hmax := (nonceMax_ne (enforced_calm hbody hx).wrapped).2
  have hafter : nonces w (afterLeave x) = nonces w x := by
    funext a
    rw [nonces, nonces, view, view, afterLeave_accounts]
    rfl
  have hcharge : Grows (nonces w s) (nonces w (charged env source newBalance s)) := by
    intro a n hn
    rw [hcharged]
    by_cases ha : a = env.transaction.sourceAddress
    · subst ha
      rw [hbefore] at hn
      cases hn
      exact ⟨_, update_self .., le_nonceIncrease hmax⟩
    · exact ⟨n, (update_of_ne ha ..).trans hn, Int64.le_refl n⟩
  obtain ⟨m, hm, hnm⟩ := hgrows env.transaction.sourceAddress env.transaction.nonce
    (by rw [hcharged, update_self, hnonce])
  refine ⟨⟨fun j => by rw [afterLeave_accounts]; rfl, fun a => ?_⟩,
    hafter ▸ hcharge.trans hgrows, source.nonce, m, hbefore, hnonce ▸ lt_nonceIncrease hmax, hafter ▸ hm, hnm⟩
  rw [afterLeave_accounts]
  exact hlive a

theorem allocateReward_calm {totalFee : Int64} {r : Bool} (h : allocateReward w totalFee s = some (r, t))
    (hcalm : Calm t) : Calm s := by
  obtain ⟨-, rfl⟩ | ⟨-, paid, v, hpaid, hend⟩ := allocateReward_eq_some h
  · exact hcalm
  · refine ((floorDiscipline w fun _ => none).payReward ..).guard trivial hpaid ?_
    rcases hend with ⟨-, rfl⟩ | ⟨-, rfl⟩
    · exact hcalm
    · exact ⟨hcalm.missed, hcalm.wrapped⟩

theorem allocateReward_grows {totalFee : Int64} {r : Bool} (hs : Rested s)
    (h : allocateReward w totalFee s = some (r, t)) (hcalm : Calm t) :
    Grows (nonces w s) (nonces w t) ∧ ∀ a, t.envs.accounts 0 a ≠ some none := by
  obtain ⟨-, rfl⟩ | ⟨-, paid, v, hpaid, hend⟩ := allocateReward_eq_some h
  · exact ⟨.refl _, hs.live⟩
  · have hpays : Calm v → FloorAt w (nonces w s) v :=
      ((floorDiscipline w (nonces w s)).payReward ..).invariant trivial hs.floor hpaid
    rcases hend with ⟨-, rfl⟩ | ⟨-, rfl⟩
    · have hfloor := hpays hcalm
      exact ⟨fun a n hn => ⟨n, (hfloor.low a).trans hn, Int64.le_refl n⟩, hfloor.live 0⟩
    · exact (hpays ⟨hcalm.missed, hcalm.wrapped⟩).commit 0

end Transaction

/-! ### Chains of blocks -/

/-- A transaction of the chain, with the nonces before and after it. -/
structure ChainTx where
  env : TransactionEnv
  before : Address → Option Int64
  after : Address → Option Int64

/-- The source and the nonce of a transaction. -/
def ChainTx.key (x : ChainTx) : Address × Int64 := (x.env.transaction.sourceAddress, x.env.transaction.nonce)

/-- The transactions of a block that is checked, from `position` on. -/
def checkTrail (w : World) (fuel : ℕ) (clock : Clock) : ℕ → List TransactionEnv → Block → LedgerContext → List ChainTx
  | _, [], _, _ => []
  | position, env :: l, b, s =>
    match checkLoop w fuel clock position [env] b s with
    | some (some b', t) => ⟨env, nonces w s, nonces w t⟩ :: checkTrail w fuel clock (position + 1) l b' t
    | _ => []

/-- A chain of blocks from a database on: the transactions applied so far, the trace of each block, and the
database. The header of each block is any. -/
inductive Chain (db₀ : AccountDb) : List ChainTx → List Trace → AccountDb → Prop
  | start : Chain db₀ [] [] db₀
  | block {log traces w fuel clock request isTestMode b s} (h : Chain db₀ log traces w.db)
      (hcheck : applyCheck w fuel clock request (.start request isTestMode) = some (some b, s)) :
      Chain db₀ (log ++ checkTrail w fuel clock 0 request.txset {} (.start request isTestMode)) (traces ++ [s.trace])
        (w.db.commit s.envs)

section Chain
variable {w : World} {fuel : ℕ} {clock : Clock}

variable {l : List TransactionEnv}

theorem checkLoop_one {s t : LedgerContext} (h : checkLoop w fuel clock position (env :: l) b s = some (some b', t)) :
    ∃ b₁ s₁, checkLoop w fuel clock position [env] b s = some (some b₁, s₁) ∧
      checkLoop w fuel clock (position + 1) l b₁ s₁ = some (some b', t) := by
  obtain ⟨r, s₁, fee, s₂, tx, fee', s₃, hvalid, hpay, htx, hlate, hrest⟩ := checkLoop_cons.mp h
  exact ⟨_, s₃, checkLoop_cons.mpr ⟨r, s₁, fee, s₂, tx, fee', s₃, hvalid, hpay, htx, hlate, rfl⟩, hrest⟩

/-- What is known of the transactions so far: no nonce got smaller, none has the key of another, and their sources
have reached their nonces. -/
structure NoReplay (log : List ChainTx) (V : Address → Option Int64) : Prop where
  grows : ∀ x ∈ log, Grows x.before x.after
  distinct : log.Pairwise fun x y => x.key ≠ y.key
  reached : ∀ x ∈ log, ∃ m, V x.key.1 = some m ∧ x.key.2 ≤ m

theorem NoReplay.mono {log : List ChainTx} {V V' : Address → Option Int64} (h : NoReplay log V) (hV : Grows V V') :
    NoReplay log V' where
  grows := h.grows
  distinct := h.distinct
  reached x hx := by
    obtain ⟨m, hm, hle⟩ := h.reached x hx
    obtain ⟨k, hk, hmk⟩ := hV _ m hm
    exact ⟨k, hk, Int64.le_trans hle hmk⟩

theorem NoReplay.snoc {log : List ChainTx} {V V' : Address → Option Int64} {n m : Int64}
    (h : NoReplay log V) (hV : Grows V V') (hn : V env.transaction.sourceAddress = some n)
    (hlt : n < env.transaction.nonce) (hm : V' env.transaction.sourceAddress = some m)
    (hle : env.transaction.nonce ≤ m) : NoReplay (log ++ [⟨env, V, V'⟩]) V' where
  grows x hx := by
    rcases List.mem_append.mp hx with hx | hx
    · exact h.grows x hx
    · rw [List.mem_singleton.mp hx]
      exact hV
  distinct := by
    refine List.pairwise_append.mpr ⟨h.distinct, List.pairwise_singleton _ _, fun x hx y hy heq => ?_⟩
    rw [List.mem_singleton.mp hy] at heq
    obtain ⟨k, hk, hxk⟩ := h.reached x hx
    rw [heq] at hk hxk
    obtain rfl : n = k := Option.some.inj (hn.symm.trans hk)
    exact Int64.lt_irrefl (Int64.lt_of_lt_of_le hlt hxk)
  reached x hx := by
    rcases List.mem_append.mp hx with hx | hx
    · exact (h.mono hV).reached x hx
    · rw [List.mem_singleton.mp hx]
      exact ⟨m, hm, hle⟩

theorem checkLoop_calm {b' : Block} {t : LedgerContext} (hcalm : Calm t) :
    ∀ {position : ℕ} {b : Block} {s : LedgerContext},
      checkLoop w fuel clock position l b s = some (some b', t) → Calm s := by
  induction l with
  | nil =>
    intro position b s h
    cases h
    exact hcalm
  | cons env l ih =>
    intro position b s h
    obtain ⟨b₁, s₁, hone, hrest⟩ := checkLoop_one h
    exact checkTx_calm hone (ih hrest)

theorem checkLoop_noReplay {b' : Block} {t : LedgerContext} (hcalm : Calm t) :
    ∀ {position : ℕ} {b : Block} {s : LedgerContext} {log : List ChainTx},
      checkLoop w fuel clock position l b s = some (some b', t) → Rested s → NoReplay log (nonces w s) →
        Rested t ∧ NoReplay (log ++ checkTrail w fuel clock position l b s) (nonces w t) := by
  induction l with
  | nil =>
    intro position b s log h hs hlog
    cases h
    exact ⟨hs, by rwa [checkTrail, List.append_nil]⟩
  | cons env l ih =>
    intro position b s log h hs hlog
    obtain ⟨b₁, s₁, hone, hrest⟩ := checkLoop_one h
    obtain ⟨hs₁, hgrows, n, m, hn, hlt, hm, hle⟩ := checkTx_grows hs hone (checkLoop_calm hcalm hrest)
    have htrail : checkTrail w fuel clock position (env :: l) b s =
        ⟨env, nonces w s, nonces w s₁⟩ :: checkTrail w fuel clock (position + 1) l b₁ s₁ := by
      rw [checkTrail, hone]
    rw [htrail, List.append_cons]
    exact ih hrest hs₁ (hlog.snoc hgrows hn hlt hm hle)

theorem nonces_commit {s : LedgerContext} (hlive : ∀ a, s.envs.accounts 0 a ≠ some none) :
    nonces w s = fun a => ((w.db.commit s.envs).accountFromDB a).map nonce := by
  funext a
  rw [nonces, view]
  change _ = (((w.db.commit s.envs).account a).map ofAccount).map nonce
  rcases hL : s.envs.accounts 0 a with - | - | frm
  · simp only [AccountDb.commit, hL]
    rfl
  · exact absurd hL (hlive a)
  · simp only [AccountDb.commit, hL]
    rfl

/-- In a chain of blocks in which no lookup passes over a layer that holds the account, and no nonce at its limit is
increased, no nonce ever gets smaller and no transaction is applied twice. -/
theorem chain_noReplay {db₀ db : AccountDb} {log : List ChainTx} {traces : List Trace} (h : Chain db₀ log traces db)
    (hcalm : ∀ tr ∈ traces, tr.missed = false ∧ tr.wrapped = false) :
    (∀ x ∈ log, Grows x.before x.after) ∧ log.Pairwise fun x y => x.key ≠ y.key := by
  suffices hlog : NoReplay log fun a => (db.accountFromDB a).map nonce from ⟨hlog.grows, hlog.distinct⟩
  induction h with
  | start => exact ⟨by simp, .nil, by simp⟩
  | @block log traces w fuel clock request isTestMode b s h hcheck ih =>
    obtain ⟨htraces, hlast⟩ := List.forall_mem_append.mp hcalm
    obtain ⟨hmissed, hwrapped⟩ := hlast s.trace List.mem_cons_self
    obtain ⟨paid, u, -, hloop, hreward⟩ := applyCheck_eq_some hcheck
    have hu := allocateReward_calm hreward ⟨hmissed, hwrapped⟩
    obtain ⟨hrested, hlog⟩ := checkLoop_noReplay hu hloop (rested_start ..) (ih htraces)
    obtain ⟨hgrows, hlive⟩ := allocateReward_grows hrested hreward ⟨hmissed, hwrapped⟩
    have hnonces := nonces_commit (w := w) hlive
    exact hnonces ▸ hlog.mono hgrows

end Chain

/-! ### A stale copy that takes a nonce back -/

/-- A script that pays one coin to an account. -/
def payEngine (payee : Address) : Engine where
  State := ℕ
  boot _ _ := 0
  next
    | 0 => .host (.payCoin payee "1" "" "") fun _ => 1
    | _ => .finish (.returned (.bool true))

def payWorld (payee : Address) : World :=
  smallWorld (smallDb [{ address := "c", balance := 1000, priv := some ownPriv },
      { address := "d", balance := 1000, priv := some ownPriv },
      { address := "k", balance := 100, contract := some { payload := "x" } }])
    (payEngine payee)

def payValue (rest : List TransactionEnv) : ConsensusValue where
  txset := payment "c" "d" :: payment "d" "k" :: rest
  closeTime := 0
  ledgerSeq := 2
where
  payment (source dest : Address) : TransactionEnv :=
    { transaction :=
        { sourceAddress := source, nonce := 1, feeLimit := 100, gasPrice := 1
          operations := [{ type := .payCoin, payCoin := { destAddress := dest, amount := 5 } }] } }

/-- The nonce of `c` before and after each transaction. -/
def nonceTrail (log : List ChainTx) : List (Option Int64 × Option Int64) :=
  log.map fun x => (x.before "c", x.after "c")

/-- The script reads the account of `c` from the database, where its nonce is still 0, and the commit of its frame puts
that copy into the block: the payment of `c` is applied a second time. -/
theorem chain_replayed : ∃ log traces db, Chain (payWorld "c").db log traces db ∧
      log.map ChainTx.key = [("c", 1), ("d", 1), ("c", 1)] ∧
      nonceTrail log = [(some 0, some 1), (some 1, some 0), (some 0, some 1)] := by
  have hrun : (applyCheck (payWorld "c") 20 earlyClock (payValue [payValue.payment "c" "d"])
      (.start (payValue [payValue.payment "c" "d"]))).any (fun r => r.1.isSome) = true := by
    decide +kernel
  obtain ⟨⟨found, s⟩, h, hfound⟩ := (Option.any_eq_true _ _).mp hrun
  obtain ⟨b, rfl⟩ := Option.isSome_iff_exists.mp hfound
  exact ⟨_, _, _, .block .start h, by decide +kernel, by decide +kernel⟩

theorem chain_noReplay_apart :
    ∃ log traces db, Chain (payWorld "e").db log traces db ∧ log.map ChainTx.key = [("c", 1), ("d", 1)] ∧
      (∀ x ∈ log, Grows x.before x.after) ∧ log.Pairwise fun x y => x.key ≠ y.key := by
  have hrun : (applyCheck (payWorld "e") 20 earlyClock (payValue []) (.start (payValue []))).any (fun r =>
      r.1.isSome && !r.2.trace.missed && !r.2.trace.wrapped) = true := by
    decide +kernel
  obtain ⟨⟨found, s⟩, h, hfound⟩ := (Option.any_eq_true _ _).mp hrun
  simp only [Bool.and_eq_true, Bool.not_eq_true'] at hfound
  obtain ⟨b, rfl⟩ := Option.isSome_iff_exists.mp hfound.1.1
  have hchain := Chain.block .start h
  refine ⟨_, _, _, hchain, by decide +kernel, chain_noReplay hchain fun tr htr => ?_⟩
  rw [List.nil_append, List.mem_singleton] at htr
  exact htr ▸ ⟨hfound.1.2, hfound.2⟩

end OpenSesame
