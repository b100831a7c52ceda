import OpenSesame.Contract.Storage
import OpenSesame.Lib.Frames
import OpenSesame.Theorems.Ledger.Checks
import OpenSesame.Theorems.Ledger.Replay

/-! # The contracts on the ledger

The models of the contracts know the frames of the ledger as the events of a `Ledgered` record, and the metadata of an
account as a `Storage`. Here both are compared with the lookups and the host functions of the ledger. -/

namespace OpenSesame
open Protocol Overlay Environments OperationFrm Option
open ScriptUtils (toCString)

section Frames
variable {w : World} {d : ℕ} {a : Address} {s t : LedgerContext} {r : Option AccountFrm}

/-- The account in the last ledger, and as the newest of the frames up to depth `d` has it. -/
def ledgered (w : World) (d : ℕ) (a : Address) (s : LedgerContext) : Ledgered (Option AccountFrm) where
  last := w.db.accountFromDB a
  now := view w.db.accountFromDB s.envs.accounts (d + 1) a

theorem near_eq (w : World) (d : ℕ) (a : Address) (s : LedgerContext) :
    AtomMap.near w.db.accountFromDB s.envs.accounts d a =
      if s.envs.passesOver d a then (ledgered w d a s).last else (ledgered w d a s).now := by
  unfold ledgered AtomMap.near view
  rcases hbuff : s.envs.accounts (d + 1) a with - | r
  · rcases hdata : s.envs.accounts d a with - | r
    · split_ifs with hover
      · rfl
      · have hview : view w.db.accountFromDB s.envs.accounts d a = w.db.accountFromDB a := by
          refine view_eq_base fun j hj => ?_
          rcases hj.lt_or_eq with hlt | rfl
          · exact passesOver_eq_false (Bool.eq_false_iff.mpr hover) j hlt hbuff hdata
          · exact hdata
        exact hview.symm
    · rw [if_neg (by simp [passesOver, hdata])]
      exact (view_of_held hdata).symm
  · rw [if_neg (by simp [passesOver, hbuff])]
    rfl

/-- A lookup that passes over a frame with the account takes the one of the last ledger, which then stands for the
present one. Any other lookup finds the present account and leaves it. -/
theorem getEntry_ledgered (h : getEntry w d a s = some (r, t)) :
    if s.envs.passesOver d a then
      r = (ledgered w d a s).last ∧ Ledgered.step Option.or (fun _ now (_ : Unit) => some now) (ledgered w d a s)
        .fallBack = some (ledgered w d a t)
    else r = (ledgered w d a s).now ∧ ledgered w d a t = ledgered w d a s := by
  obtain ⟨hr, rfl⟩ := Prod.mk.inj (some.inj h)
  rw [getEntry_fst, near_eq] at hr
  have hnow : view w.db.accountFromDB (s.envs.getEntry w.db d a).2.accounts (d + 1) a =
      r.or (ledgered w d a s).now := by
    rw [getEntry_accounts, near_eq, hr]
    cases r with
    | none => rfl
    | some x => exact view_of_held (by simp)
  split_ifs at hr ⊢ with hover
  · refine ⟨hr.symm, ?_⟩
    rw [Ledgered.step, ledgered, ledgered, hnow, ← hr]
    rfl
  · refine ⟨hr.symm, ?_⟩
    rw [ledgered, ledgered, hnow, ← hr, Option.or_self]
    rfl

end Frames

/-! ### Metadata -/

/-- The text that is stored. -/
def Value.toText {J : Type} (jsonText : J → String) : Value J → String
  | .text t => t
  | .json record => jsonText record

/-- A contract can store a value if and only if the operation that stores it passes its check, with what the host reads
of the key. -/
theorem store_isSome_iff {J : Type} {jsonText : J → String} {st : Storage J} {key : String} {value : Value J} :
    (st.store (fun record => Strings.size (jsonText record)) key value).isSome = true ↔
      (checkSetMetadata { key := toCString key, value := value.toText jsonText }).code = .success := by
  have hsize : value.size (fun record => Strings.size (jsonText record)) = Strings.size (value.toText jsonText) := by
    cases value <;> rfl
  unfold Storage.store
  dsimp only
  rw [hsize]
  split_ifs with hlimits
  · refine iff_of_false nofun fun hcode => ?_
    obtain ⟨hpassed, -⟩ := firstError_ok hcode (by simp [Result.error])
    simp [keyInvalid] at hpassed
    omega
  · refine iff_of_true rfl ?_
    rw [checkSetMetadata, firstError, List.find?_eq_none.mpr]
    simp [keyInvalid]
    omega

end OpenSesame
