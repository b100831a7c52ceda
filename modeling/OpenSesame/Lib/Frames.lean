import Mathlib.Data.List.Induction
import Mathlib.Data.Nat.Notation

/-! # A record that calls find in frames

Calls change a record of a ledger that is not closed yet. They run in frames, and a frame sees what itself and the
frame it runs in hold: where neither holds the record, a lookup takes that of the last closed ledger, which then stands
for the present one. -/

namespace OpenSesame
open Option

/-- A record as the last closed ledger has it and as it is now. -/
structure Ledgered (σ : Type) where
  last : σ
  now : σ

inductive LedgerEvent (ι : Type) where
  | call (i : ι)
  /-- A lookup takes the record of the last ledger. -/
  | fallBack
  /-- The ledger is closed. -/
  | close

/-- The condition holds of a call. -/
def LedgerEvent.Meets {ι : Type} (p : ι → Prop) : LedgerEvent ι → Prop
  | .call i => p i
  | _ => True

namespace Ledgered
variable {σ ι : Type} (back : σ → σ → σ) (call : σ → σ → ι → Option σ)

/-- One event, where `back` is what a lookup that falls back makes of the last record and the present one. -/
def step (s : Ledgered σ) : LedgerEvent ι → Option (Ledgered σ)
  | .call i => (call s.last s.now i).map fun t => { s with now := t }
  | .fallBack => some { s with now := back s.last s.now }
  | .close => some { s with last := s.now }

/-- The events of a history, in which every call succeeds. -/
def run (s : Ledgered σ) (events : List (LedgerEvent ι)) : Option (Ledgered σ) := events.foldlM (step back call) s

/-- The calls of a history. -/
def callsOf (events : List (LedgerEvent ι)) : List ι :=
  events.filterMap fun e => match e with
    | .call i => some i
    | _ => none

theorem mem_callsOf {events : List (LedgerEvent ι)} {i : ι} : i ∈ callsOf events ↔ .call i ∈ events := by
  rw [callsOf, List.mem_filterMap]
  constructor
  · rintro ⟨e, he, hi⟩
    cases e with
    | call j => exact some.inj hi ▸ he
    | fallBack => cases hi
    | close => cases hi
  · exact fun h => ⟨_, h, rfl⟩

/-- Whenever a lookup falls back, the record is still that of the last ledger. -/
def Fresh (s : Ledgered σ) : List (LedgerEvent ι) → Prop
  | [] => True
  | e :: events => (e = .fallBack → back s.last s.now = s.now) ∧ ∀ t ∈ step back call s e, Fresh t events

/-- The condition holds of every call of a history and the record that it meets. -/
def Along (p : σ → ι → Prop) (s : Ledgered σ) : List (LedgerEvent ι) → Prop
  | [] => True
  | e :: events => e.Meets (p s.now) ∧ ∀ t ∈ step back call s e, Along p t events

instance {p : ι → Prop} [DecidablePred p] : ∀ e : LedgerEvent ι, Decidable (e.Meets p)
  | .call i => inferInstanceAs (Decidable (p i))
  | .fallBack => .isTrue trivial
  | .close => .isTrue trivial

instance decidableAlong {p : σ → ι → Prop} [∀ s, DecidablePred (p s)] : ∀ s events, Decidable (Along back call p s events)
  | _, [] => .isTrue trivial
  | s, e :: events =>
    have : ∀ t, Decidable (Along back call p t events) := fun t => decidableAlong t events
    have : Decidable (∀ t ∈ step back call s e, Along back call p t events) := decidableForallMem ..
    inferInstanceAs (Decidable (e.Meets (p s.now) ∧ ∀ t ∈ step back call s e, Along back call p t events))

variable {back call} {s t : Ledgered σ} {events : List (LedgerEvent ι)}

/-- What every call that meets the condition keeps holds after any history, as it holds of the records that lookups
fall back to. -/
theorem run_along {I : σ → Prop} {p : σ → ι → Prop}
    (hback : LedgerEvent.fallBack ∈ events → ∀ last now, I last → I now → I (back last now))
    (hcall : ∀ last now i t, LedgerEvent.call i ∈ events → p now i → I last → I now → call last now i = some t → I t)
    (halong : Along back call p s events) (hlast : I s.last) (hnow : I s.now) (hrun : run back call s events = some t) :
    I t.last ∧ I t.now := by
  induction events generalizing s with
  | nil =>
    cases hrun
    exact ⟨hlast, hnow⟩
  | cons e events ih =>
    obtain ⟨u, hu, hrest⟩ := bind_eq_some_iff.mp hrun
    have hlater := fun last now i t hi => hcall last now i t (List.mem_cons_of_mem _ hi)
    have hlater' := fun h => hback (List.mem_cons_of_mem _ h)
    have hrest' := halong.2 u hu
    cases e with
    | call i =>
      obtain ⟨now, hnext, rfl⟩ := map_eq_some_iff.mp hu
      have hkept := hcall _ _ i now (List.mem_cons_self ..) halong.1 hlast hnow hnext
      exact ih (s := ⟨s.last, now⟩) hlater' hlater hrest' hlast hkept hrest
    | fallBack =>
      cases hu
      have hkept := hback (List.mem_cons_self ..) _ _ hlast hnow
      exact ih (s := ⟨s.last, back s.last s.now⟩) hlater' hlater hrest' hlast hkept hrest
    | close =>
      cases hu
      exact ih (s := ⟨s.now, s.now⟩) hlater' hlater hrest' hnow hnow hrest

theorem along_true : Along back call (fun _ _ => True) s events := by
  induction events generalizing s with
  | nil => trivial
  | cons e events ih =>
    refine ⟨?_, fun _ _ => ih⟩
    cases e <;> trivial

theorem run_keeps {I : σ → Prop}
    (hback : LedgerEvent.fallBack ∈ events → ∀ last now, I last → I now → I (back last now))
    (hcall : ∀ last now i t, LedgerEvent.call i ∈ events → I last → I now → call last now i = some t → I t)
    (hlast : I s.last) (hnow : I s.now) (hrun : run back call s events = some t) : I t.last ∧ I t.now :=
  run_along hback (fun last now i t hi _ => hcall last now i t hi) along_true hlast hnow hrun

end Ledgered
end OpenSesame
