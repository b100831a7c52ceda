import Mathlib.Algebra.BigOperators.Group.List.Basic
import Mathlib.Algebra.Ring.Int.Defs

/-! # Paths of labelled steps

A system takes steps that carry labels; a path is a list of labels that leads from one state to another. The labels
of a path may themselves stand for paths of smaller steps. -/

namespace OpenSesame

variable {L S : Type}

/-- The labels lead from one state to another. -/
inductive Path (step : L → S → S → Prop) : List L → S → S → Prop
  | nil (s : S) : Path step [] s s
  | cons {l : L} {ls : List L} {s t u : S} (first : step l s t) (rest : Path step ls t u) : Path step (l :: ls) s u

namespace Path
variable {step step' : L → S → S → Prop} {l : L} {ls ls' : List L} {s t u : S} {I : S → Prop}

theorem single (h : step l s t) : Path step [l] s t := .cons h (.nil t)

theorem append (h : Path step ls s t) (h' : Path step ls' t u) : Path step (ls ++ ls') s u := by
  induction h with
  | nil => exact h'
  | cons first _ ih => exact .cons first (ih h')

theorem of_append (h : Path step (ls ++ ls') s u) : ∃ t, Path step ls s t ∧ Path step ls' t u := by
  induction ls generalizing s with
  | nil => exact ⟨s, .nil s, h⟩
  | cons l ls ih =>
    cases h with
    | cons first rest =>
      obtain ⟨t, hls, hls'⟩ := ih rest
      exact ⟨t, .cons first hls, hls'⟩

theorem invariant (h : Path step ls s t) (hstep : ∀ l s t, I s → step l s t → I t) (hs : I s) : I t := by
  induction h with
  | nil => exact hs
  | cons first _ ih => exact ih (hstep _ _ _ hs first)

theorem each {P : L → Prop} (h : Path step ls s t) (hstep : ∀ l s t, I s → step l s t → I t ∧ P l) (hs : I s) :
    ∀ l ∈ ls, P l := by
  induction h with
  | nil => exact nofun
  | cons first _ ih =>
    obtain ⟨hI, hl⟩ := hstep _ _ _ hs first
    exact List.forall_mem_cons.mpr ⟨hl, ih hI⟩

theorem mono (h : Path step ls s t) (hstep : ∀ l s t, I s → step l s t → I t ∧ step' l s t) (hs : I s) :
    Path step' ls s t := by
  induction h with
  | nil => exact .nil _
  | cons first _ ih =>
    obtain ⟨hI, hfirst⟩ := hstep _ _ _ hs first
    exact .cons hfirst (ih hI)

theorem labelled (h : Path step ls s t) : Path (fun l s t => l ∈ ls ∧ step l s t) ls s t := by
  have hsub : ∀ {ms : List L} {s t : S}, Path step ms s t → (∀ l ∈ ms, l ∈ ls) →
      Path (fun l s t => l ∈ ls ∧ step l s t) ms s t := by
    intro ms s t h
    induction h with
    | nil => exact fun _ => .nil _
    | cons first _ ih =>
      intro hms
      obtain ⟨hl, hms⟩ := List.forall_mem_cons.mp hms
      exact .cons ⟨hl, first⟩ (ih hms)
  exact hsub h fun _ hl => hl

theorem sum {q : S → ℤ} {change : L → ℤ} (h : Path step ls s t)
    (hstep : ∀ l s t, I s → step l s t → I t ∧ q t = q s + change l) (hs : I s) :
    q t = q s + (ls.map change).sum := by
  induction h with
  | nil => simp
  | cons first _ ih =>
    obtain ⟨hI, hfirst⟩ := hstep _ _ _ hs first
    rw [ih hI, hfirst, List.map_cons, List.sum_cons, add_assoc]

theorem flatten {M : Type} {parts : M → List L} {ms : List M} (h : Path (fun m => Path step (parts m)) ms s t) :
    Path step (ms.flatMap parts) s t := by
  induction h with
  | nil => exact .nil _
  | cons first _ ih =>
    rw [List.flatMap_cons]
    exact first.append ih

end Path

end OpenSesame
