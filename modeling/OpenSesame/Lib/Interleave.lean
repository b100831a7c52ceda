import Mathlib.Data.List.Basic

/-! # Interleaved runs

Every party of a system has events of its own. A schedule is an order in which the events of all parties happen. -/

namespace OpenSesame
namespace Interleave
variable {ι ε : Type} [DecidableEq ι] {a : ι} {e : ε} {schedule before after : List (ι × ε)}

def eventsOf (a : ι) (schedule : List (ι × ε)) : List ε :=
  schedule.filterMap fun e => if e.1 = a then some e.2 else none

theorem eventsOf_append (a : ι) (before after : List (ι × ε)) :
    eventsOf a (before ++ after) = eventsOf a before ++ eventsOf a after := List.filterMap_append

theorem mem_eventsOf : e ∈ eventsOf a schedule ↔ (a, e) ∈ schedule := by
  simp only [eventsOf, List.mem_filterMap, Prod.exists, Option.ite_none_right_eq_some, Option.some.injEq]
  constructor
  · rintro ⟨_, _, hmem, rfl, rfl⟩
    exact hmem
  · exact fun hmem => ⟨a, e, hmem, rfl, rfl⟩

omit [DecidableEq ι]

/-- Every event of a schedule meets `P`, as a condition on what was before it. -/
def Each (P : List (ι × ε) → ι → ε → Prop) (schedule : List (ι × ε)) : Prop :=
  ∀ before a e after, schedule = before ++ (a, e) :: after → P before a e

theorem Each.of_get {P : List (ι × ε) → ι → ε → Prop}
    (h : ∀ k : Fin schedule.length, P (schedule.take k) (schedule.get k).1 (schedule.get k).2) : Each P schedule := by
  rintro before a e after rfl
  have hk := h ⟨before.length, by simp⟩
  simpa using hk

end Interleave
end OpenSesame
