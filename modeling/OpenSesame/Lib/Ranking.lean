import Mathlib.Data.List.Basic
import Mathlib.Data.List.Perm.Basic
import Mathlib.Tactic.Common

/-! # Lists in order, and their first entries

An entry that is put into a list or taken out of it below a position leaves the entries above alone; above the
position it takes the place of one. -/

namespace OpenSesame
open List
namespace Ranking
variable {α : Type} {r : α → α → Prop} {A B C D l : List α} {a c x : α} {n : ℕ}

theorem insertIdx_length (C D : List α) (x : α) : (C ++ D).insertIdx C.length x = C ++ x :: D := by
  induction C with
  | nil => rfl
  | cons c C ih => rw [cons_append, length_cons, insertIdx_succ_cons, ih, cons_append]

theorem eraseIdx_length (C D : List α) (x : α) : (C ++ x :: D).eraseIdx C.length = C ++ D := by
  rw [eraseIdx_append_of_length_le (Nat.le_refl _), Nat.sub_self, eraseIdx_cons_zero]

theorem exists_split_findIdx (p : α → Bool) : ∀ l : List α, ∃ C D, l = C ++ D ∧ C.length = l.findIdx p ∧
    (∀ e ∈ C, p e = false) ∧ ∀ e ∈ D.head?, p e = true
  | [] => ⟨[], [], rfl, rfl, nofun, nofun⟩
  | a :: l => by
    rcases hp : p a with - | -
    · obtain ⟨C, D, hl, hlen, hC, hD⟩ := exists_split_findIdx p l
      refine ⟨a :: C, D, congrArg (a :: ·) hl, ?_, ?_, hD⟩
      · rw [findIdx_cons, hp, length_cons, hlen]
        rfl
      · intro e he
        rcases mem_cons.mp he with rfl | he
        · exact hp
        · exact hC e he
    · refine ⟨[], a :: l, rfl, ?_, nofun, ?_⟩
      · rw [findIdx_cons, hp]
        rfl
      · intro e he
        rw [head?_cons, Option.mem_some] at he
        rw [← he]
        exact hp

theorem exists_split_getElem {i : ℕ} (h : l[i]? = some c) : ∃ A B, l = A ++ c :: B ∧ A.length = i := by
  obtain ⟨hi, rfl⟩ := List.getElem?_eq_some_iff.mp h
  refine ⟨l.take i, l.drop (i + 1), ?_, List.length_take_of_le (Nat.le_of_lt hi)⟩
  rw [List.getElem_cons_drop, List.take_append_drop]

theorem take_insert_of_le (h : n ≤ A.length) : (A ++ c :: B).take n = (A ++ B).take n := by
  rw [take_append_of_le_length h, take_append_of_le_length h]

theorem pairwise_insert (trans : ∀ a b c, r a b → r b c → r a c) (h : (C ++ D).Pairwise r) (hC : ∀ e ∈ C, r e x)
    (hD : ∀ e ∈ D.head?, r x e) : (C ++ x :: D).Pairwise r := by
  rw [pairwise_append] at h ⊢
  obtain ⟨h₁, h₂, h₁₂⟩ := h
  refine ⟨h₁, ?_, ?_⟩
  · refine pairwise_cons.mpr ⟨?_, h₂⟩
    rcases D with - | ⟨d, D⟩
    · exact nofun
    · intro e he
      have hd : r x d := hD d rfl
      rcases mem_cons.mp he with rfl | he
      · exact hd
      · exact trans _ _ _ hd (rel_of_pairwise_cons h₂ he)
  · intro e he e' he'
    rcases mem_cons.mp he' with rfl | he'
    · exact hC e he
    · exact h₁₂ e he e' he'

theorem length_le_of_ahead (irrefl : ∀ a b, r a b → ¬ r b a) (trans : ∀ a b c, r a b → r b c → r a c)
    (hl : (A ++ c :: B).Pairwise r) (hl' : (C ++ x :: D).Pairwise r) (hrest : A ++ B = C ++ D) (hx : r x c) :
    C.length ≤ A.length := by
  by_contra hlt
  -- otherwise an entry behind `c` is ahead of `x`
  have hmem : ∃ b ∈ C, b ∈ B := by
    rcases append_eq_append_iff.mp hrest with ⟨M, hC, hB⟩ | ⟨M, hA, -⟩
    · rcases M with - | ⟨b, M⟩
      · rw [hC, append_nil] at hlt
        exact absurd (Nat.le_refl _) hlt
      · refine ⟨b, ?_, ?_⟩
        · rw [hC]
          exact mem_append_right _ (mem_cons_self ..)
        · rw [hB]
          exact mem_append_left _ (mem_cons_self ..)
    · rw [hA, length_append] at hlt
      exact absurd (Nat.le_add_right ..) hlt
  obtain ⟨b, hbC, hbB⟩ := hmem
  have hbx : r b x := (pairwise_append.mp hl').2.2 b hbC x (mem_cons_self ..)
  have hcb : r c b := rel_of_pairwise_cons (pairwise_append.mp hl).2.1 hbB
  exact irrefl _ _ (trans _ _ _ hx hcb) hbx

end Ranking
end OpenSesame
