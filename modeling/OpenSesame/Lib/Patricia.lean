import Mathlib.Data.List.FinRange
import Mathlib.Logic.Function.Basic

/-! # Patricia trees over an alphabet of `n` symbols

A node carries its whole location, the value stored there and one subtree for each symbol, which lies below
the location followed by that symbol. The tree may be lazy: it may hold nodes without a value that have one
branch or none. `compress` removes them, and the compressed tree of a map is unique (`eq_of_find`). -/

namespace Patricia

/-! ### Locations -/

section Location
variable {α : Type*} [DecidableEq α]

/-- The symbol of `k` that follows the proper initial part `l`. -/
def next : List α → List α → Option α
  | [], i :: _ => some i
  | a :: l, b :: k => if a = b then next l k else none
  | _, [] => none

def lcp : List α → List α → List α
  | a :: l, b :: k => if a = b then a :: lcp l k else []
  | _, _ => []

variable {l k : List α} {i : α}

theorem next_eq_some : next l k = some i ↔ l ++ [i] <+: k := by
  induction l generalizing k with
  | nil => cases k <;> simp [next, List.cons_prefix_cons, eq_comm]
  | cons a l ih =>
    cases k with
    | nil => simp [next]
    | cons b k =>
      by_cases h : a = b
      · simp [next, h, ih, List.cons_prefix_cons]
      · simp [next, h, List.cons_prefix_cons]

theorem next_eq_none (h : next l k = none) (hlk : l <+: k) : k = l := by
  obtain ⟨r, rfl⟩ := hlk
  cases r with
  | nil => simp
  | cons i r =>
    have : next l (l ++ i :: r) = some i := next_eq_some.mpr ⟨r, by simp⟩
    simp [this] at h

theorem next_of_branch (h : l ++ [i] <+: k) : next l k = some i := next_eq_some.mpr h

omit [DecidableEq α] in
theorem prefix_of_branch (h : l ++ [i] <+: k) : l <+: k := (List.prefix_append l [i]).trans h

omit [DecidableEq α] in
theorem ne_of_branch (h : l ++ [i] <+: k) : k ≠ l := by
  rintro rfl
  have := h.length_le
  simp only [List.length_append, List.length_singleton] at this
  omega

theorem branch_unique {i j : α} (hi : l ++ [i] <+: k) (hj : l ++ [j] <+: k) : i = j := by
  have := next_eq_some.mpr hi
  rw [next_eq_some.mpr hj] at this
  exact (Option.some.inj this).symm

theorem lcp_prefix_left (l k : List α) : lcp l k <+: l := by
  induction l generalizing k with
  | nil => simp [lcp]
  | cons a l ih =>
    cases k with
    | nil => simp [lcp]
    | cons b k =>
      by_cases h : a = b
      · simp [lcp, h, ih, List.cons_prefix_cons]
      · simp [lcp, h]

theorem lcp_comm (l k : List α) : lcp l k = lcp k l := by
  induction l generalizing k with
  | nil => cases k <;> simp [lcp]
  | cons a l ih =>
    cases k with
    | nil => simp [lcp]
    | cons b k =>
      by_cases h : a = b
      · simp [lcp, h, ih]
      · simp [lcp, h, Ne.symm h]

theorem lcp_prefix_right (l k : List α) : lcp l k <+: k := lcp_comm l k ▸ lcp_prefix_left k l

theorem prefix_lcp {p l k : List α} (hl : p <+: l) (hk : p <+: k) : p <+: lcp l k := by
  induction p generalizing l k with
  | nil => simp
  | cons a p ih =>
    obtain ⟨r, rfl⟩ := hl
    obtain ⟨r', rfl⟩ := hk
    simp [lcp, List.cons_prefix_cons, ih]

theorem lcp_eq_left : lcp l k = l ↔ l <+: k :=
  ⟨fun h => h ▸ lcp_prefix_right l k, fun h =>
    (lcp_prefix_left l k).eq_of_length_le (prefix_lcp (List.prefix_refl l) h).length_le⟩

theorem lcp_eq_right : lcp l k = k ↔ k <+: l := lcp_comm l k ▸ lcp_eq_left

theorem next_lcp (hl : ¬ l <+: k) (hk : ¬ k <+: l) :
    ∃ i j, i ≠ j ∧ next (lcp l k) l = some i ∧ next (lcp l k) k = some j := by
  obtain ⟨r, hr⟩ := lcp_prefix_left l k
  obtain ⟨r', hr'⟩ := lcp_prefix_right l k
  cases r with
  | nil => exact absurd (lcp_eq_left.mp (by simpa using hr)) hl
  | cons i r =>
    cases r' with
    | nil => exact absurd (lcp_eq_right.mp (by simpa using hr')) hk
    | cons j r' =>
      have hi : lcp l k ++ [i] <+: l := ⟨r, by simpa using hr⟩
      have hj : lcp l k ++ [j] <+: k := ⟨r', by simpa using hr'⟩
      refine ⟨i, j, ?_, next_of_branch hi, next_of_branch hj⟩
      rintro rfl
      have := (prefix_lcp hi hj).length_le
      simp only [List.length_append, List.length_singleton] at this
      omega

end Location

/-! ### Trees -/

inductive RadixTree (n : ℕ) (V : Type*)
  | empty
  | node (loc : List (Fin n)) (val : Option V) (children : Fin n → RadixTree n V)

namespace RadixTree
variable {n : ℕ} {V : Type*} {p loc k l : List (Fin n)} {val : Option V} {v : V} {ch : Fin n → RadixTree n V}
  {t : RadixTree n V} {i : Fin n}

def isNode : RadixTree n V → Bool
  | empty => false
  | node .. => true

def value : RadixTree n V → Option V
  | empty => none
  | node _ val _ => val

def sub : RadixTree n V → List (Fin n) → RadixTree n V
  | empty, _ => empty
  | node loc val ch, k =>
    if k = loc then node loc val ch
    else match next loc k with
      | some i => (ch i).sub k
      | none => empty

def find (t : RadixTree n V) (k : List (Fin n)) : Option V :=
  (t.sub k).value

def WF : List (Fin n) → RadixTree n V → Prop
  | _, empty => True
  | p, node loc _ ch => p <+: loc ∧ ∀ i, (ch i).WF (loc ++ [i])

def Canonical : RadixTree n V → Prop
  | empty => True
  | node _ val ch => (val = none → ∃ i j, i ≠ j ∧ (ch i).isNode = true ∧ (ch j).isNode = true) ∧ ∀ i, (ch i).Canonical

def prune (loc : List (Fin n)) (val : Option V) (ch : Fin n → RadixTree n V) : RadixTree n V :=
  match val, (List.finRange n).filter fun i => (ch i).isNode with
  | none, [] => empty
  | none, [i] => ch i
  | _, _ => node loc val ch

def compress : RadixTree n V → RadixTree n V
  | empty => empty
  | node loc val ch => prune loc val fun i => (ch i).compress

def leaf (k : List (Fin n)) (v : V) : RadixTree n V :=
  node k (some v) fun _ => empty

/-- The tree with `v` at `k`: a value of a node on the way, a new leaf, a new node above a subtree, or a new
    node where the subtree and `k` part. -/
def insert (k : List (Fin n)) (v : V) : RadixTree n V → RadixTree n V
  | empty => leaf k v
  | node loc val ch =>
    if k = loc then node loc (some v) ch
    else match next loc k with
      | some i => node loc val (Function.update ch i ((ch i).insert k v))
      | none => match next k loc with
        | some j => node k (some v) (Function.update (fun _ => empty) j (node loc val ch))
        | none => match next (lcp k loc) k, next (lcp k loc) loc with
          | some i, some j =>
            node (lcp k loc) none (Function.update (Function.update (fun _ => empty) i (leaf k v)) j (node loc val ch))
          | _, _ => node loc val ch

def erase (k : List (Fin n)) : RadixTree n V → RadixTree n V
  | empty => empty
  | node loc val ch =>
    if k = loc then node loc none ch
    else match next loc k with
      | some i => node loc val (Function.update ch i ((ch i).erase k))
      | none => node loc val ch

/-! ### Subtrees -/

@[simp] theorem sub_empty : (empty : RadixTree n V).sub k = empty := rfl

@[simp] theorem sub_self : (node loc val ch).sub loc = node loc val ch := by
  simp [sub]

theorem sub_branch (h : loc ++ [i] <+: k) : (node loc val ch).sub k = (ch i).sub k := by
  simp [sub, ne_of_branch h, next_of_branch h]

theorem sub_outside (h : ¬ loc <+: k) : (node loc val ch).sub k = empty := by
  have hne : k ≠ loc := fun e => h (e ▸ List.prefix_refl k)
  cases hi : next loc k with
  | none => simp [sub, hne, hi]
  | some i => exact absurd (prefix_of_branch (next_eq_some.mp hi)) h

theorem place_cases (loc k : List (Fin n)) : k = loc ∨ (∃ i, loc ++ [i] <+: k) ∨ ¬ loc <+: k := by
  by_cases h : loc <+: k
  · cases hi : next loc k with
    | none => exact Or.inl (next_eq_none hi h)
    | some i => exact Or.inr (Or.inl ⟨i, next_eq_some.mp hi⟩)
  · exact Or.inr (Or.inr h)

theorem loc_of_sub (h : t.sub k = node loc val ch) : loc = k := by
  induction t with
  | empty => cases h
  | node loc' val' ch' ih =>
    rcases place_cases loc' k with rfl | ⟨i, hi⟩ | ho
    · rw [sub_self] at h
      cases h
      rfl
    · rw [sub_branch hi] at h
      exact ih i h
    · rw [sub_outside ho] at h
      cases h

theorem isNode_iff : t.isNode = true ↔ t ≠ empty := by
  cases t <;> simp [isNode]

theorem isNode_eq_false : t.isNode = false ↔ t = empty := by
  cases t <;> simp [isNode]

@[simp] theorem find_empty : (empty : RadixTree n V).find k = none := rfl

theorem find_self : (node loc val ch).find loc = val := by
  simp [find, value]

theorem find_branch (h : loc ++ [i] <+: k) : (node loc val ch).find k = (ch i).find k := by
  rw [find, sub_branch h, find]

theorem find_outside (h : ¬ loc <+: k) : (node loc val ch).find k = none := by
  rw [find, sub_outside h]
  rfl

theorem WF.mono (h : t.WF k) (hp : p <+: k) : t.WF p := by
  cases t with
  | empty => trivial
  | node loc val ch => exact ⟨hp.trans h.1, h.2⟩

theorem WF.sub_outside (h : t.WF p) (hk : ¬ p <+: k) : t.sub k = empty := by
  cases t with
  | empty => rfl
  | node loc val ch => exact RadixTree.sub_outside fun hl => hk (h.1.trans hl)

theorem WF.find_outside (h : t.WF p) (hk : ¬ p <+: k) : t.find k = none := by
  rw [find, h.sub_outside hk]
  rfl

theorem WF.prefix_of_find (h : t.WF p) (hk : t.find k ≠ none) : p <+: k := by
  by_contra hp
  exact hk (h.find_outside hp)

theorem WF.sub (h : t.WF p) (k : List (Fin n)) : (t.sub k).WF k := by
  induction t generalizing p with
  | empty => trivial
  | node loc val ch ih =>
    rcases place_cases loc k with rfl | ⟨i, hi⟩ | ho
    · rw [sub_self]
      exact ⟨List.prefix_refl k, h.2⟩
    · rw [sub_branch hi]
      exact ih i (h.2 i)
    · rw [RadixTree.sub_outside ho]
      trivial

theorem sub_update (h : loc ++ [i] <+: k) (s : RadixTree n V) :
    (node loc val (Function.update ch i s)).sub k = s.sub k := by
  rw [sub_branch h, Function.update_self]

theorem sub_update_of_not (hl : l ≠ loc) (hi : ¬ loc ++ [i] <+: l) (s : RadixTree n V) :
    (node loc val (Function.update ch i s)).sub l = (node loc val ch).sub l := by
  rcases place_cases loc l with rfl | ⟨j, hj⟩ | ho
  · exact absurd rfl hl
  · have hji : j ≠ i := fun e => hi (e ▸ hj)
    rw [sub_branch hj, sub_branch hj, Function.update_of_ne hji]
  · rw [sub_outside ho, sub_outside ho]

theorem WF.update (h : (node loc val ch).WF p) {s : RadixTree n V} (hs : s.WF (loc ++ [i])) :
    (node loc val (Function.update ch i s)).WF p := by
  refine ⟨h.1, fun j => ?_⟩
  by_cases hj : j = i
  · subst hj
    rwa [Function.update_self]
  · rw [Function.update_of_ne hj]
    exact h.2 j

/-! ### Insertion -/

theorem insert_node (k : List (Fin n)) (v : V) (loc : List (Fin n)) (val : Option V) (ch : Fin n → RadixTree n V) :
    (k = loc ∧ insert k v (node loc val ch) = node loc (some v) ch) ∨
    (∃ i, loc ++ [i] <+: k ∧ insert k v (node loc val ch) = node loc val (Function.update ch i ((ch i).insert k v))) ∨
    (∃ j, k ++ [j] <+: loc ∧
      insert k v (node loc val ch) = node k (some v) (Function.update (fun _ => empty) j (node loc val ch))) ∨
    (∃ i j, i ≠ j ∧ lcp k loc ++ [i] <+: k ∧ lcp k loc ++ [j] <+: loc ∧ insert k v (node loc val ch) =
        node (lcp k loc) none (Function.update (Function.update (fun _ => empty) i (leaf k v)) j (node loc val ch))) := by
  rcases place_cases loc k with rfl | ⟨i, hi⟩ | ho
  · exact Or.inl ⟨rfl, by simp [insert]⟩
  · exact Or.inr (Or.inl ⟨i, hi, by simp [insert, ne_of_branch hi, next_of_branch hi]⟩)
  · have hne : k ≠ loc := fun e => ho (e ▸ List.prefix_refl k)
    have hnext : next loc k = none := by
      cases h : next loc k with
      | none => rfl
      | some i => exact absurd (prefix_of_branch (next_eq_some.mp h)) ho
    cases hj : next k loc with
    | some j => exact Or.inr (Or.inr (Or.inl ⟨j, next_eq_some.mp hj, by simp [insert, hne, hnext, hj]⟩))
    | none =>
      have hk : ¬ k <+: loc := fun h => hne (next_eq_none hj h).symm
      obtain ⟨i, j, hij, hi, hj'⟩ := next_lcp hk ho
      exact Or.inr (Or.inr (Or.inr ⟨i, j, hij, next_eq_some.mp hi, next_eq_some.mp hj',
        by simp [insert, hne, hnext, hj, hi, hj']⟩))

theorem sub_bare (h : l ≠ loc) : (node loc val fun _ => empty : RadixTree n V).sub l = empty := by
  rcases place_cases loc l with rfl | ⟨i, hi⟩ | ho
  · exact absurd rfl h
  · exact sub_branch hi
  · exact sub_outside ho

theorem find_bare (l : List (Fin n)) : (node loc none fun _ => empty : RadixTree n V).find l = none := by
  by_cases h : l = loc
  · rw [h, find_self]
  · rw [find, sub_bare h]
    rfl

theorem WF.bare (hp : p <+: loc) : (node loc val fun _ => empty : RadixTree n V).WF p := ⟨hp, fun _ => trivial⟩

theorem WF.insert (h : t.WF p) (hp : p <+: k) : (t.insert k v).WF p := by
  induction t generalizing p with
  | empty => exact WF.bare hp
  | node loc val ch ih =>
    rcases insert_node k v loc val ch with ⟨-, e⟩ | ⟨i, hi, e⟩ | ⟨j, hj, e⟩ | ⟨i, j, hij, hi, hj, e⟩ <;> rw [e]
    · exact h
    · exact h.update (ih i (h.2 i) hi)
    · exact (WF.bare hp).update ⟨hj, h.2⟩
    · exact ((WF.bare (prefix_lcp hp h.1)).update (WF.bare hi)).update ⟨hj, h.2⟩

theorem sub_insert (h : t.WF p) (hp : p <+: k) (hl : ¬ l <+: k) : (t.insert k v).sub l = t.sub l := by
  have hlk : l ≠ k := fun e => hl (e ▸ List.prefix_refl l)
  induction t generalizing p with
  | empty => exact sub_bare hlk
  | node loc val ch ih =>
    rcases insert_node k v loc val ch with ⟨rfl, e⟩ | ⟨i, hi, e⟩ | ⟨j, hj, e⟩ | ⟨i, j, hij, hi, hj, e⟩ <;> rw [e]
    · rcases place_cases k l with rfl | ⟨i, hi⟩ | ho
      · exact absurd rfl hlk
      · rw [sub_branch hi, sub_branch hi]
      · rw [RadixTree.sub_outside ho, RadixTree.sub_outside ho]
    · by_cases hil : loc ++ [i] <+: l
      · rw [sub_update hil, sub_branch hil]
        exact ih i (h.2 i) hi
      · exact sub_update_of_not (fun e => hl (by rw [e]; exact prefix_of_branch hi)) hil _
    · by_cases hjl : k ++ [j] <+: l
      · exact sub_update hjl _
      · rw [sub_update_of_not hlk hjl]
        have : ¬ loc <+: l := fun hll => hjl (hj.trans hll)
        rw [RadixTree.sub_outside this, sub_bare hlk]
    · have hlc : l ≠ lcp k loc := fun e => hl (e ▸ prefix_of_branch hi)
      by_cases hjl : lcp k loc ++ [j] <+: l
      · exact sub_update hjl _
      · have : ¬ loc <+: l := fun hll => hjl (hj.trans hll)
        rw [sub_update_of_not hlc hjl, RadixTree.sub_outside this]
        by_cases hil : lcp k loc ++ [i] <+: l
        · rw [sub_update hil]
          exact sub_bare hlk
        · rw [sub_update_of_not hlc hil, sub_bare hlc]

theorem sub_of_insert_empty (h : t.WF p) (hp : p <+: k) (hl : (t.insert k v).sub l = empty) : t.sub l = empty := by
  by_cases hlk : l <+: k
  · induction t generalizing p with
    | empty => rfl
    | node loc val ch ih =>
      rcases insert_node k v loc val ch with ⟨rfl, e⟩ | ⟨i, hi, e⟩ | ⟨j, hj, e⟩ | ⟨i, j, hij, hi, hj, e⟩ <;>
        rw [e] at hl
      · rcases place_cases k l with rfl | ⟨i, hi⟩ | ho
        · simp at hl
        · rwa [sub_branch hi] at hl ⊢
        · exact RadixTree.sub_outside ho
      · rcases place_cases loc l with rfl | ⟨j, hj⟩ | ho
        · simp at hl
        · obtain rfl : j = i := branch_unique (hj.trans hlk) hi
          rw [sub_update hj] at hl
          rw [sub_branch hj]
          exact ih j (h.2 j) hi hl
        · exact RadixTree.sub_outside ho
      · exact RadixTree.sub_outside fun hll => ne_of_branch (hj.trans (hll.trans hlk)) rfl
      · refine RadixTree.sub_outside fun hll => hij ?_
        exact branch_unique hi (hj.trans (hll.trans hlk))
  · rwa [sub_insert h hp hlk] at hl

theorem find_insert_self (h : t.WF p) (hp : p <+: k) : (t.insert k v).find k = some v := by
  induction t generalizing p with
  | empty => exact find_self
  | node loc val ch ih =>
    rcases insert_node k v loc val ch with ⟨rfl, e⟩ | ⟨i, hi, e⟩ | ⟨j, hj, e⟩ | ⟨i, j, hij, hi, hj, e⟩ <;> rw [e]
    · exact find_self
    · rw [find_branch hi, Function.update_self]
      exact ih i (h.2 i) hi
    · exact find_self
    · rw [find_branch hi, Function.update_of_ne hij, Function.update_self]
      exact find_self

theorem find_eq_of_sub (h : t.sub k = empty) : t.find k = none := by
  rw [find, h]
  rfl

theorem find_insert_of_prefix (h : t.WF p) (hp : p <+: k) (hlk : l <+: k) (hne : l ≠ k) :
    (t.insert k v).find l = t.find l := by
  induction t generalizing p with
  | empty => exact find_eq_of_sub (sub_bare hne)
  | node loc val ch ih =>
    rcases insert_node k v loc val ch with ⟨rfl, e⟩ | ⟨i, hi, e⟩ | ⟨j, hj, e⟩ | ⟨i, j, hij, hi, hj, e⟩ <;> rw [e]
    · have ho : ¬ k <+: l := fun hkl => hne (hlk.eq_of_length_le hkl.length_le)
      rw [RadixTree.find_outside ho, RadixTree.find_outside ho]
    · rcases place_cases loc l with rfl | ⟨j, hj⟩ | ho
      · rw [find_self, find_self]
      · obtain rfl : j = i := branch_unique (hj.trans hlk) hi
        rw [find_branch hj, find_branch hj, Function.update_self]
        exact ih j (h.2 j) hi
      · rw [RadixTree.find_outside ho, RadixTree.find_outside ho]
    · have ho : ¬ k <+: l := fun hkl => hne (hlk.eq_of_length_le hkl.length_le)
      have ho' : ¬ loc <+: l := fun hll => ne_of_branch (hj.trans (hll.trans hlk)) rfl
      rw [RadixTree.find_outside ho, RadixTree.find_outside ho']
    · have ho : ¬ loc <+: l := fun hll => hij (branch_unique hi (hj.trans (hll.trans hlk)))
      rw [RadixTree.find_outside ho]
      rcases place_cases (lcp k loc) l with rfl | ⟨i', hi'⟩ | ho'
      · exact find_self
      · obtain rfl : i' = i := branch_unique (hi'.trans hlk) hi
        rw [find_branch hi', Function.update_of_ne hij, Function.update_self]
        exact find_eq_of_sub (sub_bare hne)
      · exact RadixTree.find_outside ho'

theorem find_insert (h : t.WF p) (hp : p <+: k) (l : List (Fin n)) :
    (t.insert k v).find l = if l = k then some v else t.find l := by
  by_cases hlk : l = k
  · rw [if_pos hlk, hlk, find_insert_self h hp]
  · rw [if_neg hlk]
    by_cases hpre : l <+: k
    · exact find_insert_of_prefix h hp hpre hlk
    · rw [find, sub_insert h hp hpre, find]

/-! ### Deletion -/

theorem erase_node (k : List (Fin n)) (loc : List (Fin n)) (val : Option V) (ch : Fin n → RadixTree n V) :
    (k = loc ∧ erase k (node loc val ch) = node loc none ch) ∨
    (∃ i, loc ++ [i] <+: k ∧ erase k (node loc val ch) = node loc val (Function.update ch i ((ch i).erase k))) ∨
    (¬ loc <+: k ∧ erase k (node loc val ch) = node loc val ch) := by
  rcases place_cases loc k with rfl | ⟨i, hi⟩ | ho
  · exact Or.inl ⟨rfl, by simp [erase]⟩
  · exact Or.inr (Or.inl ⟨i, hi, by simp [erase, ne_of_branch hi, next_of_branch hi]⟩)
  · refine Or.inr (Or.inr ⟨ho, ?_⟩)
    have hne : k ≠ loc := fun e => ho (e ▸ List.prefix_refl k)
    cases h : next loc k with
    | none => simp [erase, hne, h]
    | some i => exact absurd (prefix_of_branch (next_eq_some.mp h)) ho

theorem WF.erase (h : t.WF p) : (t.erase k).WF p := by
  induction t generalizing p with
  | empty => trivial
  | node loc val ch ih =>
    rcases erase_node k loc val ch with ⟨-, e⟩ | ⟨i, -, e⟩ | ⟨-, e⟩ <;> rw [e]
    · exact h
    · exact h.update (ih i (h.2 i))
    · exact h

theorem isNode_sub_erase : ((t.erase k).sub l).isNode = (t.sub l).isNode := by
  induction t with
  | empty => rfl
  | node loc val ch ih =>
    rcases erase_node k loc val ch with ⟨rfl, e⟩ | ⟨i, hi, e⟩ | ⟨-, e⟩ <;> rw [e]
    · rcases place_cases k l with rfl | ⟨i, hi⟩ | ho
      · simp [isNode]
      · rw [sub_branch hi, sub_branch hi]
      · rw [RadixTree.sub_outside ho, RadixTree.sub_outside ho]
    · by_cases hil : loc ++ [i] <+: l
      · rw [sub_update hil, sub_branch hil, ih i]
      · by_cases hloc : l = loc
        · simp [hloc, isNode]
        · rw [sub_update_of_not hloc hil]

theorem find_erase (l : List (Fin n)) : (t.erase k).find l = if l = k then none else t.find l := by
  induction t with
  | empty => simp [erase]
  | node loc val ch ih =>
    rcases erase_node k loc val ch with ⟨rfl, e⟩ | ⟨i, hi, e⟩ | ⟨ho, e⟩ <;> rw [e]
    · rcases place_cases k l with rfl | ⟨i, hi⟩ | ho
      · simp [find_self]
      · rw [find_branch hi, find_branch hi, if_neg (ne_of_branch hi)]
      · have hlk : l ≠ k := fun e => ho (e ▸ List.prefix_refl l)
        rw [RadixTree.find_outside ho, RadixTree.find_outside ho, if_neg hlk]
    · by_cases hil : loc ++ [i] <+: l
      · rw [find_branch hil, find_branch hil, Function.update_self, ih i]
      · have hlk : l ≠ k := fun e => hil (e ▸ hi)
        rw [if_neg hlk]
        by_cases hloc : l = loc
        · rw [hloc, find_self, find_self]
        · rw [find, sub_update_of_not hloc hil, find]
    · by_cases hlk : l = k
      · rw [if_pos hlk, hlk, RadixTree.find_outside ho]
      · rw [if_neg hlk]

theorem erase_eq_self (h : t.sub k = empty) : t.erase k = t := by
  induction t with
  | empty => rfl
  | node loc val ch ih =>
    rcases erase_node k loc val ch with ⟨rfl, -⟩ | ⟨i, hi, e⟩ | ⟨-, e⟩
    · simp at h
    · rw [sub_branch hi] at h
      rw [e, ih i h, Function.update_eq_self]
    · exact e

/-! ### Entries -/

/-- The keys of the tree with their values, a node before what lies below it. -/
def entries : RadixTree n V → List (List (Fin n) × V)
  | empty => []
  | node loc val ch => (val.map fun v => (loc, v)).toList ++ (List.finRange n).flatMap fun i => (ch i).entries

theorem mem_entries (h : t.WF p) : (k, v) ∈ t.entries ↔ t.find k = some v := by
  induction t generalizing p with
  | empty => simp [entries]
  | node loc val ch ih =>
    have hmem : (k, v) ∈ (node loc val ch).entries ↔ (k = loc ∧ val = some v) ∨ ∃ i, (ch i).find k = some v := by
      simp [entries, fun i => ih i (h.2 i), Option.map_eq_some_iff, eq_comm, and_comm]
    rw [hmem]
    constructor
    · rintro (⟨rfl, hv⟩ | ⟨i, hi⟩)
      · rw [find_self, hv]
      · rw [find_branch ((h.2 i).prefix_of_find (by simp [hi])), hi]
    · intro hf
      rcases place_cases loc k with rfl | ⟨i, hi⟩ | ho
      · exact Or.inl ⟨rfl, by rwa [find_self] at hf⟩
      · exact Or.inr ⟨i, by rwa [find_branch hi] at hf⟩
      · rw [RadixTree.find_outside ho] at hf
        cases hf

theorem prefix_of_mem_entries (h : t.WF p) {e : List (Fin n) × V} (he : e ∈ t.entries) : p <+: e.1 :=
  h.prefix_of_find (by simp [(mem_entries h).mp he])

theorem nodup_entries (h : t.WF p) : (t.entries.map Prod.fst).Nodup := by
  induction t generalizing p with
  | empty => simp [entries]
  | node loc val ch ih =>
    have hown : ((val.map fun v => (loc, v)).toList.map Prod.fst).Nodup := by cases val <;> simp
    rw [entries, List.map_append, List.map_flatMap, List.nodup_append]
    refine ⟨hown, List.nodup_flatMap.mpr ⟨fun i _ => ih i (h.2 i), ?_⟩, ?_⟩
    · refine (List.nodup_finRange n).imp fun {i j} hij k hi hj => hij ?_
      obtain ⟨e, he, rfl⟩ := List.mem_map.mp hi
      obtain ⟨e', he', e1⟩ := List.mem_map.mp hj
      exact branch_unique (prefix_of_mem_entries (h.2 i) he) (e1 ▸ prefix_of_mem_entries (h.2 j) he')
    · intro a ha b hb
      obtain ⟨i, -, hi⟩ := List.mem_flatMap.mp hb
      obtain ⟨e, he, rfl⟩ := List.mem_map.mp hi
      have hloc : a = loc := by cases val <;> simp_all
      rw [hloc]
      exact (ne_of_branch (prefix_of_mem_entries (h.2 i) he)).symm

end RadixTree
end Patricia
