import Mathlib.Data.Int.ModEq
import Mathlib.Data.List.Induction
import Mathlib.Tactic.Ring

/-! # Positional numerals

Big-endian digit lists and the carry loop that multiplies one in place: `mulAdd m b ds c` replaces the
base-`b` digits `ds` of a number `n` by those of `n * m + c`, keeping the number of places, and returns
the carry that leaves the first place. `feed` runs the loop once for each digit of an input in base `m`,
which converts the input from base `m` to base `b` up to the number of places. -/

namespace Positional

/-- The number a big-endian digit list denotes in base `b`. No digit needs to be below `b`. -/
def value (b : ℕ) : List ℕ → ℕ
  | [] => 0
  | d :: ds => d * b ^ ds.length + value b ds

/-- One pass of the carry loop, from the last place to the first. -/
def mulAdd (m b : ℕ) : List ℕ → ℕ → List ℕ × ℕ
  | [], c => ([], c)
  | d :: ds, c =>
    let r := mulAdd m b ds c
    ((d * m + r.2) % b :: r.1, (d * m + r.2) / b)

/-- The carry loop once for each digit of the input. -/
def feed (m b : ℕ) (buf : List ℕ) (cs : List ℕ) : List ℕ :=
  cs.foldl (fun ds c => (mulAdd m b ds c).1) buf

variable {m b : ℕ}

@[simp] theorem value_nil : value b [] = 0 := rfl

@[simp] theorem value_cons (d : ℕ) (ds : List ℕ) : value b (d :: ds) = d * b ^ ds.length + value b ds := rfl

theorem value_append (xs ys : List ℕ) : value b (xs ++ ys) = value b xs * b ^ ys.length + value b ys := by
  induction xs with
  | nil => simp
  | cons x xs ih =>
    rw [List.cons_append, value_cons, value_cons, ih, List.length_append, Nat.pow_add]
    ring

theorem value_concat (xs : List ℕ) (d : ℕ) : value b (xs ++ [d]) = value b xs * b + d := by
  simp [value_append]

@[simp] theorem value_replicate_zero (n : ℕ) : value b (List.replicate n 0) = 0 := by
  induction n with
  | zero => rfl
  | succ n ih => rw [List.replicate_succ, value_cons, ih, Nat.zero_mul]

theorem value_dropWhile_zero (ds : List ℕ) : value b (ds.dropWhile (· == 0)) = value b ds := by
  induction ds with
  | nil => rfl
  | cons d ds ih =>
    by_cases hd : d = 0
    · simp [hd, ih]
    · simp [hd]

/-- Digits of at most `c * (b - 1)` keep the number below `c * b ^ length`; ordinary digits have `c = 1`. -/
theorem value_add_le {c : ℕ} {ds : List ℕ} (h : ∀ d ∈ ds, d + c ≤ c * b) : value b ds + c ≤ c * b ^ ds.length := by
  induction ds with
  | nil => simp
  | cons d ds ih =>
    have hd : d + c ≤ c * b := h d (by simp)
    have ih := ih fun e he => h e (by simp [he])
    rw [value_cons, List.length_cons, Nat.pow_succ]
    calc d * b ^ ds.length + value b ds + c ≤ d * b ^ ds.length + c * b ^ ds.length := by omega
      _ = (d + c) * b ^ ds.length := by ring
      _ ≤ c * b * b ^ ds.length := Nat.mul_le_mul_right _ hd
      _ = c * (b ^ ds.length * b) := by ring

theorem value_lt {ds : List ℕ} (h : ∀ d ∈ ds, d < b) : value b ds < b ^ ds.length := by
  have := value_add_le (b := b) (c := 1) fun d hd => (by have := h d hd; omega : d + 1 ≤ 1 * b)
  omega

/-! ### The carry loop -/

@[simp] theorem length_mulAdd (ds : List ℕ) (c : ℕ) : (mulAdd m b ds c).1.length = ds.length := by
  induction ds with
  | nil => rfl
  | cons d ds ih => simp [mulAdd, ih]

theorem value_mulAdd (ds : List ℕ) (c : ℕ) :
    value b (mulAdd m b ds c).1 + (mulAdd m b ds c).2 * b ^ ds.length = value b ds * m + c := by
  induction ds with
  | nil => simp [mulAdd]
  | cons d ds ih =>
    have hdiv := Nat.mod_add_div (d * m + (mulAdd m b ds c).2) b
    simp only [mulAdd, value_cons, length_mulAdd, List.length_cons, Nat.pow_succ]
    calc (d * m + (mulAdd m b ds c).2) % b * b ^ ds.length + value b (mulAdd m b ds c).1
          + (d * m + (mulAdd m b ds c).2) / b * (b ^ ds.length * b)
        = ((d * m + (mulAdd m b ds c).2) % b + b * ((d * m + (mulAdd m b ds c).2) / b)) * b ^ ds.length
          + value b (mulAdd m b ds c).1 := by ring
      _ = d * m * b ^ ds.length + (value b (mulAdd m b ds c).1 + (mulAdd m b ds c).2 * b ^ ds.length) := by
        rw [hdiv]
        ring
      _ = (d * b ^ ds.length + value b ds) * m + c := by
        rw [ih]
        ring

theorem mulAdd_lt (hb : 0 < b) (ds : List ℕ) (c : ℕ) : ∀ d ∈ (mulAdd m b ds c).1, d < b := by
  induction ds with
  | nil => simp [mulAdd]
  | cons d ds ih =>
    intro e he
    simp only [mulAdd, List.mem_cons] at he
    rcases he with rfl | he
    · exact Nat.mod_lt _ hb
    · exact ih e he

@[simp] theorem length_feed (buf cs : List ℕ) : (feed m b buf cs).length = buf.length := by
  induction cs generalizing buf with
  | nil => rfl
  | cons c cs ih => rw [feed, List.foldl_cons, ← feed, ih, length_mulAdd]

theorem feed_lt (hb : 0 < b) {buf : List ℕ} (h : ∀ d ∈ buf, d < b) (cs : List ℕ) : ∀ d ∈ feed m b buf cs, d < b := by
  induction cs generalizing buf with
  | nil => exact h
  | cons c cs ih => exact ih (mulAdd_lt hb buf c)

theorem value_feed_mod (buf cs : List ℕ) : value b (feed m b buf cs) % b ^ buf.length =
      (value b buf * m ^ cs.length + value m cs) % b ^ buf.length := by
  induction cs generalizing buf with
  | nil => simp [feed]
  | cons c cs ih =>
    have hstep : value b (mulAdd m b buf c).1 ≡ value b buf * m + c [MOD b ^ buf.length] := by
      rw [← value_mulAdd buf c]
      simp [Nat.ModEq]
    rw [feed, List.foldl_cons, ← feed, ← length_mulAdd (m := m) (b := b) buf c, ih, length_mulAdd]
    calc (value b (mulAdd m b buf c).1 * m ^ cs.length + value m cs) % b ^ buf.length
        = ((value b buf * m + c) * m ^ cs.length + value m cs) % b ^ buf.length := (hstep.mul_right _).add_right _
      _ = _ := by
        rw [value_cons, List.length_cons, Nat.pow_succ']
        congr 1
        ring

theorem value_feed (hb : 0 < b) (n : ℕ) (cs : List ℕ) (hfit : value m cs < b ^ n) :
    value b (feed m b (List.replicate n 0) cs) = value m cs := by
  have hmod := value_feed_mod (m := m) (b := b) (List.replicate n 0) cs
  have hzeros : ∀ d ∈ List.replicate n 0, d < b := fun _ hd => (List.eq_of_mem_replicate hd).symm ▸ hb
  have hlt := value_lt (feed_lt (m := m) hb hzeros cs)
  rw [length_feed, List.length_replicate] at hlt
  rw [value_replicate_zero, Nat.zero_mul, Nat.zero_add, List.length_replicate, Nat.mod_eq_of_lt hlt,
    Nat.mod_eq_of_lt hfit] at hmod
  exact hmod

/-! ### Numerals without leading zeros -/

section Symbols

variable {α : Type} {f : α → ℕ} {l k : List α}

theorem eq_nil_of_value (h : value b (l.map f) = 0) (hb : 0 < b) (hl : ∀ c ∈ l.head?, f c ≠ 0) : l = [] := by
  cases l with
  | nil => rfl
  | cons c l =>
    simp only [List.map_cons, value_cons, Nat.add_eq_zero_iff, Nat.mul_eq_zero] at h
    exact absurd (h.1.resolve_right (Nat.pow_pos hb).ne') (hl c rfl)

theorem head_of_concat {P : α → Prop} {c : α} (h : ∀ d ∈ (l ++ [c]).head?, P d) : ∀ d ∈ l.head?, P d := by
  cases l with
  | nil => simp
  | cons => exact h

/-- Two numerals of one number without leading zeros are equal if congruent digits are the same symbol at each
    place from the right. -/
theorem eq_of_value (hb : 0 < b) (hl : ∀ c ∈ l.head?, f c ≠ 0) (hk : ∀ c ∈ k.head?, f c ≠ 0)
    (hsame : ∀ i : ℕ, ∀ c ∈ l.reverse[i]?, ∀ d ∈ k.reverse[i]?, f c % b = f d % b → c = d)
    (h : value b (l.map f) = value b (k.map f)) : l = k := by
  -- from the last symbol, whose digit is the remainder by the base
  induction l using List.reverseRecOn generalizing k with
  | nil => exact (eq_nil_of_value h.symm hb hk).symm
  | append_singleton l c ih =>
    cases k using List.reverseRecOn with
    | nil => exact eq_nil_of_value h hb hl
    | append_singleton k d =>
      simp only [List.map_append, List.map_cons, List.map_nil, value_concat] at h
      have hcd : c = d := by
        refine hsame 0 c (by simp) d (by simp) ?_
        simpa [Nat.add_mod] using congrArg (· % b) h
      subst hcd
      have hlk : l = k := by
        refine ih (head_of_concat hl) (head_of_concat hk) (fun i c hc d hd => ?_)
          (Nat.eq_of_mul_eq_mul_right hb (Nat.add_right_cancel h))
        exact hsame (i + 1) c (by simpa using hc) d (by simpa using hd)
      rw [hlk]

end Symbols

/-- Digits of base `b`, the first of them not zero. -/
structure Canonical (b : ℕ) (ds : List ℕ) : Prop where
  lt : ∀ d ∈ ds, d < b
  head : ∀ d ∈ ds.head?, d ≠ 0

theorem Canonical.eq {ds es : List ℕ} (hds : Canonical b ds) (hes : Canonical b es) (hb : 0 < b)
    (h : value b ds = value b es) : ds = es := by
  refine eq_of_value (f := id) hb hds.head hes.head (fun i c hc d hd hcd => ?_) (by simpa using h)
  have hc := hds.lt c (List.mem_reverse.mp (List.mem_of_getElem? hc))
  have hd := hes.lt d (List.mem_reverse.mp (List.mem_of_getElem? hd))
  simpa [Nat.mod_eq_of_lt hc, Nat.mod_eq_of_lt hd] using hcd

/-- The digits in base `b` that the carry loops leave behind the zeros of a buffer of `n` places. -/
def convert (m b n : ℕ) (cs : List ℕ) : List ℕ :=
  (feed m b (List.replicate n 0) cs).dropWhile (· == 0)

theorem canonical_convert (hb : 0 < b) (n : ℕ) (cs : List ℕ) : Canonical b (convert m b n cs) where
  lt d hd := feed_lt hb (fun _ hd => (List.eq_of_mem_replicate hd).symm ▸ hb) cs d ((List.dropWhile_sublist _).mem hd)
  head d hd := by
    have hnot := List.head?_dropWhile_not (· == 0) (feed m b (List.replicate n 0) cs)
    rw [← convert, Option.mem_def.mp hd] at hnot
    simpa using hnot

theorem value_convert {n : ℕ} {cs : List ℕ} (hb : 0 < b) (hfit : value m cs < b ^ n) :
    value b (convert m b n cs) = value m cs := by
  rw [convert, value_dropWhile_zero, value_feed hb n cs hfit]

theorem convert_eq {n : ℕ} {cs ds : List ℕ} (hb : 0 < b) (hfit : value m cs < b ^ n) (hds : Canonical b ds)
    (h : value b ds = value m cs) : convert m b n cs = ds :=
  (canonical_convert hb n cs).eq hds hb ((value_convert hb hfit).trans h.symm)

theorem exists_canonical (hb : 1 < b) (v : ℕ) : ∃ ds, Canonical b ds ∧ value b ds = v := by
  have hfit : value 1 [v] < b ^ v := by simpa using Nat.lt_pow_self hb
  refine ⟨convert 1 b v [v], canonical_convert (by omega) v [v], ?_⟩
  rw [value_convert (by omega) hfit]
  simp

end Positional
