import Mathlib.Data.Nat.Notation
import Mathlib.Data.Option.Basic
import Mathlib.Data.Set.Insert
import Mathlib.Logic.Function.Basic

/-! # Stacks of overlays

A stack of partial maps laid over a base map, as nested change buffers are. A layer says nothing about a key,
deletes it, or gives it a value; what is seen from a layer is what the nearest layer at or below it says.

The second part relates such a stack to a log that records when each change was made: copying a visible entry
to a nearer layer, folding a layer into the one below and wiping a layer keep what is seen equal to the outcome
of the latest change, as long as nothing is changed below a layer that holds its own entry. -/

namespace OpenSesame
open Function

/-- What one layer says about each key: nothing (`none`), that it is deleted (`some none`), or its value. -/
abbrev Overlay (K V : Type) := K → Option (Option V)

namespace Overlay

variable {K V : Type}

def empty : Overlay K V := fun _ => none

def put [DecidableEq K] (m : Overlay K V) (k : K) (r : Option V) : Overlay K V :=
  update m k (some r)

/-- The entries of `m` written into `n`. -/
def merge (m n : Overlay K V) : Overlay K V := fun k => (m k).or (n k)

@[simp] theorem empty_apply (k : K) : (empty : Overlay K V) k = none := rfl

@[simp] theorem put_self [DecidableEq K] (m : Overlay K V) (k : K) (r : Option V) : put m k r k = some r :=
  update_self ..

theorem put_of_ne [DecidableEq K] (m : Overlay K V) {k k' : K} (h : k' ≠ k) (r : Option V) : put m k r k' = m k' :=
  update_of_ne h ..

@[simp] theorem merge_empty_left (n : Overlay K V) : merge empty n = n := rfl

theorem put_eq_self [DecidableEq K] {m : Overlay K V} {k : K} {r : Option V} (h : m k = some r) : put m k r = m := by
  funext k'
  by_cases hk : k' = k
  · subst hk
    rw [put_self, h]
  · exact put_of_ne m hk r

/-- What is seen of each key from layer `d`: layer 0 lies over the base map. -/
def view (base : K → Option V) (L : ℕ → Overlay K V) : ℕ → K → Option V
  | 0, k => (L 0 k).getD (base k)
  | d + 1, k => (L (d + 1) k).getD (view base L d k)

variable {base : K → Option V} {L L' : ℕ → Overlay K V} {k : K} {d i : ℕ} {r : Option V}

theorem view_of_held (h : L d k = some r) : view base L d k = r := by
  cases d <;> simp [view, h]

theorem view_succ_of_unheld (h : L (d + 1) k = none) : view base L (d + 1) k = view base L d k := by
  simp [view, h]

theorem view_congr : ∀ {d : ℕ}, (∀ i ≤ d, L i k = L' i k) → view base L d k = view base L' d k
  | 0, h => by simp [view, h 0 (Nat.le_refl 0)]
  | d + 1, h => by
    have ih : view base L d k = view base L' d k := view_congr fun i hi => h i (Nat.le_succ_of_le hi)
    simp [view, h (d + 1) (Nat.le_refl _), ih]

theorem view_of_unheld (hid : i ≤ d) (h : ∀ j, i < j → j ≤ d → L j k = none) : view base L d k = view base L i k := by
  induction d with
  | zero => rw [Nat.le_zero.mp hid]
  | succ d ih =>
    rcases Nat.lt_or_eq_of_le hid with hlt | rfl
    · rw [view_succ_of_unheld (h (d + 1) hlt (Nat.le_refl _))]
      exact ih (Nat.le_of_lt_succ hlt) fun j hij hj => h j hij (Nat.le_succ_of_le hj)
    · rfl

theorem view_eq_base (h : ∀ j ≤ d, L j k = none) : view base L d k = base k := by
  rw [view_of_unheld (Nat.zero_le d) fun j _ hj => h j hj]
  simp [view, h 0 (Nat.zero_le d)]

/-- Two stacks that agree on a key above a layer, and look the same from that layer, look the same. -/
theorem view_congr_above (hid : i ≤ d) (hv : view base L i k = view base L' i k)
    (h : ∀ j, i < j → j ≤ d → L j k = L' j k) : view base L d k = view base L' d k := by
  induction d with
  | zero =>
    obtain rfl := Nat.le_zero.mp hid
    exact hv
  | succ d ih =>
    rcases Nat.lt_or_eq_of_le hid with hlt | rfl
    · have hih := ih (Nat.le_of_lt_succ hlt) fun j hij hj => h j hij (Nat.le_succ_of_le hj)
      simp [view, h (d + 1) hlt (Nat.le_refl _), hih]
    · exact hv

/-! ### Changing a layer -/

def record [DecidableEq K] (L : ℕ → Overlay K V) (d : ℕ) (k : K) (r : Option V) : ℕ → Overlay K V :=
  update L d ((L d).put k r)

def hold [DecidableEq K] (L : ℕ → Overlay K V) (d : ℕ) (k : K) : Option V → ℕ → Overlay K V
  | some v => record L d k (some v)
  | none => L

@[simp] theorem hold_some [DecidableEq K] (L : ℕ → Overlay K V) (d : ℕ) (k : K) (v : V) :
    hold L d k (some v) = record L d k (some v) := rfl

@[simp] theorem hold_none [DecidableEq K] (L : ℕ → Overlay K V) (d : ℕ) (k : K) : hold L d k none = L := rfl

def fold (L : ℕ → Overlay K V) (d : ℕ) : ℕ → Overlay K V :=
  update (update L d ((L (d + 1)).merge (L d))) (d + 1) empty

def wipe (L : ℕ → Overlay K V) (d : ℕ) : ℕ → Overlay K V :=
  update L d empty

variable {k' : K} {j : ℕ}

section Record
variable [DecidableEq K]

@[simp] theorem record_self (L : ℕ → Overlay K V) (d : ℕ) (k : K) (r : Option V) : record L d k r d k = some r := by
  simp [record]

theorem record_of_ne_layer (h : j ≠ d) : record L d k r j = L j := by
  rw [record, update_of_ne h]

theorem record_of_ne_key (h : k' ≠ k) (j : ℕ) : record L d k r j k' = L j k' := by
  by_cases hj : j = d
  · subst hj
    simp [record, put_of_ne _ h]
  · rw [record_of_ne_layer hj]

theorem hold_of_ne_layer {o : Option V} (h : j ≠ d) : hold L d k o j = L j := by
  cases o with
  | none => rfl
  | some v => exact record_of_ne_layer h

theorem hold_of_ne {o : Option V} (h : k' ≠ k) (j : ℕ) : hold L d k o j k' = L j k' := by
  cases o with
  | none => rfl
  | some v => exact record_of_ne_key h j

@[simp] theorem record_record (L : ℕ → Overlay K V) (d : ℕ) (k : K) (r r' : Option V) :
    record (record L d k r) d k r' = record L d k r' := by
  simp [record, put]

theorem view_record_of_ne (h : k' ≠ k) : view base (record L d k r) i k' = view base L i k' :=
  view_congr fun j _ => record_of_ne_key h j

theorem view_record_below (h : i < d) : view base (record L d k r) i k' = view base L i k' :=
  view_congr fun j hj => by rw [record_of_ne_layer (by omega)]

theorem view_record_above (hdi : d ≤ i) (h : ∀ j, d < j → j ≤ i → L j k = none) :
    view base (record L d k r) i k = r := by
  rw [view_of_unheld hdi fun j hj hji => by rw [record_of_ne_layer (by omega), h j hj hji]]
  exact view_of_held (record_self L d k r)

theorem view_record_copy (h : view base L d k = r) : view base (record L d k r) i k' = view base L i k' := by
  by_cases hk : k' = k
  · subst hk
    rcases Nat.lt_or_ge i d with hlt | hge
    · exact view_record_below hlt
    · refine view_congr_above hge ?_ fun j hj _ => by rw [record_of_ne_layer (by omega)]
      rw [h, view_of_held (record_self L d k' r)]
  · exact view_record_of_ne hk

end Record

theorem fold_low (L : ℕ → Overlay K V) (d : ℕ) : fold L d d = (L (d + 1)).merge (L d) := by
  rw [fold, update_of_ne (by omega), update_self]

theorem fold_high (L : ℕ → Overlay K V) (d : ℕ) : fold L d (d + 1) = empty := update_self ..

theorem fold_of_ne (h : j ≠ d) (h' : j ≠ d + 1) : fold L d j = L j := by
  rw [fold, update_of_ne h', update_of_ne h]

theorem view_fold_below (h : i < d) : view base (fold L d) i k = view base L i k :=
  view_congr fun j hj => by rw [fold_of_ne (by omega) (by omega)]

theorem view_fold_low : view base (fold L d) d k = view base L (d + 1) k := by
  cases hk : L (d + 1) k with
  | some r =>
    rw [view_of_held hk]
    exact view_of_held (by rw [fold_low, merge, hk, Option.some_or])
  | none =>
    rw [view_succ_of_unheld hk]
    cases hd : L d k with
    | some r =>
      rw [view_of_held hd]
      exact view_of_held (by rw [fold_low, merge, hk, hd, Option.none_or])
    | none =>
      have hlow : fold L d d k = none := by rw [fold_low, merge, hk, hd, Option.none_or]
      cases d with
      | zero => simp [view, hlow, hd]
      | succ d =>
        rw [view_succ_of_unheld hlow, view_succ_of_unheld hd]
        exact view_fold_below (Nat.lt_succ_self d)

theorem view_fold_above (h : d < i) : view base (fold L d) i k = view base L i k := by
  refine view_congr_above (i := d + 1) h ?_ fun j hj _ => by rw [fold_of_ne (by omega) (by omega)]
  rw [view_succ_of_unheld (by rw [fold_high]; rfl), view_fold_low]

theorem wipe_self (L : ℕ → Overlay K V) (d : ℕ) : wipe L d d = empty := update_self ..

theorem wipe_of_ne (h : j ≠ d) : wipe L d j = L j := update_of_ne h ..

theorem wipe_eq_self (h : L d = empty) : wipe L d = L := by
  rw [wipe, ← h, update_eq_self]

theorem view_wipe_below (h : i < d) : view base (wipe L d) i k = view base L i k :=
  view_congr fun j hj => by rw [wipe_of_ne (by omega)]

theorem view_wipe_of_unheld (h : L d k = none) : view base (wipe L d) i k = view base L i k :=
  view_congr fun j _ => by
    by_cases hj : j = d
    · subst hj
      rw [wipe_self, h]
      rfl
    · rw [wipe_of_ne hj]

/-! ### Stacks that look the same

Two stacks may differ in which entries the lowest layers merely copy from below them. -/

structure Alike (base : K → Option V) (L L' : ℕ → Overlay K V) : Prop where
  above : ∀ j, L' (j + 1) = L (j + 1)
  seen : ∀ k, view base L' 0 k = view base L 0 k

/-- The stacks agree above layer 1, and look the same from layers 0 and 1. On the keys of `H` they agree in layer 1
too. -/
structure Level (base : K → Option V) (H : Set K) (L L' : ℕ → Overlay K V) : Prop where
  above : ∀ j, L' (j + 2) = L (j + 2)
  low : ∀ k, view base L' 0 k = view base L 0 k
  seen : ∀ k, view base L' 1 k = view base L 1 k
  held : ∀ k ∈ H, L' 1 k = L 1 k

namespace Alike

variable (h : Alike base L L')
include h

theorem level (H : Set K) : Level base H L L' where
  above j := h.above (j + 1)
  low := h.seen
  seen k := by simp [view, h.above 0, show (L' 0 k).getD (base k) = (L 0 k).getD (base k) from h.seen k]
  held k _ := by rw [h.above]

theorem update (d : ℕ) (m : Overlay K V) :
    Alike base (update L (d + 1) m) (update L' (d + 1) m) where
  above j := by
    by_cases hj : j + 1 = d + 1
    · rw [hj, update_self, update_self]
    · rw [update_of_ne hj, update_of_ne hj, h.above]
  seen k := by
    have hne : 0 ≠ d + 1 := by omega
    simpa only [view, update_of_ne hne] using h.seen k

theorem record [DecidableEq K] (d : ℕ) (k : K) (r : Option V) :
    Alike base (record L (d + 1) k r) (record L' (d + 1) k r) := by
  unfold Overlay.record
  rw [h.above]
  exact h.update d _

theorem hold [DecidableEq K] (d : ℕ) (k : K) (o : Option V) :
    Alike base (hold L (d + 1) k o) (hold L' (d + 1) k o) := by
  cases o with
  | none => exact h
  | some v => exact h.record d k _

theorem wipe (d : ℕ) : Alike base (wipe L (d + 1)) (wipe L' (d + 1)) := h.update d _

end Alike

variable {H : Set K}

theorem Level.fold_zero (h : Level base H L L') : Alike base (fold L 0) (fold L' 0) where
  above j := by
    cases j with
    | zero => rw [fold_high, fold_high]
    | succ j => rw [fold_of_ne (by omega) (by omega), fold_of_ne (by omega) (by omega), h.above]
  seen k := by rw [view_fold_low, view_fold_low, h.seen]

theorem Alike.fold (h : Alike base L L') : ∀ d, Alike base (fold L d) (fold L' d)
  | 0 => (h.level ∅).fold_zero
  | d + 1 => by
    unfold Overlay.fold
    rw [h.above, h.above]
    exact (h.update d _).update (d + 1) _

namespace Level

theorem mono {H' : Set K} (h : Level base H L L') (hH : H' ⊆ H) : Level base H' L L' :=
  { h with held := fun k hk => h.held k (hH hk) }

variable [DecidableEq K]

theorem record (h : Level base H L L') (k : K) (r : Option V) :
    Level base (insert k H) (record L 1 k r) (record L' 1 k r) where
  above j := by rw [record_of_ne_layer (by omega), record_of_ne_layer (by omega), h.above]
  low k' := by rw [view_record_below (by omega), view_record_below (by omega), h.low]
  seen k' := by
    by_cases hk : k' = k
    · subst hk
      rw [view_of_held (record_self ..), view_of_held (record_self ..)]
    · rw [view_record_of_ne hk, view_record_of_ne hk, h.seen]
  held k' hk' := by
    by_cases hk : k' = k
    · subst hk
      rw [record_self, record_self]
    · rw [record_of_ne_key hk, record_of_ne_key hk]
      exact h.held k' (hk'.resolve_left hk)

theorem hold (h : Level base H L L') (k : K) (hk : view base L 1 k ≠ none) :
    Level base (insert k H) (hold L 1 k (view base L 1 k)) (hold L' 1 k (view base L' 1 k)) := by
  rw [h.seen]
  obtain ⟨v, hv⟩ := Option.ne_none_iff_exists'.mp hk
  rw [hv]
  exact h.record k _

theorem hold_left (h : Level base ∅ L L') (k : K) : Level base ∅ (Overlay.hold L 1 k (view base L 1 k)) L' := by
  cases hv : view base L 1 k with
  | none => exact h
  | some v =>
    exact {
      above := fun j => by rw [hold_some, record_of_ne_layer (by omega), h.above]
      low := fun k' => by rw [hold_some, view_record_below (by omega), h.low]
      seen := fun k' => by rw [h.seen, hold_some, view_record_copy hv]
      held := fun _ => nofun }

end Level

/-! ### The log of changes -/

/-- For each layer and key, when the last change recorded there was made, and what it left. -/
abbrev Log (K V : Type) := ℕ → K → Option (ℕ × Option V)

def later (a b : Option (ℕ × Option V)) : Option (ℕ × Option V) :=
  match a, b with
  | some x, some y => if y.1 ≤ x.1 then some x else some y
  | some x, none => some x
  | none, b => b

/-- The latest change of a key among the layers up to `d`. -/
def latest (g : Log K V) : ℕ → K → Option (ℕ × Option V)
  | 0, k => g 0 k
  | d + 1, k => later (g (d + 1) k) (latest g d k)

/-- What the latest change left, or the base value of a key that was never changed. -/
def outcome (base : K → Option V) (g : Log K V) (d : ℕ) (k : K) : Option V :=
  match latest g d k with
  | some x => x.2
  | none => base k

@[simp] theorem later_none_left (b : Option (ℕ × Option V)) : later none b = b := rfl

@[simp] theorem later_none_right (a : Option (ℕ × Option V)) : later a none = a := by
  cases a <;> rfl

theorem later_assoc (a b c : Option (ℕ × Option V)) : later (later a b) c = later a (later b c) := by
  rcases a with _ | x <;> rcases b with _ | y <;> rcases c with _ | z <;> try rfl
  · simp
  · simp only [later]
    by_cases hyx : y.1 ≤ x.1 <;> by_cases hzy : z.1 ≤ y.1 <;> by_cases hzx : z.1 ≤ x.1 <;>
      simp only [hyx, hzy, hzx, if_true, if_false] <;> omega

theorem later_of_before {x : ℕ × Option V} {b : Option (ℕ × Option V)} (h : ∀ y, b = some y → y.1 ≤ x.1) :
    later (some x) b = some x := by
  cases b with
  | none => rfl
  | some y => simp [later, h y rfl]

variable {g g' : Log K V} {now : ℕ}

theorem latest_congr : ∀ {d : ℕ}, (∀ i ≤ d, g i k = g' i k) → latest g d k = latest g' d k
  | 0, h => h 0 (Nat.le_refl 0)
  | d + 1, h => by
    have ih : latest g d k = latest g' d k := latest_congr fun i hi => h i (Nat.le_succ_of_le hi)
    rw [latest, latest, h (d + 1) (Nat.le_refl _), ih]

theorem latest_of_unlogged (hid : i ≤ d) (h : ∀ j, i < j → j ≤ d → g j k = none) : latest g d k = latest g i k := by
  induction d with
  | zero => rw [Nat.le_zero.mp hid]
  | succ d ih =>
    rcases Nat.lt_or_eq_of_le hid with hlt | rfl
    · rw [latest, h (d + 1) hlt (Nat.le_refl _), later_none_left]
      exact ih (Nat.le_of_lt_succ hlt) fun j hij hj => h j hij (Nat.le_succ_of_le hj)
    · rfl

theorem latest_mem : ∀ {d : ℕ} {x : ℕ × Option V}, latest g d k = some x → ∃ i ≤ d, g i k = some x
  | 0, x, h => ⟨0, Nat.le_refl 0, h⟩
  | d + 1, x, h => by
    rw [latest] at h
    cases hg : g (d + 1) k with
    | none =>
      rw [hg, later_none_left] at h
      obtain ⟨i, hi, hx⟩ := latest_mem h
      exact ⟨i, Nat.le_succ_of_le hi, hx⟩
    | some y =>
      cases hl : latest g d k with
      | none =>
        rw [hg, hl, later_none_right] at h
        exact ⟨d + 1, Nat.le_refl _, hg.trans h⟩
      | some z =>
        rw [hg, hl, later] at h
        split at h
        · exact ⟨d + 1, Nat.le_refl _, hg.trans h⟩
        · obtain ⟨i, hi, hx⟩ := latest_mem (hl.trans h)
          exact ⟨i, Nat.le_succ_of_le hi, hx⟩

/-! ### A stack that tracks its log -/

/-- The stack shows the outcome of the latest change from every layer, and holds every key it was changed at. -/
structure Tracks (base : K → Option V) (L : ℕ → Overlay K V) (g : Log K V) (now : ℕ) : Prop where
  seen : ∀ d k, view base L d k = outcome base g d k
  held : ∀ d k, g d k ≠ none → L d k ≠ none
  past : ∀ d k x, g d k = some x → x.1 < now

theorem Tracks.unlogged (h : Tracks base L g now) (hk : L d k = none) : g d k = none := by
  by_contra hg
  exact h.held d k hg hk

theorem Tracks.init : Tracks base (fun _ => empty) (fun _ _ => none) now where
  seen d k := by
    have hl : latest (fun _ _ => none : Log K V) d k = none := by
      rw [latest_of_unlogged (Nat.zero_le d) fun _ _ _ => rfl]
      rfl
    rw [view_eq_base fun _ _ => rfl, outcome, hl]
  held _ _ h := absurd rfl h
  past _ _ _ h := nomatch h

theorem Tracks.copy [DecidableEq K] (h : Tracks base L g now) (hr : view base L d k = r) :
    Tracks base (record L d k r) g now where
  seen i k' := by rw [view_record_copy hr, h.seen]
  held i k' hg := by
    by_cases hk : k' = k
    · subst hk
      by_cases hi : i = d
      · subst hi
        simp
      · rw [record_of_ne_layer hi]
        exact h.held i k' hg
    · rw [record_of_ne_key hk]
      exact h.held i k' hg
  past := h.past

theorem Tracks.hold [DecidableEq K] (h : Tracks base L g now) : Tracks base (hold L d k (view base L d k)) g now := by
  cases hv : view base L d k with
  | none => exact h
  | some v => exact h.copy hv

/-- The log after a change of key `k` in layer `d`. -/
def change [DecidableEq K] (g : Log K V) (d : ℕ) (k : K) (x : ℕ × Option V) : Log K V :=
  fun i k' => if i = d ∧ k' = k then some x else g i k'

theorem change_of_ne [DecidableEq K] {x : ℕ × Option V} (h : i ≠ d ∨ k' ≠ k) : change g d k x i k' = g i k' :=
  if_neg fun ⟨hi, hk⟩ => h.elim (· hi) (· hk)

theorem Tracks.change [DecidableEq K] (h : Tracks base L g now) (hn : ∀ i, d < i → L i k = none) :
    Tracks base (record L d k r) (Overlay.change g d k (now, r)) (now + 1) where
  seen i k' := by
    by_cases hk : k' = k
    · subst hk
      rcases Nat.lt_or_ge i d with hlt | hge
      · rw [view_record_below hlt, h.seen, outcome, outcome,
          latest_congr fun j hj => (change_of_ne (x := (now, r)) (Or.inl (by omega : j ≠ d))).symm]
      · rw [view_record_above hge fun j hj _ => hn j hj, outcome, latest_of_unlogged hge fun j hj _ => by
            rw [change_of_ne (Or.inl (by omega)), h.unlogged (hn j hj)]]
        have hnew : latest (Overlay.change g d k' (now, r)) d k' = some (now, r) := by
          cases d with
          | zero => simp [latest, Overlay.change]
          | succ d =>
            have hlow : latest (Overlay.change g (d + 1) k' (now, r)) d k' = latest g d k' :=
              latest_congr fun j hj => change_of_ne (Or.inl (by omega))
            rw [latest, hlow, Overlay.change, if_pos ⟨rfl, rfl⟩]
            refine later_of_before fun y hy => ?_
            obtain ⟨j, -, hj⟩ := latest_mem hy
            exact Nat.le_of_lt (h.past j k' y hj)
        rw [hnew]
    · rw [view_record_of_ne hk, h.seen, outcome, outcome,
        latest_congr fun j _ => (change_of_ne (x := (now, r)) (Or.inr hk)).symm]
  held i k' hg := by
    by_cases hik : i = d ∧ k' = k
    · obtain ⟨rfl, rfl⟩ := hik
      simp
    · rw [Overlay.change, if_neg hik] at hg
      by_cases hi : i = d
      · have hk : k' ≠ k := fun hk => hik ⟨hi, hk⟩
        rw [record_of_ne_key hk]
        exact h.held i k' hg
      · rw [record_of_ne_layer hi]
        exact h.held i k' hg
  past i k' x hx := by
    rw [Overlay.change] at hx
    split at hx
    · cases hx
      exact Nat.lt_succ_self now
    · exact Nat.lt_succ_of_lt (h.past i k' x hx)

/-- The log after layer `d + 1` is folded into layer `d`: its changes keep their times. -/
def foldLog (g : Log K V) (d : ℕ) : Log K V :=
  fun i k => if i = d then later (g (d + 1) k) (g d k) else if i = d + 1 then none else g i k

theorem foldLog_of_ne (h : i ≠ d) (h' : i ≠ d + 1) : foldLog g d i k = g i k := by
  simp [foldLog, h, h']

theorem latest_foldLog_below (h : i < d) : latest (foldLog g d) i k = latest g i k :=
  latest_congr fun j hj => foldLog_of_ne (by omega) (by omega)

theorem latest_foldLog_low : latest (foldLog g d) d k = latest g (d + 1) k := by
  cases d with
  | zero => simp [latest, foldLog]
  | succ d =>
    rw [latest, latest_foldLog_below (Nat.lt_succ_self d), latest, latest, ← later_assoc]
    simp [foldLog]

theorem latest_foldLog_above (h : d < i) : latest (foldLog g d) i k = latest g i k := by
  induction i with
  | zero => omega
  | succ i ih =>
    rcases Nat.lt_or_eq_of_le (Nat.le_of_lt_succ h) with hlt | rfl
    · rw [latest, latest, ih hlt, foldLog_of_ne (by omega) (by omega)]
    · rw [latest, latest_foldLog_low]
      simp [foldLog]

theorem Tracks.fold (h : Tracks base L g now) : Tracks base (fold L d) (foldLog g d) now where
  seen i k := by
    rcases Nat.lt_trichotomy i d with hlt | rfl | hgt
    · rw [view_fold_below hlt, h.seen, outcome, outcome, latest_foldLog_below hlt]
    · rw [view_fold_low, h.seen, outcome, outcome, latest_foldLog_low]
    · rw [view_fold_above hgt, h.seen, outcome, outcome, latest_foldLog_above hgt]
  held i k hg := by
    by_cases hi : i = d
    · subst hi
      rw [fold_low, merge]
      rw [foldLog, if_pos rfl] at hg
      cases hh : L (i + 1) k with
      | some r => simp
      | none =>
        rw [h.unlogged hh, later_none_left] at hg
        simpa using h.held i k hg
    · by_cases hi' : i = d + 1
      · simp [foldLog, hi'] at hg
      · rw [foldLog_of_ne hi hi'] at hg
        rw [fold_of_ne hi hi']
        exact h.held i k hg
  past i k x hx := by
    rw [foldLog] at hx
    split at hx
    · cases hh : g (d + 1) k with
      | none =>
        rw [hh, later_none_left] at hx
        exact h.past d k x hx
      | some y =>
        cases hd : g d k with
        | none =>
          rw [hh, hd, later_none_right] at hx
          exact h.past (d + 1) k x (hh.trans hx)
        | some z =>
          rw [hh, hd, later] at hx
          split at hx
          · exact h.past (d + 1) k x (hh.trans hx)
          · exact h.past d k x (hd.trans hx)
    · split at hx
      · exact absurd hx (by simp)
      · exact h.past i k x hx

def wipeLog (g : Log K V) (d : ℕ) : Log K V :=
  fun i k => if i = d then none else g i k

theorem Tracks.wipe (h : Tracks base L g now) (hn : ∀ k, L d k ≠ none → ∀ i, d < i → L i k = none) :
    Tracks base (wipe L d) (wipeLog g d) now where
  seen i k := by
    have hbelow : ∀ j, j < d → latest (wipeLog g d) j k = latest g j k := fun j hj =>
      latest_congr fun m hm => by simp [wipeLog, show m ≠ d by omega]
    by_cases hk : L d k = none
    · have hlog : ∀ j, wipeLog g d j k = g j k := fun j => by
        by_cases hj : j = d
        · subst hj
          simp [wipeLog, h.unlogged hk]
        · simp [wipeLog, hj]
      rw [view_wipe_of_unheld hk, h.seen, outcome, outcome, latest_congr fun j _ => hlog j]
    · rcases Nat.lt_or_ge i d with hlt | hge
      · rw [view_wipe_below hlt, h.seen, outcome, outcome, hbelow i hlt]
      · -- nearer layers say nothing, so both sides are what the layers below `d` show
        have hup : ∀ j, d ≤ j → OpenSesame.Overlay.wipe L d j k = none := fun j hj => by
          by_cases hjd : j = d
          · subst hjd
            rw [wipe_self]
            rfl
          · rw [wipe_of_ne hjd, hn k hk j (by omega)]
        have hupLog : ∀ j, d ≤ j → wipeLog g d j k = none := fun j hj => by
          by_cases hjd : j = d
          · simp [wipeLog, hjd]
          · simp [wipeLog, hjd, h.unlogged (hn k hk j (by omega))]
        cases d with
        | zero =>
          rw [view_eq_base fun j _ => hup j (Nat.zero_le j), outcome,
            latest_of_unlogged (Nat.zero_le i) fun j _ _ => hupLog j (Nat.zero_le j), latest,
            hupLog 0 (Nat.le_refl 0)]
        | succ d =>
          rw [view_of_unheld (i := d) (by omega) fun j hj _ => hup j hj, view_wipe_below (Nat.lt_succ_self d),
            h.seen, outcome, outcome, latest_of_unlogged (i := d) (by omega) fun j hj _ => hupLog j hj,
            hbelow d (Nat.lt_succ_self d)]
  held i k hg := by
    by_cases hi : i = d
    · simp [wipeLog, hi] at hg
    · rw [wipe_of_ne hi]
      rw [wipeLog, if_neg hi] at hg
      exact h.held i k hg
  past i k x hx := by
    rw [wipeLog] at hx
    split at hx
    · exact absurd hx (by simp)
    · exact h.past i k x hx

end Overlay
end OpenSesame
