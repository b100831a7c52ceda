import Mathlib.Logic.Basic

/-! # Computations that respect a relation between states

For computations with a state that may fail to return. A computation respects a relation if, run from related
states, it returns the same value from the second as from the first, in states that are related again. The
statement only speaks of runs that end in an acceptable state (`ok`) and start from a state with a given
property (`P`); what is not acceptable stays so. An invariant of one run is the case of the relation that only
relates equal states. -/

namespace OpenSesame

variable {σ α β : Type}

variable {m : StateT σ Option α} {s t : σ}

namespace StateOption

theorem of_bind {k : α → StateT σ Option β} {b : β} (h : (m >>= k) s = some (b, t)) :
    ∃ a u, m s = some (a, u) ∧ k a u = some (b, t) := by
  obtain ⟨⟨a, u⟩, hs, hu⟩ := Option.bind_eq_some_iff.mp h
  exact ⟨a, u, hs, hu⟩

theorem bind_run {k : α → StateT σ Option β} {a : α} {r : Option (β × σ)} (hs : m s = some (a, t)) (ht : k a t = r) :
    (m >>= k) s = r := by
  change (m s).bind (fun x => k x.1 x.2) = r
  rw [hs]
  exact ht

theorem bind_congr_run {k : α → StateT σ Option β} (h : m s = m t) : (m >>= k) s = (m >>= k) t := by
  change (m s).bind (fun r => k r.1 r.2) = (m t).bind (fun r => k r.1 r.2)
  rw [h]

theorem of_pure {a b : α} (h : (pure a : StateT σ Option α) s = some (b, t)) : a = b ∧ s = t :=
  Prod.mk.inj (Option.some.inj h)

def Walks (R : σ → σ → Prop) (m : StateT σ Option α) : Prop := ∀ ⦃s a t⦄, m s = some (a, t) → R s t

namespace Walks
variable {R : σ → σ → Prop} {m m' : StateT σ Option α} {k : α → StateT σ Option β}

protected theorem pure (refl : ∀ s, R s s) (a : α) : Walks R (pure a) := by
  intro s b t h
  cases h
  exact refl s

protected theorem bind (trans : ∀ s t u, R s t → R t u → R s u) (hm : Walks R m) (hk : ∀ a, Walks R (k a)) :
    Walks R (m >>= k) := by
  intro s b t h
  obtain ⟨a, u, hs, hu⟩ := of_bind h
  exact trans s u t (hm hs) (hk a hu)

protected theorem ite {c : Prop} [Decidable c] (h : Walks R m) (h' : Walks R m') : Walks R (if c then m else m') := by
  by_cases hc : c
  · rw [if_pos hc]
    exact h
  · rw [if_neg hc]
    exact h'

end Walks
end StateOption

open StateOption

def anyState : σ → Prop := fun _ => True

def After (P : σ → Prop) (m : StateT σ Option α) (a : α) (t : σ) : Prop :=
  ∃ s, P s ∧ m s = some (a, t)

structure Respects (R : σ → σ → Prop) (ok P : σ → Prop) (m : StateT σ Option α) : Prop where
  guard : ∀ {s a t}, P s → m s = some (a, t) → ok t → ok s
  step : ∀ {s s' a t}, P s → R s s' → m s = some (a, t) → ok t → ∃ t', m s' = some (a, t') ∧ R t t'

namespace Respects

variable {R : σ → σ → Prop} {ok P Q : σ → Prop} {m m' : StateT σ Option α} {k : α → StateT σ Option β}

theorem weaken (h : Respects R ok Q m) (hPQ : ∀ s, P s → Q s) : Respects R ok P m where
  guard hP := h.guard (hPQ _ hP)
  step hP := h.step (hPQ _ hP)

theorem of_any (h : Respects R ok anyState m) : Respects R ok P m := h.weaken fun _ _ => trivial

protected theorem pure (a : α) : Respects R ok P (pure a) where
  guard := by
    rintro s b t - h hok
    cases h
    exact hok
  step := by
    rintro s s' b t - hR h -
    cases h
    exact ⟨s', rfl, hR⟩

theorem of_none (h : ∀ s, m s = none) : Respects R ok P m where
  guard _ hm := absurd hm (by rw [h]; exact nofun)
  step _ _ hm := absurd hm (by rw [h]; exact nofun)

theorem bind_after (hm : Respects R ok P m) (hk : ∀ a, Respects R ok (After P m a) (k a)) :
    Respects R ok P (m >>= k) where
  guard := by
    intro s b t hP h hok
    obtain ⟨a, u, hs, hu⟩ := of_bind h
    exact hm.guard hP hs ((hk a).guard ⟨s, hP, hs⟩ hu hok)
  step := by
    intro s s' b t hP hR h hok
    obtain ⟨a, u, hs, hu⟩ := of_bind h
    have hafter : After P m a u := ⟨s, hP, hs⟩
    obtain ⟨u', hs', hRu⟩ := hm.step hP hR hs ((hk a).guard hafter hu hok)
    obtain ⟨t', hu', hRt⟩ := (hk a).step hafter hRu hu hok
    exact ⟨t', bind_run hs' hu', hRt⟩

theorem bind (hm : Respects R ok P m) (hk : ∀ a, Respects R ok anyState (k a)) : Respects R ok P (m >>= k) :=
  hm.bind_after fun a => (hk a).of_any

theorem ite {c : Prop} [Decidable c] (h : c → Respects R ok P m) (h' : ¬c → Respects R ok P m') :
    Respects R ok P (if c then m else m') := by
  by_cases hc : c
  · rw [if_pos hc]
    exact h hc
  · rw [if_neg hc]
    exact h' hc

theorem of_option {f : σ → Option α} {g : σ → σ} (hok : ∀ s, P s → ok (g s) → ok s)
    (h : ∀ s s', P s → R s s' → ok (g s) → f s' = f s ∧ R (g s) (g s')) :
    Respects R ok P fun s => (f s).map fun a => (a, g s) where
  guard := by
    intro s a t hP hs
    obtain ⟨_, -, hs⟩ := Option.map_eq_some_iff.mp hs
    cases hs
    exact hok s hP
  step := by
    intro s s' a t hP hR hs ht
    obtain ⟨_, hf, hs⟩ := Option.map_eq_some_iff.mp hs
    cases hs
    obtain ⟨hf', hg⟩ := h s s' hP hR ht
    exact ⟨g s', by rw [hf', hf]; rfl, hg⟩

theorem of_total {f : σ → α} {g : σ → σ} (hok : ∀ s, P s → ok (g s) → ok s)
    (h : ∀ s s', P s → R s s' → ok (g s) → f s' = f s ∧ R (g s) (g s')) : Respects R ok P fun s => some (f s, g s) :=
  of_option (f := fun s => some (f s)) hok fun s s' hP hR ht =>
    ⟨congrArg some (h s s' hP hR ht).1, (h s s' hP hR ht).2⟩

end Respects

def Same (I : σ → Prop) (s s' : σ) : Prop := s' = s ∧ I s

theorem Respects.of_invariant {I ok P : σ → Prop} (hok : ∀ {s a t}, P s → m s = some (a, t) → ok t → ok s)
    (h : ∀ {s a t}, P s → I s → m s = some (a, t) → ok t → I t) : Respects (Same I) ok P m where
  guard := hok
  step := by
    rintro s s' a t hP ⟨rfl, hI⟩ hs ht
    exact ⟨t, hs, rfl, h hP hI hs ht⟩

theorem Respects.invariant {I ok P : σ → Prop} (h : Respects (Same I) ok P m)
    {a : α} (hP : P s) (hI : I s) (hs : m s = some (a, t)) (ht : ok t) : I t := by
  obtain ⟨-, -, -, hI'⟩ := h.step hP ⟨rfl, hI⟩ hs ht
  exact hI'

end OpenSesame
