import Mathlib.Data.Nat.Notation
import Mathlib.Order.Basic
import Mathlib.Tactic.Common

/-! # Scripts that are called back while they pay

A script is called with a message and may pay others on the way. Who is paid may be a script as well, which runs
at once and may call the first one again, and so on; the number of entries on the stack of calls bounds this. A script
that is farther off may look the state of the first one up where it does not see what is under way. The code of the
script is a function of what a payment does. -/

namespace OpenSesame

/-- Who gets a payment, and what happens then: nothing, the payment fails, or a script runs. Its steps are calls, each
given with those who are paid in it, and lookups that do not see the present state. -/
inductive Payee (μ : Type) where
  | account
  | refuses
  | script (steps : List (Option (μ × List (Payee μ))))

/-- A script with messages `μ` and states `σ`. -/
structure Script (μ σ : Type) where
  /-- Entries of the stack its code runs under besides the one of the call. -/
  frames : ℕ
  /-- What a lookup that does not see the present state puts in its place. -/
  back : σ → σ
  /-- The code, given what a payment to a payee does, for a message and the payees of its payments in turn. -/
  main : (Payee μ → σ → Option σ) → μ → List (Payee μ) → σ → Option σ

namespace Script
variable {μ σ : Type} (c : Script μ σ) (limit : ℕ)

/-- What a payee does, where its script runs as entry `stack` and `call` is a call that it makes; a script whose
call fails has failed. -/
def respond (call : μ → List (Payee μ) → σ → Option σ) (stack : ℕ) : Payee μ → σ → Option σ
  | .account, s => some s
  | .refuses, _ => none
  | .script steps, s =>
    if limit < stack then none
    else steps.foldlM (fun s e => match e with
      | none => some (c.back s)
      | some (m, ps) => call m ps s) s

/-- A call as entry `stack`, with fuel for the calls inside it. -/
def callWith : ℕ → ℕ → μ → List (Payee μ) → σ → Option σ
  | 0, _, _, _, _ => none
  | fuel + 1, stack, m, ps, s =>
    let own := stack + c.frames
    if limit < own then none
    else c.main (c.respond limit (callWith fuel (own + 2)) (own + 1)) m ps s

def call : ℕ → μ → List (Payee μ) → σ → Option σ := c.callWith limit (limit + 1)

variable {c limit}

variable {stack : ℕ}

variable (c limit) in
/-- A payee whose calls change the state by `R` only, as do those who are paid in them, and whose lookups see it. -/
inductive Tame (R : σ → σ → Prop) : Payee μ → Prop where
  | account : Tame R .account
  | refuses : Tame R .refuses
  | script {steps : List (Option (μ × List (Payee μ)))} (seen : none ∉ steps)
      (inner : ∀ m ps, some (m, ps) ∈ steps → ∀ p ∈ ps, Tame R p)
      (outer : ∀ stack s s', c.respond limit (c.call limit (stack + 1)) stack (.script steps) s = some s' → R s s') :
      Tame R (.script steps)

theorem foldlM_keeps {ε : Type} {I : σ → σ → Prop} (refl : ∀ s, I s s)
    (trans : ∀ s t u, I s t → I t u → I s u) {f : σ → ε → Option σ} :
    ∀ {l : List ε} {s s' : σ}, (∀ e ∈ l, ∀ s s', f s e = some s' → I s s') → l.foldlM f s = some s' → I s s'
  | [], s, s', _, h => by
    rw [← Option.some.inj h]
    exact refl s
  | e :: l, s, s', hf, h => by
    rw [List.foldlM_cons] at h
    obtain ⟨t, ht, h⟩ := Option.bind_eq_some_iff.mp h
    exact trans _ _ _ (hf e (List.mem_cons_self ..) _ _ ht)
      (foldlM_keeps refl trans (fun e he => hf e (List.mem_cons_of_mem _ he)) h)

end Script
end OpenSesame
