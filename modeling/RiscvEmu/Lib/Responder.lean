import Mathlib.Data.Option.Basic
import Mathlib.Data.List.Basic

/-!
# Responders

A responder answers requests one at a time, and may fail on one and be gone.  All that can be seen
of it are its answers.  Two states that a bisimulation relates answer every sequence of requests
alike.
-/

/-- A machine that answers requests. -/
structure Responder (S A R : Type) where
  answer : A → S → Option (R × S)

namespace Responder

variable {S A R : Type} (M : Responder S A R)

/-- The answers to a sequence of requests, up to the first that fails. -/
def answers : List A → S → List (Option R)
  | [], _ => []
  | a :: as, s =>
      match M.answer a s with
      | none => [none]
      | some (r, s) => some r :: answers as s

/-- The state after a sequence of requests. -/
def after : List A → S → Option S
  | [], s => some s
  | a :: as, s => (M.answer a s).bind fun p => after as p.2

/-- Two states answer every sequence of requests alike. -/
def Indistinguishable (s t : S) : Prop := ∀ as, M.answers as s = M.answers as t

/-- Related states give the same answer and stay related, as far as the first answers at all. -/
def Simulation (rel : S → S → Prop) : Prop :=
  ∀ ⦃s t a r s'⦄, rel s t → M.answer a s = some (r, s') →
    ∃ t', M.answer a t = some (r, t') ∧ rel s' t'

variable {M} {rel : S → S → Prop} {s t : S}

/-- States that a symmetric simulation relates cannot be told apart. -/
theorem Simulation.indistinguishable (h : M.Simulation rel) (hsymm : ∀ s t, rel s t → rel t s)
    (hst : rel s t) : M.Indistinguishable s t := by
  intro as
  induction as generalizing s t with
  | nil => rfl
  | cons a as ih =>
      rw [answers, answers]
      cases hs : M.answer a s with
      | some p =>
          obtain ⟨r, s'⟩ := p
          obtain ⟨t', ht, hst'⟩ := h hst hs
          rw [ht]
          exact congrArg _ (ih hst')
      | none =>
          cases ht : M.answer a t with
          | none => rfl
          | some p =>
              obtain ⟨r, t'⟩ := p
              obtain ⟨s', hs', -⟩ := h (hsymm s t hst) ht
              rw [hs] at hs'
              cases hs'

theorem answers_singleton (M : Responder S A R) (a : A) (s : S) :
    M.answers [a] s = [(M.answer a s).map Prod.fst] := by
  rw [answers]
  cases M.answer a s with
  | none => rfl
  | some p => rfl

/-- States that cannot be told apart answer a single request alike. -/
theorem Indistinguishable.answer (h : M.Indistinguishable s t) (a : A) :
    (M.answer a s).map Prod.fst = (M.answer a t).map Prod.fst := by
  have hone := h [a]
  rw [answers_singleton, answers_singleton] at hone
  exact List.singleton_injective hone

end Responder
