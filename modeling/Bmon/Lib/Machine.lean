/-
This file holds machines that take one step after another until they return a result. A step may
be impossible, for instance because it reads what is not there; a machine in such a state is
stuck, and has no result.
-/

import Mathlib.Data.Option.Basic
import Mathlib.Logic.Relation

namespace Machine

variable {State Result : Type*} {step : State → Option (State ⊕ Result)}

/-- One state follows another by a step that does not return. -/
def Follows (step : State → Option (State ⊕ Result)) (st next : State) : Prop :=
  step st = some (.inl next)

/-- The states a machine comes to. -/
def Reaches (step : State → Option (State ⊕ Result)) : State → State → Prop :=
  Relation.ReflTransGen (Follows step)

/-- The result of a machine, if it returns within the given number of steps. -/
def run (step : State → Option (State ⊕ Result)) : Nat → State → Option Result
  | 0, _ => none
  | fuel + 1, st => (step st).bind (Sum.elim (run step fuel) some)

/-! ### Results -/

/-- A description of the result that every step agrees with is right whenever there is a
result. -/
theorem eq_of_run {meaning : State → Option Result}
    (unfolds : ∀ st, meaning st = (step st).bind (Sum.elim meaning some)) {fuel : Nat}
    {st : State} {result : Result} (ran : run step fuel st = some result) :
    meaning st = some result := by
  induction fuel generalizing st with
  | zero => cases ran
  | succ fuel inductionHypothesis =>
    obtain ⟨after, stepped, returned⟩ := Option.bind_eq_some_iff.mp ran
    rw [unfolds, stepped, Option.bind_some]
    cases after with
    | inl next => exact inductionHypothesis returned
    | inr result => exact returned

/-! ### Progress -/

/-- Wherever an invariant holds a step is possible, and if it does not return, it keeps the
invariant and lowers a measure. -/
structure Progresses (step : State → Option (State ⊕ Result)) (invariant : State → Prop)
    (measure : State → Nat) : Prop where
  possible : ∀ st, invariant st → step st ≠ none
  keeps : ∀ st next, invariant st → Follows step st next → invariant next
  lowers : ∀ st next, invariant st → Follows step st next → measure next < measure st

section Progresses

variable {invariant : State → Prop} {measure : State → Nat}
variable (progresses : Progresses step invariant measure)

include progresses

/-- The invariant holds of every state the machine comes to. -/
theorem Progresses.invariant_of_reaches {st last : State} (initial : invariant st)
    (reaches : Reaches step st last) : invariant last := by
  induction reaches with
  | refl => exact initial
  | tail _ follows inductionHypothesis => exact progresses.keeps _ _ inductionHypothesis follows

/-- The machine is stuck in none of the states it comes to. -/
theorem Progresses.not_stuck {st last : State} (initial : invariant st)
    (reaches : Reaches step st last) : step last ≠ none :=
  progresses.possible last (progresses.invariant_of_reaches initial reaches)

/-- The machine returns, after no more steps than the measure allows. -/
theorem Progresses.returns {st : State} (initial : invariant st) :
    ∃ result, ∀ fuel > measure st, run step fuel st = some result := by
  induction size : measure st using Nat.strongRecOn generalizing st with
  | ind bound inductionHypothesis =>
    subst size
    obtain ⟨after, stepped⟩ := Option.ne_none_iff_exists'.mp (progresses.possible st initial)
    cases after with
    | inl next =>
      have kept := progresses.keeps st next initial stepped
      have lower := progresses.lowers st next initial stepped
      obtain ⟨result, returned⟩ := inductionHypothesis (measure next) lower kept rfl
      refine ⟨result, fun fuel enough => ?_⟩
      obtain ⟨fuel, rfl⟩ := Nat.exists_eq_succ_of_ne_zero (Nat.ne_zero_of_lt enough)
      rw [run, stepped]
      exact returned fuel (by omega)
    | inr result =>
      refine ⟨result, fun fuel enough => ?_⟩
      obtain ⟨fuel, rfl⟩ := Nat.exists_eq_succ_of_ne_zero (Nat.ne_zero_of_lt enough)
      rw [run, stepped]
      rfl

end Progresses

end Machine
