import Mathlib.Data.Option.Basic

namespace Inevitable

variable {σ α : Type*} {step : σ → α → Option σ} {goal : σ → Prop} {state : σ}

/-- However the choices fall, the steps lead to the goal: none of them gets stuck before it, and they do not go on
without end. -/
inductive Reaches (step : σ → α → Option σ) (goal : σ → Prop) : σ → Prop
  | here {state : σ} (good : goal state) : Reaches step goal state
  | later {state : σ} (some_step : ∃ choice next, step state choice = some next)
      (all : ∀ choice next, step state choice = some next → Reaches step goal next) : Reaches step goal state

/-- States that are no goal and that no step leaves. -/
theorem Reaches.not_of_trap (trap : σ → Prop) (away : ∀ {state}, trap state → ¬ goal state)
    (kept : ∀ {state choice next}, trap state → step state choice = some next → trap next) (trapped : trap state) :
    ¬ Reaches step goal state := by
  intro reaches
  induction reaches with
  | here good => exact away trapped good
  | later some_step _ ih =>
    obtain ⟨choice, next, stepped⟩ := some_step
    exact ih choice next stepped (kept trapped stepped)

/-- A measure that every step makes smaller, in states that all have a step as long as they are no goal. -/
theorem Reaches.of_measure (holds : σ → Prop) (measure : σ → Nat)
    (moves : ∀ {state}, holds state → goal state ∨ ∃ choice next, step state choice = some next)
    (kept : ∀ {state choice next}, holds state → step state choice = some next →
      holds next ∧ measure next < measure state) (start : holds state) : Reaches step goal state := by
  induction bound : measure state using Nat.strongRecOn generalizing state with
  | ind size ih =>
    subst bound
    rcases moves start with good | some_step
    · exact .here good
    · refine .later some_step fun choice next stepped => ?_
      obtain ⟨still, less⟩ := kept start stepped
      exact ih (measure next) less still rfl

end Inevitable
