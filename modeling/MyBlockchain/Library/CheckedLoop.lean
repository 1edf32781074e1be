import Mathlib.Data.List.Flatten
import Mathlib.Logic.Basic

namespace CheckedLoop

variable {σ α : Type*}

/-- A loop whose body can fail a check: the state as far as the loop came, and whether it came to its end. -/
def run (body : σ → α → σ × Bool) : σ → List α → σ × Bool
  | state, [] => (state, true)
  | state, item :: rest =>
    match body state item with
    | (state, true) => run body state rest
    | (state, false) => (state, false)

variable {body : σ → α → σ × Bool} {items : List α}

theorem run_invariant (holds : σ → Prop) {state : σ}
    (keeps : ∀ state, ∀ item ∈ items, holds state → holds (body state item).1) (start : holds state) :
    holds (run body state items).1 := by
  induction items generalizing state with
  | nil => exact start
  | cons item rest ih =>
    have first := keeps state item (.head _) start
    unfold run
    split
    · rename_i passed
      rw [passed] at first
      exact ih (fun state item member => keeps state item (.tail _ member)) first
    · rename_i failed
      rwa [failed] at first

theorem run_round (grows : σ → σ → Prop) (refl : ∀ state, grows state state)
    (trans : ∀ {first second third}, grows first second → grows second third → grows first third)
    (step : ∀ state item, grows state (body state item).1) {state : σ} (ended : (run body state items).2 = true)
    {item : α} (member : item ∈ items) :
    ∃ before, grows state before ∧ (body before item).2 = true ∧
      grows (body before item).1 (run body state items).1 := by
  have further : ∀ items state, grows state (run body state items).1 := fun items state =>
    run_invariant (grows state) (fun _ item _ old => trans old (step _ item)) (refl state)
  induction items generalizing state with
  | nil => cases member
  | cons first rest ih =>
    have moved := step state first
    unfold run at ended ⊢
    split at ended
    · rename_i after passed
      rw [passed] at moved
      rcases List.mem_cons.mp member with rfl | member
      · refine ⟨state, refl state, by rw [passed], ?_⟩
        rw [passed]
        exact further rest after
      · obtain ⟨before, reached, succeeded, left⟩ := ih ended member
        exact ⟨before, trans moved reached, succeeded, left⟩
    · cases ended

theorem run_appends {β : Type*} (content : σ → List β) (added : α → List β)
    (appends : ∀ state item, (body state item).2 = true →
      content (body state item).1 = content state ++ added item) {state : σ}
    (ended : (run body state items).2 = true) :
    content (run body state items).1 = content state ++ items.flatMap added := by
  induction items generalizing state with
  | nil => exact (List.append_nil _).symm
  | cons item rest ih =>
    have first := appends state item
    unfold run at ended ⊢
    split at ended
    · rename_i after passed
      rw [passed] at first
      rw [ih ended, first rfl, List.append_assoc, List.flatMap_cons]
    · cases ended

/-- One round fails if and only if the other does, and they keep a relation unless they fail. -/
def Together {τ : Type*} (related : σ → τ → Prop) (result : σ × Bool) (other : τ × Bool) : Prop :=
  result.2 = other.2 ∧ (result.2 = true → related result.1 other.1)

theorem run_together {τ : Type*} {other : τ → α → τ × Bool} (related : σ → τ → Prop)
    (step : ∀ first second item, related first second → Together related (body first item) (other second item))
    {first : σ} {second : τ} (start : related first second) :
    Together related (run body first items) (run other second items) := by
  induction items generalizing first second with
  | nil => exact ⟨rfl, fun _ => start⟩
  | cons item rest ih =>
    obtain ⟨same, after⟩ := step first second item start
    unfold run
    cases round : body first item with
    | mk next passed =>
      cases otherRound : other second item with
      | mk otherNext otherPassed =>
        rw [round, otherRound] at same after
        dsimp only at same after
        subst same
        cases passed with
        | true => exact ih (after rfl)
        | false => exact ⟨rfl, fun ended => by cases ended⟩

end CheckedLoop
