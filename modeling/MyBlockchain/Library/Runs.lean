import Mathlib.Data.Option.Basic

namespace Runs

variable {σ α : Type*} {step : σ → α → Option σ} {state after : σ} {moves : List α}

theorem invariant (holds : σ → Prop) (keeps : ∀ {state move after}, step state move = some after → holds state →
    holds after) (ran : moves.foldlM step state = some after) (start : holds state) : holds after := by
  induction moves generalizing state with
  | nil =>
    cases ran
    exact start
  | cons move rest ih =>
    obtain ⟨next, stepped, ran⟩ := Option.bind_eq_some_iff.mp ran
    exact ih ran (keeps stepped start)

def Along (step : σ → α → Option σ) (condition : σ → α → Prop) : σ → List α → Prop
  | _, [] => True
  | state, move :: rest =>
    condition state move ∧ ∀ next, step state move = some next → Along step condition next rest

instance decidableAlong {condition : σ → α → Prop} [∀ state move, Decidable (condition state move)] :
    (state : σ) → (moves : List α) → Decidable (Along step condition state moves)
  | _, [] => .isTrue trivial
  | state, move :: rest =>
    match done : step state move with
    | none => decidable_of_iff (condition state move) (by simp [Along, done])
    | some next =>
      have : Decidable (Along step condition next rest) := decidableAlong next rest
      decidable_of_iff (condition state move ∧ Along step condition next rest) (by simp [Along, done])

theorem along_of_forall {condition : σ → α → Prop} (all : ∀ move ∈ moves, ∀ state, condition state move) :
    Along step condition state moves := by
  induction moves generalizing state with
  | nil => trivial
  | cons move rest ih => exact ⟨all move (.head _) state, fun _ _ => ih fun later member => all later (.tail _ member)⟩

theorem invariant_along {condition : σ → α → Prop} (holds : σ → Prop)
    (keeps : ∀ {state move after}, step state move = some after → condition state move → holds state → holds after)
    (ran : moves.foldlM step state = some after) (along : Along step condition state moves) (start : holds state) :
    holds after := by
  induction moves generalizing state with
  | nil =>
    cases ran
    exact start
  | cons move rest ih =>
    obtain ⟨next, stepped, ran⟩ := Option.bind_eq_some_iff.mp ran
    exact ih ran (along.2 next stepped) (keeps stepped along.1 start)

/-- A run is good in every state it reaches if and only if its steps meet the condition, where a step that does not
meet it leads to a state that is not good. -/
theorem good_iff_along {assumed condition : σ → α → Prop} (holds good : σ → Prop)
    (keeps : ∀ {state move after}, step state move = some after → assumed state move → condition state move →
      holds state → holds after)
    (shows : ∀ {state}, holds state → good state)
    (breaks : ∀ {state move after}, step state move = some after → assumed state move → ¬ condition state move →
      holds state → ¬ good after)
    (ran : moves.foldlM step state = some after) (assumes : Along step assumed state moves) (start : holds state) :
    (∀ front reached, front <+: moves → front.foldlM step state = some reached → good reached) ↔
      Along step condition state moves := by
  induction moves generalizing state with
  | nil =>
    refine iff_of_true (fun front reached initial reaches => ?_) trivial
    rw [List.prefix_nil.mp initial] at reaches
    cases reaches
    exact shows start
  | cons move rest ih =>
    obtain ⟨next, stepped, remaining⟩ := Option.bind_eq_some_iff.mp ran
    obtain ⟨assumes, afterwards⟩ := assumes
    have onward := afterwards next stepped
    have first : (move :: []).foldlM step state = some next := by
      rw [List.foldlM_cons, stepped]
      rfl
    have later : ∀ front, (move :: front).foldlM step state = front.foldlM step next := by
      intro front
      rw [List.foldlM_cons, stepped]
      rfl
    constructor
    · intro all
      have met : condition state move := by
        by_contra missed
        exact breaks stepped assumes missed start (all _ next (List.prefix_append [move] rest) first)
      refine ⟨met, fun other same => ?_⟩
      cases stepped.symm.trans same
      refine (ih remaining onward (keeps stepped assumes met start)).mp fun front reached initial reaches => ?_
      exact all _ reached ((List.cons_prefix_cons).mpr ⟨rfl, initial⟩) ((later front).trans reaches)
    · intro along front reached initial reaches
      cases front with
      | nil =>
        cases reaches
        exact shows start
      | cons other front =>
        obtain ⟨rfl, inner⟩ := List.cons_prefix_cons.mp initial
        rw [later] at reaches
        exact (ih remaining onward (keeps stepped assumes along.1 start)).mpr (along.2 next stepped) front reached
          inner reaches

end Runs
