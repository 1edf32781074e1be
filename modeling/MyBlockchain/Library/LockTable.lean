import Mathlib.Logic.Function.Basic

namespace LockTable

variable {Thread I : Type*} {locks : I → Bool} {holds : Thread → Option I} {thread : Thread} {i : I}

structure Exclusive (locks : I → Bool) (holds : Thread → Option I) : Prop where
  held : ∀ {thread i}, holds thread = some i → locks i = true
  owner : ∀ {i}, locks i = true → ∃ thread, holds thread = some i
  alone : ∀ {one other i}, holds one = some i → holds other = some i → one = other

theorem Exclusive.free : Exclusive (fun _ : I => false) (fun _ : Thread => none) where
  held holder := by cases holder
  owner set := by cases set
  alone holder := by cases holder

variable [DecidableEq Thread]

theorem Exclusive.keep (exclusive : Exclusive locks holds) {held : Option I} (same : held = holds thread) :
    Exclusive locks (Function.update holds thread held) := by
  rw [same, Function.update_eq_self]
  exact exclusive

variable [DecidableEq I]

theorem Exclusive.acquire (exclusive : Exclusive locks holds) (unset : locks i = false) (none : holds thread = none) :
    Exclusive (Function.update locks i true) (Function.update holds thread (some i)) := by
  have unheld : ∀ other, holds other ≠ some i := by
    intro other holder
    rw [exclusive.held holder] at unset
    cases unset
  refine ⟨fun {other j} holder => ?_, fun {j} set => ?_, fun {one other j} first second => ?_⟩
  · by_cases same : j = i
    · rw [same, Function.update_self]
    · rw [Function.update_of_ne same]
      by_cases mine : other = thread
      · rw [mine, Function.update_self] at holder
        exact absurd (Option.some.inj holder).symm same
      · rw [Function.update_of_ne mine] at holder
        exact exclusive.held holder
  · by_cases same : j = i
    · exact ⟨thread, by rw [Function.update_self, same]⟩
    · rw [Function.update_of_ne same] at set
      obtain ⟨other, holder⟩ := exclusive.owner set
      refine ⟨other, ?_⟩
      rw [Function.update_of_ne, holder]
      rintro rfl
      rw [none] at holder
      cases holder
  · by_cases mine : one = thread
    · by_cases mine' : other = thread
      · rw [mine, mine']
      · rw [mine, Function.update_self] at first
        rw [Function.update_of_ne mine', ← Option.some.inj first] at second
        exact absurd second (unheld other)
    · rw [Function.update_of_ne mine] at first
      by_cases mine' : other = thread
      · rw [mine', Function.update_self] at second
        rw [← Option.some.inj second] at first
        exact absurd first (unheld one)
      · rw [Function.update_of_ne mine'] at second
        exact exclusive.alone first second

theorem Exclusive.release (exclusive : Exclusive locks holds) (mine : holds thread = some i) :
    Exclusive (Function.update locks i false) (Function.update holds thread none) := by
  refine ⟨fun {other j} holder => ?_, fun {j} set => ?_, fun {one other j} first second => ?_⟩
  · by_cases own : other = thread
    · rw [own, Function.update_self] at holder
      cases holder
    · rw [Function.update_of_ne own] at holder
      rw [Function.update_of_ne]
      · exact exclusive.held holder
      · rintro rfl
        exact own (exclusive.alone holder mine)
  · by_cases same : j = i
    · rw [same, Function.update_self] at set
      cases set
    · rw [Function.update_of_ne same] at set
      obtain ⟨other, holder⟩ := exclusive.owner set
      refine ⟨other, ?_⟩
      rw [Function.update_of_ne, holder]
      rintro rfl
      rw [mine] at holder
      exact same (Option.some.inj holder).symm
  · by_cases own : one = thread
    · rw [own, Function.update_self] at first
      cases first
    · by_cases own' : other = thread
      · rw [own', Function.update_self] at second
        cases second
      · rw [Function.update_of_ne own] at first
        rw [Function.update_of_ne own'] at second
        exact exclusive.alone first second

end LockTable
