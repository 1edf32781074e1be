import Mathlib.Data.List.Basic

namespace EventLog

variable {ε : Type*}

/-- Where `requires x y z` holds, an `x` in a log that also has a `y`, before or after it, comes after a
`z`. -/
def Barrier (requires : ε → ε → ε → Prop) (log : List ε) : Prop :=
  ∀ before x after, log = before ++ x :: after → ∀ y ∈ log, ∀ z, requires x y z → z ∈ before

variable {requires : ε → ε → ε → Prop} {log : List ε}

theorem barrier_nil : Barrier requires ([] : List ε) := by
  intro before x after split
  simp at split

theorem Barrier.append_singleton (barrier : Barrier requires log) (new : ε)
    (later : ∀ x ∈ log, ∀ z, ¬ requires x new z)
    (now : ∀ y ∈ log ++ [new], ∀ z, requires new y z → z ∈ log) : Barrier requires (log ++ [new]) := by
  intro before x after split y member z required
  rcases List.eq_nil_or_concat after with rfl | ⟨rest, last, rfl⟩
  · obtain ⟨rfl, same⟩ := List.append_inj' split rfl
    obtain rfl := List.singleton_inj.mp same
    exact now y member z required
  · rw [List.concat_eq_append, ← List.cons_append, ← List.append_assoc] at split
    obtain ⟨rfl, -⟩ := List.append_inj' split rfl
    rcases List.mem_append.mp member with old | fresh
    · exact barrier before x rest rfl y old z required
    · rw [List.mem_singleton.mp fresh] at required
      exact absurd required (later x (by simp) z)

end EventLog
