import Mathlib.Data.List.FinRange
import Mathlib.Algebra.Ring.Nat

namespace CountedLoop

variable {σ : Type*} {width limit : Nat} {body : Fin limit → σ → σ} {i fuel : Nat} {state : σ}

/-- The loop `for (i = 0; i < limit; i++)` from some value of its counter on, which has so many bits. `none` when the
fuel does not last. -/
def run (width : Nat) (body : Fin limit → σ → σ) : Nat → Nat → σ → Option σ
  | 0, _, _ => none
  | fuel + 1, i, state =>
    if inside : i < limit then run width body fuel ((i + 1) % 2 ^ width) (body ⟨i, inside⟩ state)
    else some state

theorem run_wraps (wraps : 2 ^ width ≤ limit) (fuel : Nat) (small : i < 2 ^ width) :
    run width body fuel i state = none := by
  induction fuel generalizing i state with
  | zero => rfl
  | succ fuel ih =>
    rw [run, dif_pos (Nat.lt_of_lt_of_le small wraps)]
    exact ih (Nat.mod_lt _ (Nat.two_pow_pos width))

theorem run_drop (fits : limit < 2 ^ width) (bound : i ≤ limit) (enough : limit < i + fuel) :
    run width body fuel i state = some (((List.finRange limit).drop i).foldl (fun state i => body i state) state) := by
  induction fuel generalizing i state with
  | zero => omega
  | succ fuel ih =>
    rw [run]
    split
    · next inside =>
      have next : (i + 1) % 2 ^ width = i + 1 := Nat.mod_eq_of_lt (by omega)
      have listed : i < (List.finRange limit).length := by
        rw [List.length_finRange]
        exact inside
      rw [next, ih inside (by omega), List.drop_eq_getElem_cons listed, List.foldl_cons, List.getElem_finRange]
      rfl
    · next outside =>
      have done : i = limit := by omega
      rw [done, List.drop_of_length_le (Nat.le_of_eq List.length_finRange)]
      rfl

theorem run_eq (fits : limit < 2 ^ width) (enough : limit < fuel) :
    run width body fuel 0 state = some ((List.finRange limit).foldl (fun state i => body i state) state) := by
  have ran : run width body fuel 0 state = _ := run_drop fits (Nat.zero_le limit) (by omega)
  rw [ran, List.drop_zero]

theorem foldl_update {α : Type*} (change : α → α) (entries : Fin limit → α) :
    (List.finRange limit).foldl (fun entries i => Function.update entries i (change (entries i))) entries =
      fun i => change (entries i) := by
  have pass : ∀ visited : List (Fin limit), visited.Nodup → ∀ entries : Fin limit → α,
      visited.foldl (fun entries i => Function.update entries i (change (entries i))) entries =
        fun i => if i ∈ visited then change (entries i) else entries i := by
    intro visited distinct
    induction visited with
    | nil => exact fun entries => rfl
    | cons first rest ih =>
      obtain ⟨out, distinct⟩ := List.nodup_cons.mp distinct
      intro entries
      rw [List.foldl_cons, ih distinct]
      funext i
      by_cases same : i = first
      · subst same
        simp [out]
      · simp [same]
  rw [pass _ (List.nodup_finRange limit)]
  funext i
  exact if_pos (List.mem_finRange i)

end CountedLoop
