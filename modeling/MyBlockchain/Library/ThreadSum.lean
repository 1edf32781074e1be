import Mathlib.Algebra.BigOperators.Group.Finset.Piecewise
import Mathlib.Algebra.Order.BigOperators.Group.Finset
import Mathlib.Algebra.Order.Group.Nat

namespace ThreadSum

variable {Thread Local M : Type*} [Fintype Thread]

def total [AddCommMonoid M] (weight : Local → M) (locals : Thread → Local) : M := ∑ thread, weight (locals thread)

theorem total_const_zero [AddCommMonoid M] {weight : Local → M} {locals : Thread → Local}
    (zero : ∀ thread, weight (locals thread) = 0) : total weight locals = 0 :=
  Finset.sum_eq_zero fun thread _ => zero thread

variable {weight : Local → Nat} {locals : Thread → Local}

variable [DecidableEq Thread]

theorem total_split [AddCommMonoid M] (weight : Local → M) (locals : Thread → Local) (thread : Thread) :
    total weight locals = weight (locals thread) + ∑ other ∈ Finset.univ.erase thread, weight (locals other) :=
  (Finset.add_sum_erase _ _ (Finset.mem_univ thread)).symm

theorem total_update [AddCommMonoid M] (weight : Local → M) (locals : Thread → Local) (thread : Thread)
    (after : Local) :
    total weight (Function.update locals thread after) + weight (locals thread) =
      total weight locals + weight after := by
  have others : ∑ other ∈ Finset.univ.erase thread, weight (Function.update locals thread after other) =
      ∑ other ∈ Finset.univ.erase thread, weight (locals other) := by
    refine Finset.sum_congr rfl fun other member => ?_
    rw [Function.update_of_ne (Finset.ne_of_mem_erase member)]
  rw [total_split weight _ thread, total_split weight locals thread, Function.update_self, others, add_right_comm,
    add_comm (weight after), add_right_comm]

theorem own_le_total (thread : Thread) : weight (locals thread) ≤ total weight locals := by
  rw [total_split weight locals thread]
  exact Nat.le_add_right ..

end ThreadSum
