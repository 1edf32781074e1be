import Mathlib.Data.List.Flatten
import Mathlib.Data.List.Perm.Basic

namespace Interleaving

variable {α : Type*}

inductive Merge : List (List α) → List α → Prop
  | done {sources : List (List α)} (empty : ∀ source ∈ sources, source = []) : Merge sources []
  | take {before after : List (List α)} {rest trace : List α} (head : α)
      (tail : Merge (before ++ rest :: after) trace) :
      Merge (before ++ (head :: rest) :: after) (head :: trace)

theorem Merge.perm {sources : List (List α)} {trace : List α} (merge : Merge sources trace) :
    trace.Perm sources.flatten := by
  induction merge with
  | done empty => rw [List.flatten_eq_nil_iff.mpr empty]
  | take head _ ih =>
    simp only [List.flatten_append, List.flatten_cons, List.cons_append] at ih ⊢
    exact (ih.cons head).trans List.perm_middle.symm

theorem Merge.skip {source : List α} {sources : List (List α)} {trace : List α}
    (merge : Merge sources trace) (empty : source = []) : Merge (source :: sources) trace := by
  induction merge with
  | done all =>
    refine .done fun other member => ?_
    rcases List.mem_cons.mp member with rfl | member
    · exact empty
    · exact all other member
  | @take before after rest trace head _ ih =>
    exact @Merge.take _ (source :: before) _ _ _ head ih

theorem Merge.sequential (sources : List (List α)) : Merge sources sources.flatten := by
  induction sources with
  | nil => exact .done (by simp)
  | cons source sources ih =>
    rw [List.flatten_cons]
    induction source with
    | nil => exact ih.skip rfl
    | cons head rest step => exact @Merge.take _ [] _ _ _ head step

end Interleaving
