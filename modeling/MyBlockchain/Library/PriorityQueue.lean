import Mathlib.Data.List.Perm.Basic
import Mathlib.Data.List.Sort

namespace PriorityQueue

variable {α κ : Type*} [LinearOrder κ] (key : α → κ)

def top : List α → Option α
  | [] => none
  | x :: rest =>
    match top rest with
    | none => some x
    | some y => if key x < key y then some y else some x

def drain [DecidableEq α] : Nat → List α → List α
  | 0, _ => []
  | rounds + 1, queue =>
    match top key queue with
    | none => []
    | some x => x :: drain rounds (queue.erase x)

variable {key}

theorem top_eq_none_iff {queue : List α} : top key queue = none ↔ queue = [] := by
  cases queue with
  | nil => simp [top]
  | cons x rest =>
    rw [top]
    split
    · simp
    · split <;> simp

theorem top_spec {queue : List α} {x : α} (first : top key queue = some x) :
    x ∈ queue ∧ ∀ y ∈ queue, key y ≤ key x := by
  induction queue generalizing x with
  | nil => cases first
  | cons z rest ih =>
    rw [top] at first
    split at first
    · rename_i none
      obtain rfl := Option.some.inj first
      simp [top_eq_none_iff.mp none]
    · rename_i y some
      obtain ⟨member, largest⟩ := ih some
      split at first
      · rename_i less
        obtain rfl := Option.some.inj first
        refine ⟨List.mem_cons_of_mem _ member, fun w listed => ?_⟩
        rcases List.mem_cons.mp listed with rfl | listed
        · exact le_of_lt less
        · exact largest w listed
      · rename_i notLess
        obtain rfl := Option.some.inj first
        refine ⟨List.mem_cons_self, fun w listed => ?_⟩
        rcases List.mem_cons.mp listed with rfl | listed
        · exact le_refl _
        · exact le_trans (largest w listed) (not_lt.mp notLess)

variable [DecidableEq α]

theorem drain_perm {rounds : Nat} {queue : List α} (enough : queue.length ≤ rounds) :
    (drain key rounds queue).Perm queue := by
  induction rounds generalizing queue with
  | zero => simp [List.length_eq_zero_iff.mp (Nat.le_zero.mp enough), drain]
  | succ rounds ih =>
    rw [drain]
    split
    · rename_i none
      rw [top_eq_none_iff.mp none]
    · rename_i x first
      obtain ⟨member, -⟩ := top_spec first
      have shorter : (queue.erase x).length ≤ rounds := by
        rw [List.length_erase_of_mem member]
        omega
      exact ((ih shorter).cons x).trans (List.perm_cons_erase member).symm

theorem mem_of_mem_drain {rounds : Nat} {queue : List α} {x : α} (member : x ∈ drain key rounds queue) :
    x ∈ queue := by
  induction rounds generalizing queue with
  | zero => cases member
  | succ rounds ih =>
    rw [drain] at member
    split at member
    · cases member
    · rename_i first
      rcases List.mem_cons.mp member with rfl | later
      · exact (top_spec first).1
      · exact List.mem_of_mem_erase (ih later)

theorem drain_sorted (rounds : Nat) (queue : List α) :
    (drain key rounds queue).Pairwise fun x y => key y ≤ key x := by
  induction rounds generalizing queue with
  | zero => exact .nil
  | succ rounds ih =>
    rw [drain]
    split
    · exact .nil
    · rename_i x first
      refine List.pairwise_cons.mpr ⟨fun y later => ?_, ih _⟩
      exact (top_spec first).2 y (List.mem_of_mem_erase (mem_of_mem_drain later))

theorem drain_eq_of_perm {first second : List α} (perm : first.Perm second)
    (distinct : ∀ x ∈ first, ∀ y ∈ first, key x = key y → x = y) :
    drain key first.length first = drain key second.length second := by
  refine List.Perm.eq_of_pairwise ?_ (drain_sorted _ _) (drain_sorted _ _)
    (((drain_perm (Nat.le_refl _)).trans perm).trans (drain_perm (Nat.le_refl _)).symm)
  intro x y inFirst inSecond le ge
  exact distinct x (mem_of_mem_drain inFirst) y (perm.mem_iff.mpr (mem_of_mem_drain inSecond))
    (le_antisymm ge le)

end PriorityQueue
