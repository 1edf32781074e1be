import Mathlib.Logic.Function.Basic
import Mathlib.Data.List.Induction

namespace Overwrite

variable {K V : Type*} [DecidableEq K]

/-- A write that keeps a field of what is stored there changes that field nowhere. -/
theorem view_update {W : Type*} (view : V → W) {map : K → V} {key : K} {value : V} (kept : view value = view (map key))
    (other : K) : view (Function.update map key value other) = view (map other) := by
  rw [Function.apply_update fun _ => view, kept]
  exact congrFun (Function.update_eq_self key fun other => view (map other)) other

/-- A total map after a list of writes, later writes winning. -/
def overwrite (base : K → V) (writes : List (K × V)) : K → V :=
  writes.foldl (fun map write => Function.update map write.1 write.2) base

@[simp] theorem overwrite_nil (base : K → V) : overwrite base [] = base := rfl

@[simp] theorem overwrite_cons (base : K → V) (write : K × V) (writes : List (K × V)) :
    overwrite base (write :: writes) = overwrite (Function.update base write.1 write.2) writes := rfl

@[simp] theorem overwrite_append (base : K → V) (first second : List (K × V)) :
    overwrite base (first ++ second) = overwrite (overwrite base first) second :=
  List.foldl_append

theorem overwrite_of_forall_ne (base : K → V) (writes : List (K × V)) (key : K)
    (other : ∀ write ∈ writes, write.1 ≠ key) : overwrite base writes key = base key := by
  induction writes generalizing base with
  | nil => rfl
  | cons write writes ih =>
    rw [overwrite_cons, ih _ fun w member => other w (List.mem_cons_of_mem _ member)]
    exact Function.update_of_ne (Ne.symm (other write (by simp))) _ _

def lastWrite (writes : List (K × V)) (key : K) : Option V :=
  (writes.reverse.find? fun write => write.1 = key).map Prod.snd

theorem lastWrite_append_singleton (writes : List (K × V)) (write : K × V) (key : K) :
    lastWrite (writes ++ [write]) key = if write.1 = key then some write.2 else lastWrite writes key := by
  by_cases same : write.1 = key <;> simp [lastWrite, same]

theorem overwrite_apply (base : K → V) (writes : List (K × V)) (key : K) :
    overwrite base writes key = (lastWrite writes key).getD (base key) := by
  induction writes using List.reverseRecOn with
  | nil => rfl
  | append_singleton writes write ih =>
    rw [overwrite_append, lastWrite_append_singleton]
    by_cases same : write.1 = key
    · subst same
      simp
    · simp [same, Function.update_of_ne (Ne.symm same), ih]

theorem overwrite_eq_self_iff (base : K → V) (writes : List (K × V)) :
    overwrite base writes = base ↔ ∀ key value, lastWrite writes key = some value → base key = value := by
  constructor
  · intro same key value last
    have here := congrFun same key
    rw [overwrite_apply, last] at here
    exact here.symm
  · intro settled
    funext key
    rw [overwrite_apply]
    cases last : lastWrite writes key with
    | none => rfl
    | some value => exact (settled key value last).symm

end Overwrite
