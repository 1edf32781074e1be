import Mathlib.Logic.Function.Basic

namespace Blockchain

/-- A `HashMap`, its buckets taken together: `none` where nothing was inserted. -/
abbrev HashMap (Key Value : Type) := Key → Option Value

namespace HashMap

variable {Key Value : Type} [DecidableEq Key] [Inhabited Value]

/-- `operator[]`, which inserts a default where there is nothing. -/
def lookup (map : HashMap Key Value) (key : Key) : HashMap Key Value × Value :=
  match map key with
  | some value => (map, value)
  | none => (Function.update map key (some default), default)

theorem lookup_value (map : HashMap Key Value) (key : Key) : (map.lookup key).2 = (map key).getD default := by
  unfold lookup
  cases map key <;> rfl

theorem lookup_map (map : HashMap Key Value) (key : Key) :
    (map.lookup key).1 = Function.update map key (some ((map key).getD default)) := by
  unfold lookup
  cases found : map key with
  | none => rfl
  | some value =>
    change map = Function.update map key (some value)
    rw [← found, Function.update_eq_self]

end HashMap

end Blockchain
