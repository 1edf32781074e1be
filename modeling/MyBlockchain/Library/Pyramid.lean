import Mathlib.Algebra.Ring.Nat
import Mathlib.Logic.Function.Basic

namespace Pyramid

variable {α β : Type*}

/-- Place `index` of a level, when each level joins the pairs of the one below and a last place without a
partner moves up as it is. -/
def node (join : α → α → α) (leaf : Nat → Option α) : Nat → Nat → Option α
  | 0, index => leaf index
  | level + 1, index =>
    match node join leaf level (2 * index), node join leaf level (2 * index + 1) with
    | some left, some right => some (join left right)
    | some left, none => some left
    | none, _ => none

def joined (join : α → α → α) (leaf : Nat → Option α) : Nat → Nat → Option α
  | 0, index => leaf index
  | level + 1, index =>
    match node join leaf level (2 * index), node join leaf level (2 * index + 1) with
    | some left, some right => some (join left right)
    | _, _ => none

def Dense (leaf : Nat → Option α) : Prop := ∀ i j, i ≤ j → (leaf j).isSome → (leaf i).isSome

variable {join : α → α → α} {leaf : Nat → Option α}

theorem node_pair {level index : Nat} {left right : α} (first : node join leaf level (2 * index) = some left)
    (second : node join leaf level (2 * index + 1) = some right) :
    node join leaf (level + 1) index = some (join left right) := by
  simp only [node, first, second]

theorem joined_pair {level index : Nat} {left right : α} (first : node join leaf level (2 * index) = some left)
    (second : node join leaf level (2 * index + 1) = some right) :
    joined join leaf (level + 1) index = some (join left right) := by
  simp only [joined, first, second]

theorem node_single {level index : Nat} (alone : node join leaf level (2 * index + 1) = none) :
    node join leaf (level + 1) index = node join leaf level (2 * index) := by
  simp only [node, alone]
  cases node join leaf level (2 * index) <;> rfl

theorem joined_single {level index : Nat} (alone : node join leaf level (2 * index + 1) = none) :
    joined join leaf (level + 1) index = none := by
  simp only [joined, alone]
  cases node join leaf level (2 * index) <;> rfl

theorem node_isSome (level index : Nat) :
    (node join leaf level index).isSome = (leaf (2 ^ level * index)).isSome := by
  induction level generalizing index with
  | zero => simp [node]
  | succ level ih =>
    have first := ih (2 * index)
    rw [← Nat.mul_assoc, ← Nat.pow_succ] at first
    rw [← first]
    simp only [node]
    cases node join leaf level (2 * index) with
    | none => rfl
    | some left => cases node join leaf level (2 * index + 1) <;> rfl

theorem node_dense (dense : Dense leaf) {level i j : Nat} (before : i ≤ j)
    (there : (node join leaf level j).isSome) : (node join leaf level i).isSome := by
  rw [node_isSome] at there ⊢
  exact dense _ _ (Nat.mul_le_mul_left _ before) there

theorem joined_eq_node {level index : Nat} (there : (joined join leaf level index).isSome) :
    joined join leaf level index = node join leaf level index := by
  cases level with
  | zero => rfl
  | succ level =>
    simp only [joined, node] at there ⊢
    cases first : node join leaf level (2 * index) with
    | none => simp [first] at there
    | some left =>
      cases second : node join leaf level (2 * index + 1) with
      | none => simp [first, second] at there
      | some right => rfl

theorem joined_isSome (dense : Dense leaf) {level index : Nat} (next : (node join leaf level (index + 1)).isSome) :
    (joined join leaf level index).isSome := by
  cases level with
  | zero => exact dense _ _ (Nat.le_succ index) next
  | succ level =>
    have second : (node join leaf level (2 * index + 1)).isSome := by
      rw [node_isSome] at next ⊢
      refine dense _ _ ?_ next
      rw [Nat.pow_succ, Nat.mul_assoc]
      exact Nat.mul_le_mul_left _ (by omega)
    have first := node_dense dense (Nat.le_succ (2 * index)) second
    obtain ⟨right, second⟩ := Option.isSome_iff_exists.mp second
    obtain ⟨left, first⟩ := Option.isSome_iff_exists.mp first
    rw [joined_pair first second]
    rfl

theorem node_update {last : Nat} (value : Option α) {level index : Nat} (off : last / 2 ^ level ≠ index) :
    node join (Function.update leaf last value) level index = node join leaf level index := by
  induction level generalizing index with
  | zero =>
    rw [Nat.pow_zero, Nat.div_one] at off
    exact Function.update_of_ne (Ne.symm off) _ _
  | succ level ih =>
    rw [Nat.pow_succ, ← Nat.div_div_eq_div_mul] at off
    simp only [node, ih (show last / 2 ^ level ≠ 2 * index by omega),
      ih (show last / 2 ^ level ≠ 2 * index + 1 by omega)]

theorem joined_update {last : Nat} (value : Option α) {level index : Nat} (off : last / 2 ^ level ≠ index) :
    joined join (Function.update leaf last value) level index = joined join leaf level index := by
  cases level with
  | zero =>
    rw [Nat.pow_zero, Nat.div_one] at off
    exact Function.update_of_ne (Ne.symm off) _ _
  | succ level =>
    rw [Nat.pow_succ, ← Nat.div_div_eq_div_mul] at off
    simp only [joined, node_update value (show last / 2 ^ level ≠ 2 * index by omega),
      node_update value (show last / 2 ^ level ≠ 2 * index + 1 by omega)]

theorem node_of_not_joined {level index : Nat} (free : joined join leaf (level + 1) index = none) :
    node join leaf (level + 1) index = node join leaf level (2 * index) := by
  simp only [joined, node] at free ⊢
  cases first : node join leaf level (2 * index) with
  | none => rfl
  | some left =>
    cases second : node join leaf level (2 * index + 1) with
    | none => rfl
    | some right => simp [first, second] at free

theorem joined_isSome_congr {leaf' : Nat → Option α} (same : ∀ i, (leaf i).isSome = (leaf' i).isSome)
    (level index : Nat) : (joined join leaf level index).isSome = (joined join leaf' level index).isSome := by
  cases level with
  | zero => exact same index
  | succ level =>
    have places (i : Nat) : (node join leaf level i).isSome = (node join leaf' level i).isSome := by
      rw [node_isSome, node_isSome, same]
    have first := places (2 * index)
    have second := places (2 * index + 1)
    simp only [joined]
    cases one : node join leaf level (2 * index) <;> cases one' : node join leaf' level (2 * index) <;>
      cases two : node join leaf level (2 * index + 1) <;> cases two' : node join leaf' level (2 * index + 1) <;>
      simp_all

theorem node_congr {leaf' : Nat → Option α} {level index : Nat}
    (same : ∀ i, i < 2 ^ level * (index + 1) → leaf i = leaf' i) :
    node join leaf level index = node join leaf' level index := by
  induction level generalizing index with
  | zero => exact same index (by omega)
  | succ level ih =>
    have limit (j : Nat) (inside : j ≤ 2 * index + 1) (i : Nat) (lower : i < 2 ^ level * (j + 1)) :
        i < 2 ^ (level + 1) * (index + 1) := by
      have wider : 2 ^ level * (j + 1) ≤ 2 ^ level * (2 * (index + 1)) := Nat.mul_le_mul_left _ (by omega)
      rw [Nat.pow_succ, Nat.mul_assoc]
      omega
    rw [node, node, ih fun i lower => same i (limit (2 * index) (by omega) i lower),
      ih fun i lower => same i (limit (2 * index + 1) (Nat.le_refl _) i lower)]

theorem node_top {level more : Nat} (alone : node join leaf level 1 = none) (dense : Dense leaf) :
    node join leaf (level + more) 0 = node join leaf level 0 := by
  induction more with
  | zero => rfl
  | succ more ih =>
    have free : node join leaf (level + more) (2 * 0 + 1) = none := by
      rw [← Option.not_isSome_iff_eq_none] at alone ⊢
      rw [node_isSome] at alone ⊢
      intro there
      refine alone (dense _ _ (Nat.mul_le_mul_right _ ?_) there)
      exact Nat.pow_le_pow_right (Nat.succ_pos 1) (Nat.le_add_right level more)
    rw [← Nat.add_assoc, node_single free, Nat.mul_zero, ih]

theorem node_map {join' : β → β → β} (f : α → β) (respects : ∀ a b, f (join a b) = join' (f a) (f b))
    (level index : Nat) :
    (node join leaf level index).map f = node join' (fun i => (leaf i).map f) level index := by
  induction level generalizing index with
  | zero => rfl
  | succ level ih =>
    simp only [node, ← ih]
    cases node join leaf level (2 * index) with
    | none => rfl
    | some left =>
      cases node join leaf level (2 * index + 1) with
      | none => rfl
      | some right => exact congrArg some (respects left right)

/-- Where a changed leaf leaves the place above it as it was, the leaf is the same or two different pairs on the way up
are joined to one. -/
theorem node_update_binds {last : Nat} {value value' : α} (dense : Dense leaf) (before : leaf last = some value')
    {level : Nat}
    (same : node join (Function.update leaf last (some value)) level (last / 2 ^ level) =
      node join leaf level (last / 2 ^ level)) :
    value = value' ∨ ∃ l < level, ∃ left right left' right',
      node join (Function.update leaf last (some value)) l (2 * (last / 2 ^ (l + 1))) = some left ∧
      node join (Function.update leaf last (some value)) l (2 * (last / 2 ^ (l + 1)) + 1) = some right ∧
      node join leaf l (2 * (last / 2 ^ (l + 1))) = some left' ∧
      node join leaf l (2 * (last / 2 ^ (l + 1)) + 1) = some right' ∧
      join left right = join left' right' ∧ (left ≠ left' ∧ right = right' ∨ left = left' ∧ right ≠ right') := by
  induction level with
  | zero =>
    left
    rw [Nat.pow_zero, Nat.div_one, node, node, Function.update_self, before] at same
    exact Option.some.inj same
  | succ level ih =>
    have half : last / 2 ^ (level + 1) = last / 2 ^ level / 2 := by rw [Nat.pow_succ, Nat.div_div_eq_div_mul]
    have off (i : Nat) (other : last / 2 ^ level ≠ i) := @node_update _ join leaf last (some value) level i other
    by_cases below : node join (Function.update leaf last (some value)) level (last / 2 ^ level) =
        node join leaf level (last / 2 ^ level)
    · exact (ih below).imp_right fun ⟨l, lower, rest⟩ => ⟨l, Nat.lt_succ_of_lt lower, rest⟩
    · right
      have there : (node join leaf level (last / 2 ^ level)).isSome := by
        rw [node_isSome]
        exact dense _ _ (Nat.mul_div_le ..) (by rw [before]; rfl)
      have there' : (node join (Function.update leaf last (some value)) level (last / 2 ^ level)).isSome := by
        have places (i : Nat) : (Function.update leaf last (some value) i).isSome = (leaf i).isSome := by
          by_cases here : i = last
          · rw [here, Function.update_self, before]
            rfl
          · rw [Function.update_of_ne here]
        rw [node_isSome, places, ← node_isSome, there]
      obtain ⟨old, found⟩ := Option.isSome_iff_exists.mp there
      obtain ⟨new, found'⟩ := Option.isSome_iff_exists.mp there'
      have differ : new ≠ old := fun equal => below (by rw [found, found', equal])
      refine ⟨level, Nat.lt_succ_self level, ?_⟩
      rw [half] at same ⊢
      generalize last / 2 ^ level = q at *
      rcases Nat.mod_two_eq_zero_or_one q with even | odd
      · have place : 2 * (q / 2) = q := by omega
        have neighbor := off (2 * (q / 2) + 1) (by omega)
        cases second : node join leaf level (2 * (q / 2) + 1) with
        | none =>
          rw [second] at neighbor
          rw [node_single second, node_single neighbor, place] at same
          exact absurd same below
        | some right =>
          rw [second] at neighbor
          rw [← place] at found found'
          rw [node_pair found second, node_pair found' neighbor] at same
          exact ⟨new, right, old, right, found', neighbor, found, rfl, Option.some.inj same, .inl ⟨differ, rfl⟩⟩
      · have place : 2 * (q / 2) + 1 = q := by omega
        have neighbor := off (2 * (q / 2)) (by omega)
        have first : (node join leaf level (2 * (q / 2))).isSome :=
          node_dense dense (Nat.le_succ _) (by rw [Nat.succ_eq_add_one, place]; exact there)
        obtain ⟨left, first⟩ := Option.isSome_iff_exists.mp first
        rw [first] at neighbor
        rw [← place] at found found'
        rw [node_pair first found, node_pair neighbor found'] at same
        exact ⟨left, new, left, old, neighbor, found', first, found, Option.some.inj same, .inr ⟨rfl, differ⟩⟩

theorem node_append (items : List α) (level index : Nat) :
    node (· ++ ·) (fun i => (items[i]?).map ([·])) level index =
      if 2 ^ level * index < items.length then
        some ((items.drop (2 ^ level * index)).take (2 ^ level))
      else none := by
  induction level generalizing index with
  | zero =>
    rw [node, Nat.pow_zero, Nat.one_mul]
    split
    · next inside =>
      rw [List.getElem?_eq_getElem inside, List.drop_eq_getElem_cons inside]
      rfl
    · next outside => simp [List.getElem?_eq_none (Nat.le_of_not_lt outside)]
  | succ level ih =>
    have start : 2 ^ level * (2 * index) = 2 ^ (level + 1) * index := by rw [← Nat.mul_assoc, ← Nat.pow_succ]
    have middle : 2 ^ level * (2 * index + 1) = 2 ^ (level + 1) * index + 2 ^ level := by
      rw [Nat.mul_add, start, Nat.mul_one]
    have double : 2 ^ (level + 1) = 2 ^ level + 2 ^ level := by rw [Nat.pow_succ, Nat.mul_two]
    rw [node, ih, ih, start, middle]
    generalize 2 ^ (level + 1) * index = first
    rw [double]
    by_cases right : first + 2 ^ level < items.length
    · have left : first < items.length := Nat.lt_of_le_of_lt (Nat.le_add_right _ _) right
      simp only [right, left, if_true]
      rw [List.take_add, List.drop_drop]
    · by_cases left : first < items.length
      · simp only [right, left, if_true, if_false]
        have rest : (items.drop first).length ≤ 2 ^ level := by
          rw [List.length_drop]
          omega
        rw [List.take_of_length_le rest, List.take_of_length_le (Nat.le_add_right_of_le rest)]
      · simp only [right, left, if_false]

end Pyramid
