import Mathlib.Algebra.BigOperators.Group.Finset.Basic
import Mathlib.Data.Finmap

namespace PartitionedMap

abbrev Map (K V : Type*) := Finmap fun _ : K => V

variable {K V I : Type*} [DecidableEq K] {place : K → I} {parts : I → Map K V} {whole : Map K V}

/-- A map kept in parts, each key in the part that its place says. -/
structure Splits (place : K → I) (parts : I → Map K V) (whole : Map K V) : Prop where
  placed : ∀ part key, key ∈ parts part → place key = part
  lookup : ∀ key, (parts (place key)).lookup key = whole.lookup key

theorem Splits.empty (place : K → I) : Splits place (fun _ => (∅ : Map K V)) ∅ where
  placed _ _ member := absurd member Finmap.notMem_empty
  lookup _ := rfl

theorem Splits.mem_iff (splits : Splits place parts whole) (key : K) : key ∈ parts (place key) ↔ key ∈ whole := by
  rw [← Finmap.lookup_isSome, splits.lookup, Finmap.lookup_isSome]

section Change

variable [DecidableEq I] {key : K} {part after : Map K V}

theorem Splits.change (splits : Splits place parts whole) (own : part.lookup key = after.lookup key)
    (others : ∀ other, other ≠ key → part.lookup other = (parts (place key)).lookup other)
    (kept : ∀ other, other ≠ key → after.lookup other = whole.lookup other) :
    Splits place (Function.update parts (place key) part) after where
  placed i other member := by
    by_cases same : i = place key
    · subst same
      rw [Function.update_self] at member
      by_cases mine : other = key
      · rw [mine]
      · rw [← Finmap.lookup_isSome, others other mine, Finmap.lookup_isSome] at member
        exact splits.placed _ other member
    · rw [Function.update_of_ne same] at member
      exact splits.placed i other member
  lookup other := by
    by_cases mine : other = key
    · subst mine
      rw [Function.update_self, own]
    · rw [kept other mine, ← splits.lookup other]
      by_cases same : place other = place key
      · rw [same, Function.update_self, others other mine]
      · rw [Function.update_of_ne same]

theorem Splits.insert (splits : Splits place parts whole) (key : K) (value : V) :
    Splits place (Function.update parts (place key) ((parts (place key)).insert key value)) (whole.insert key value) := by
  apply splits.change
  · rw [Finmap.lookup_insert, Finmap.lookup_insert]
  · exact fun other different => Finmap.lookup_insert_of_ne _ different
  · exact fun other different => Finmap.lookup_insert_of_ne _ different

theorem Splits.erase (splits : Splits place parts whole) (key : K) :
    Splits place (Function.update parts (place key) ((parts (place key)).erase key)) (whole.erase key) := by
  apply splits.change
  · rw [Finmap.lookup_erase, Finmap.lookup_erase]
  · exact fun other different => Finmap.lookup_erase_ne different
  · exact fun other different => Finmap.lookup_erase_ne different

theorem Splits.wipe (splits : Splits place parts whole) (i : I)
    (wiped : ∀ key, after.lookup key = if place key = i then none else whole.lookup key) :
    Splits place (Function.update parts i ∅) after where
  placed j key member := by
    by_cases same : j = i
    · rw [same, Function.update_self] at member
      exact absurd member Finmap.notMem_empty
    · rw [Function.update_of_ne same] at member
      exact splits.placed j key member
  lookup key := by
    rw [wiped key]
    by_cases same : place key = i
    · rw [same, Function.update_self, if_pos rfl]
      exact Finmap.lookup_empty key
    · rw [Function.update_of_ne same, if_neg same]
      exact splits.lookup key

end Change

theorem exists_without (whole : Map K V) (gone : Finset K) :
    ∃ after : Map K V, ∀ key, after.lookup key = if key ∈ gone then none else whole.lookup key := by
  induction gone using Finset.induction_on with
  | empty => exact ⟨whole, fun key => by rw [if_neg (Finset.notMem_empty key)]⟩
  | insert first rest new ih =>
    obtain ⟨after, without⟩ := ih
    refine ⟨after.erase first, fun key => ?_⟩
    by_cases same : key = first
    · rw [same, Finmap.lookup_erase, if_pos (Finset.mem_insert_self first rest)]
    · rw [Finmap.lookup_erase_ne same, without key]
      simp only [Finset.mem_insert, same, false_or]

theorem Splits.keys [DecidableEq I] (splits : Splits place parts whole) (part : I) :
    (parts part).keys = {key ∈ whole.keys | place key = part} := by
  ext key
  rw [Finset.mem_filter, Finmap.mem_keys, Finmap.mem_keys]
  constructor
  · intro member
    have here := splits.placed part key member
    subst here
    exact ⟨(splits.mem_iff key).mp member, rfl⟩
  · rintro ⟨member, rfl⟩
    exact (splits.mem_iff key).mpr member

theorem Splits.card [DecidableEq I] [Fintype I] (splits : Splits place parts whole) :
    ∑ part, (parts part).keys.card = whole.keys.card := by
  have everywhere : Set.MapsTo place whole.keys (Finset.univ : Finset I) := fun key _ => Finset.mem_univ (place key)
  rw [Finset.card_eq_sum_card_fiberwise everywhere]
  exact Finset.sum_congr rfl fun part _ => congrArg Finset.card (splits.keys part)

end PartitionedMap
