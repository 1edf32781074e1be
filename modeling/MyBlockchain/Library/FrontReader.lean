import Mathlib.Data.Option.Basic
import Mathlib.Data.List.Basic

/-- Reads a value from the front of a list, and gives it with what follows. -/
abbrev FrontReader (β α : Type*) := List β → Option (α × List β)

namespace FrontReader

variable {α β γ : Type*} {reader : FrontReader β α}

def map (change : α → γ) (reader : FrontReader β α) : FrontReader β γ :=
  fun input => (reader input).map fun (value, rest) => (change value, rest)

def bind (reader : FrontReader β α) (next : α → FrontReader β γ) : FrontReader β γ :=
  fun input => (reader input).bind fun (value, rest) => next value rest

theorem bind_of_some {next : α → FrontReader β γ} {input rest : List β} {value : α}
    (read : reader input = some (value, rest)) : reader.bind next input = next value rest := by
  rw [bind, read, Option.bind_some]

theorem bind_of_none {next : α → FrontReader β γ} {input : List β} (stops : reader input = none) :
    reader.bind next input = none := by
  rw [bind, stops, Option.bind_none]

/-- `front` is exactly what is read for `value`, whatever follows. -/
def Spells (reader : FrontReader β α) (front : List β) (value : α) : Prop :=
  ∀ rest, reader (front ++ rest) = some (value, rest)

/-- Nothing behind the part that it takes has an influence on what is read. -/
def Local (reader : FrontReader β α) : Prop :=
  ∀ ⦃input value rest⦄, reader input = some (value, rest) → ∃ front, input = front ++ rest ∧ reader.Spells front value

theorem Spells.map {front : List β} {value : α} (spells : reader.Spells front value) (change : α → γ) :
    (reader.map change).Spells front (change value) := by
  intro rest
  rw [FrontReader.map, spells rest, Option.map_some]

theorem Spells.bind {next : α → FrontReader β γ} {front second : List β} {value : α} {result : γ}
    (spells : reader.Spells front value) (then_ : (next value).Spells second result) :
    (reader.bind next).Spells (front ++ second) result := by
  intro rest
  rw [List.append_assoc, bind_of_some (spells _)]
  exact then_ rest

theorem map_eq_some {change : α → γ} {input rest : List β} {result : γ}
    (read : reader.map change input = some (result, rest)) :
    ∃ value, reader input = some (value, rest) ∧ change value = result := by
  obtain ⟨⟨value, left⟩, found, same⟩ := Option.map_eq_some_iff.mp read
  obtain ⟨rfl, rfl⟩ := Prod.mk.inj same
  exact ⟨value, found, rfl⟩

theorem bind_eq_some {next : α → FrontReader β γ} {input rest : List β} {result : γ}
    (read : reader.bind next input = some (result, rest)) :
    ∃ value left, reader input = some (value, left) ∧ next value left = some (result, rest) := by
  obtain ⟨⟨value, left⟩, found, then_⟩ := Option.bind_eq_some_iff.mp read
  exact ⟨value, left, found, then_⟩

theorem Local.map (local_ : reader.Local) (change : α → γ) : (reader.map change).Local := by
  intro input result rest read
  obtain ⟨value, found, rfl⟩ := map_eq_some read
  obtain ⟨front, same, spells⟩ := local_ found
  exact ⟨front, same, spells.map change⟩

theorem Local.bind {next : α → FrontReader β γ} (local_ : reader.Local) (then_ : ∀ value, (next value).Local) :
    (reader.bind next).Local := by
  intro input result rest read
  obtain ⟨value, left, found, following⟩ := bind_eq_some read
  obtain ⟨front, rfl, spells⟩ := local_ found
  obtain ⟨second, rfl, spellsNext⟩ := then_ value following
  exact ⟨front ++ second, (List.append_assoc ..).symm, spells.bind spellsNext⟩

theorem Local.append (local_ : reader.Local) {input rest : List β} {value : α}
    (read : reader input = some (value, rest)) (more : List β) :
    reader (input ++ more) = some (value, rest ++ more) := by
  obtain ⟨front, rfl, spells⟩ := local_ read
  rw [List.append_assoc]
  exact spells (rest ++ more)

end FrontReader
