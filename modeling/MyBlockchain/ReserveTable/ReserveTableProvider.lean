import MyBlockchain.ReserveTable.MockReserveTable

namespace Blockchain

/-- `reserveTable` is the table the shared pointer owns; `destroyed` lists the epochs of the tables it
owned before, in order. The address of a table is the number of tables made before it. -/
structure ReserveTableProvider where
  destroyed : List Nat
  reserveTable : Option MockReserveTable

namespace ReserveTableProvider

def initial : ReserveTableProvider := { destroyed := [], reserveTable := none }

def created (provider : ReserveTableProvider) : List Nat :=
  provider.destroyed ++ provider.reserveTable.toList.map MockReserveTable.epoch

/-- Reading through an address: only the table the provider owns is still there. -/
def deref (provider : ReserveTableProvider) (address : Nat) : Option MockReserveTable :=
  if address = provider.destroyed.length then provider.reserveTable else none

def getHashMapReserveTable (provider : ReserveTableProvider) (epoch : Nat) : ReserveTableProvider × Nat :=
  match provider.reserveTable with
  | some table =>
    if table.epoch = epoch then (provider, provider.destroyed.length)
    else
      ({ destroyed := provider.destroyed ++ [table.epoch], reserveTable := some (.new epoch) },
        provider.destroyed.length + 1)
  | none => ({ provider with reserveTable := some (.new epoch) }, provider.destroyed.length)

/-- `reserveRWset` through the pointer that `getHashMapReserveTable` has just returned. -/
def reserveRWset (provider : ReserveTableProvider) (kvRWSet : KVRWSet) (transactionID : Nat) :
    ReserveTableProvider :=
  { provider with reserveTable := provider.reserveTable.map (·.reserveRWset kvRWSet transactionID) }

structure Owns (provider : ReserveTableProvider) (epoch address : Nat) (calls : List (KVRWSet × Nat)) :
    Prop where
  table : ∃ table, provider.reserveTable = some table ∧ table.epoch = epoch ∧ table.Holds calls
  address : address = provider.destroyed.length

variable {provider : ReserveTableProvider} {epoch address : Nat} {calls : List (KVRWSet × Nat)}

theorem getHashMapReserveTable_owns_new (provider : ReserveTableProvider) (epoch : Nat)
    (stale : ∀ table ∈ provider.reserveTable, table.epoch ≠ epoch) :
    (provider.getHashMapReserveTable epoch).1.Owns epoch (provider.getHashMapReserveTable epoch).2 [] := by
  unfold getHashMapReserveTable
  cases owned : provider.reserveTable with
  | none => exact ⟨⟨_, rfl, rfl, MockReserveTable.new_holds epoch⟩, rfl⟩
  | some table =>
    have other : table.epoch ≠ epoch := stale table owned
    simp only [other, if_false]
    exact ⟨⟨_, rfl, rfl, MockReserveTable.new_holds epoch⟩, by simp⟩

theorem Owns.getHashMapReserveTable (owns : provider.Owns epoch address calls) :
    provider.getHashMapReserveTable epoch = (provider, address) := by
  obtain ⟨table, owned, rfl, -⟩ := owns.table
  rw [ReserveTableProvider.getHashMapReserveTable, owned, owns.address]
  exact if_pos rfl

theorem Owns.reserveRWset (owns : provider.Owns epoch address calls) (kvRWSet : KVRWSet)
    (transactionID : Nat) (nonzero : transactionID ≠ 0) :
    (provider.reserveRWset kvRWSet transactionID).Owns epoch address (calls ++ [(kvRWSet, transactionID)]) := by
  obtain ⟨table, owned, rfl, holds⟩ := owns.table
  refine ⟨⟨table.reserveRWset kvRWSet transactionID, ?_, by simp, holds.reserve _ _ nonzero⟩, owns.address⟩
  simp [ReserveTableProvider.reserveRWset, owned]

end ReserveTableProvider

end Blockchain
