import Mathlib.Data.List.Induction
import Mathlib.Data.List.Nodup
import MyBlockchain.ReserveTable.ReserveTableProvider

namespace Blockchain

/-- The table of an epoch after these `reserveRWset` calls. -/
def MockReserveTable.after (epoch : Nat) (calls : List (KVRWSet × Nat)) : MockReserveTable :=
  calls.foldl (fun table call => table.reserveRWset call.1 call.2) (.new epoch)

namespace MockReserveTable

theorem after_append_singleton (epoch : Nat) (calls : List (KVRWSet × Nat)) (kvRWSet : KVRWSet)
    (transactionID : Nat) :
    after epoch (calls ++ [(kvRWSet, transactionID)]) = (after epoch calls).reserveRWset kvRWSet transactionID := by
  simp [after]

theorem after_epoch (epoch : Nat) (calls : List (KVRWSet × Nat)) : (after epoch calls).epoch = epoch := by
  induction calls using List.reverseRecOn with
  | nil => rfl
  | append_singleton calls call ih =>
    rw [after_append_singleton, reserveRWset_epoch]
    exact ih

end MockReserveTable

namespace ReserveTableProvider

/-- One table at most was made for each epoch, and the one of this epoch has answered these calls. -/
structure Serves (provider : ReserveTableProvider) (epoch : Nat) (calls : List (KVRWSet × Nat)) : Prop where
  created : provider.created.Pairwise (· < ·)
  table : calls = [] ∧ (∀ other ∈ provider.created, other < epoch) ∨
    provider.reserveTable = some (.after epoch calls)

variable {provider : ReserveTableProvider} {epoch : Nat} {calls : List (KVRWSet × Nat)}

theorem initial_serves (epoch : Nat) : initial.Serves epoch [] :=
  ⟨.nil, .inl ⟨rfl, fun _ member => by cases member⟩⟩

theorem Serves.bound (serves : provider.Serves epoch calls) : ∀ other ∈ provider.created, other ≤ epoch := by
  intro other member
  rcases serves.table with ⟨-, before⟩ | owned
  · exact Nat.le_of_lt (before other member)
  · have ordered := serves.created
    rw [ReserveTableProvider.created, owned] at ordered member
    have last : ∀ old ∈ provider.destroyed, old < epoch := by
      intro old destroyed
      have less := (List.pairwise_append.mp ordered).2.2 old destroyed _ (.head _)
      rwa [MockReserveTable.after_epoch] at less
    rcases List.mem_append.mp member with old | new
    · exact Nat.le_of_lt (last other old)
    · have same := List.mem_singleton.mp new
      rw [MockReserveTable.after_epoch] at same
      exact Nat.le_of_eq same

theorem Serves.next (serves : provider.Serves epoch calls) : provider.Serves (epoch + 1) [] :=
  ⟨serves.created, .inl ⟨rfl, fun other member => Nat.lt_succ_of_le (serves.bound other member)⟩⟩

theorem Serves.count (serves : provider.Serves epoch calls)
    (owned : provider.reserveTable = some (.after epoch calls)) : provider.created.count epoch = 1 := by
  have nodup : provider.created.Nodup := serves.created.imp Nat.ne_of_lt
  refine List.count_eq_one_of_mem nodup ?_
  simp [ReserveTableProvider.created, owned, MockReserveTable.after_epoch]

theorem getHashMapReserveTable_owned (owned : provider.reserveTable = some (.after epoch calls)) :
    provider.getHashMapReserveTable epoch = (provider, provider.destroyed.length) := by
  rw [getHashMapReserveTable, owned]
  exact if_pos (MockReserveTable.after_epoch epoch calls)

theorem Serves.getHashMapReserveTable_first (serves : provider.Serves epoch [])
    (before : ∀ other ∈ provider.created, other < epoch) :
    (provider.getHashMapReserveTable epoch).1.Serves epoch [] ∧
    (provider.getHashMapReserveTable epoch).1.reserveTable = some (.after epoch []) ∧
    (provider.getHashMapReserveTable epoch).2 =
      (provider.getHashMapReserveTable epoch).1.destroyed.length := by
  have ordered := serves.created
  unfold getHashMapReserveTable
  rw [ReserveTableProvider.created] at ordered before
  cases owned : provider.reserveTable with
  | none =>
    refine ⟨⟨?_, .inr rfl⟩, rfl, rfl⟩
    rw [owned] at ordered before
    refine List.pairwise_append.mpr ⟨(List.pairwise_append.mp ordered).1, List.pairwise_singleton _ _, ?_⟩
    intro old destroyed new member
    rw [List.mem_singleton.mp member]
    exact before old (List.mem_append_left _ destroyed)
  | some table =>
    rw [owned] at ordered before
    have stale : table.epoch < epoch := before table.epoch (by simp)
    simp only [Nat.ne_of_lt stale, if_false]
    refine ⟨⟨?_, .inr rfl⟩, rfl, by simp⟩
    refine List.pairwise_append.mpr ⟨ordered, List.pairwise_singleton _ _, ?_⟩
    intro old destroyed new member
    rw [List.mem_singleton.mp member]
    exact before old destroyed

theorem Serves.reserve (serves : provider.Serves epoch calls) (kvRWSet : KVRWSet) (transactionID : Nat) :
    ((provider.getHashMapReserveTable epoch).1.reserveRWset kvRWSet transactionID).Serves epoch
      (calls ++ [(kvRWSet, transactionID)]) ∧
    ((provider.getHashMapReserveTable epoch).1.reserveRWset kvRWSet transactionID).reserveTable =
      some (.after epoch (calls ++ [(kvRWSet, transactionID)])) ∧
    (provider.getHashMapReserveTable epoch).2 =
      ((provider.getHashMapReserveTable epoch).1.reserveRWset kvRWSet transactionID).destroyed.length := by
  obtain ⟨asked, owned, address⟩ : (provider.getHashMapReserveTable epoch).1.Serves epoch calls ∧
      (provider.getHashMapReserveTable epoch).1.reserveTable = some (.after epoch calls) ∧
      (provider.getHashMapReserveTable epoch).2 =
        (provider.getHashMapReserveTable epoch).1.destroyed.length := by
    rcases serves.table with ⟨rfl, before⟩ | owned
    · exact serves.getHashMapReserveTable_first before
    · rw [getHashMapReserveTable_owned owned]
      exact ⟨serves, owned, rfl⟩
  have reserved : ((provider.getHashMapReserveTable epoch).1.reserveRWset kvRWSet transactionID).reserveTable =
      some (.after epoch (calls ++ [(kvRWSet, transactionID)])) := by
    rw [reserveRWset, owned, MockReserveTable.after_append_singleton]
    rfl
  refine ⟨⟨?_, .inr reserved⟩, reserved, address⟩
  have ordered := asked.created
  rw [ReserveTableProvider.created, owned] at ordered
  rw [ReserveTableProvider.created, reserved]
  simpa [MockReserveTable.after_epoch, reserveRWset] using ordered

end ReserveTableProvider

end Blockchain
