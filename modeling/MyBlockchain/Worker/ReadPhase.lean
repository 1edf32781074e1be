import Mathlib.Data.List.Induction
import Mathlib.Data.List.Pairwise
import Mathlib.Data.List.Perm.Basic
import MyBlockchain.Worker.TransactionExecutor

namespace Blockchain

namespace Shared

variable {Slot : Type} (slotOf : SlotOf Slot) (chaincode : Chaincode)

/-- The transactions of an epoch before `executeList` runs. -/
structure EpochStart (shared : Shared Slot) (epoch : Nat) (refs : List Ref) : Prop where
  distinct : refs.Pairwise fun r₁ r₂ => (shared.heap r₁).tid ≠ (shared.heap r₂).tid
  nonzero : ∀ r ∈ refs, (shared.heap r).tid ≠ 0
  epochs : ∀ r ∈ refs, (shared.heap r).epoch = epoch
  fresh : ∀ r ∈ refs, (shared.heap r).Fresh
  stale : ∀ table ∈ shared.provider.reserveTable, table.epoch ≠ epoch

def executed (shared : Shared Slot) (r : Ref) : MockTransaction :=
  { shared.heap r with
    kvrwSet := (shared.heap r).kvrwSet.append (shared.invoke slotOf chaincode r).rwSet
    transactionResult :=
      if (shared.invoke slotOf chaincode r).success then (shared.heap r).transactionResult
      else .ABORT_NO_RETRY }

def reservations (shared : Shared Slot) (refs : List Ref) : List (KVRWSet × Nat) :=
  (refs.filter fun r => (shared.invoke slotOf chaincode r).success).map fun r =>
    ((shared.executed slotOf chaincode r).kvrwSet, (shared.heap r).tid)

theorem executeTransaction_heap (worker : Nat) (shared : Shared Slot) (r : Ref) :
    (shared.executeTransaction slotOf chaincode worker r).heap =
      Function.update shared.heap r (shared.executed slotOf chaincode r) := by
  unfold executeTransaction executed
  by_cases success : (shared.invoke slotOf chaincode r).success = true
  · simp [success]
  · simp [success, setTransactionResult, MockTransaction.setTransactionResult]

theorem executeTransaction_database (worker : Nat) (shared : Shared Slot) (r : Ref) :
    (shared.executeTransaction slotOf chaincode worker r).database =
      shared.database.bufferUpdates (shared.heap r).tid r (shared.invoke slotOf chaincode r).tableList := by
  unfold executeTransaction
  by_cases success : (shared.invoke slotOf chaincode r).success = true
  · simp [success]
  · simp [success, setTransactionResult]

theorem executeTransaction_failure (worker : Nat) (shared : Shared Slot) (r : Ref)
    (failure : (shared.invoke slotOf chaincode r).success = false) :
    (shared.executeTransaction slotOf chaincode worker r).provider = shared.provider ∧
    (shared.executeTransaction slotOf chaincode worker r).reserveTable = shared.reserveTable := by
  simp [executeTransaction, failure, setTransactionResult]

theorem executeTransaction_success (worker : Nat) (shared : Shared Slot) (r : Ref)
    (success : (shared.invoke slotOf chaincode r).success = true) :
    (shared.executeTransaction slotOf chaincode worker r).provider =
      (shared.provider.getHashMapReserveTable (shared.heap r).epoch).1.reserveRWset
        (shared.executed slotOf chaincode r).kvrwSet (shared.heap r).tid ∧
    (shared.executeTransaction slotOf chaincode worker r).reserveTable =
      Function.update shared.reserveTable worker
        (some (shared.provider.getHashMapReserveTable (shared.heap r).epoch).2) := by
  simp [executeTransaction, success, executed]

/-- The state of a read phase in which the listed iterations have happened. -/
structure ReadDone (start : Shared Slot) (epoch : Nat) (done : List (Nat × Ref)) (shared : Shared Slot) :
    Prop where
  db : shared.database.db = start.database.db
  waiting : ∀ r, r ∉ done.map Prod.snd → shared.heap r = start.heap r
  executed : ∀ r ∈ done.map Prod.snd, shared.heap r = start.executed slotOf chaincode r
  buffered : ∀ r ∈ done.map Prod.snd, shared.database.rwSetBuffer (start.heap r).tid = some r
  latch : done ≠ [] → shared.database.commitPhase = false
  table : (∀ r ∈ done.map Prod.snd, (start.invoke slotOf chaincode r).success = false) ∧
      shared.provider = start.provider ∨
    ∃ address,
      shared.provider.Owns epoch address (start.reservations slotOf chaincode (done.map Prod.snd)) ∧
      ∀ iteration ∈ done, (start.invoke slotOf chaincode iteration.2).success = true →
        shared.reserveTable iteration.1 = some address

variable {slotOf chaincode}
variable {start shared : Shared Slot} {epoch : Nat} {refs : List Ref} {done : List (Nat × Ref)}

theorem EpochStart.perm {other : List Ref} (ready : start.EpochStart epoch refs) (perm : other.Perm refs) :
    start.EpochStart epoch other where
  distinct := perm.symm.pairwise ready.distinct fun different => different.symm
  nonzero r member := ready.nonzero r (perm.mem_iff.mp member)
  epochs r member := ready.epochs r (perm.mem_iff.mp member)
  fresh r member := ready.fresh r (perm.mem_iff.mp member)
  stale := ready.stale

theorem EpochStart.sublist {other : List Ref} (ready : start.EpochStart epoch refs)
    (sublist : other.Sublist refs) : start.EpochStart epoch other where
  distinct := ready.distinct.sublist sublist
  nonzero r member := ready.nonzero r (sublist.subset member)
  epochs r member := ready.epochs r (sublist.subset member)
  fresh r member := ready.fresh r (sublist.subset member)
  stale := ready.stale

theorem EpochStart.nodup (ready : start.EpochStart epoch refs) : refs.Nodup :=
  ready.distinct.imp fun different same => different (congrArg (fun r => (start.heap r).tid) same)

theorem EpochStart.tid_ne (ready : start.EpochStart epoch refs) {r s : Ref} (hr : r ∈ refs) (hs : s ∈ refs)
    (different : r ≠ s) : (start.heap r).tid ≠ (start.heap s).tid := by
  have symmetric : Std.Symm fun r s => (start.heap r).tid ≠ (start.heap s).tid := ⟨fun _ _ => Ne.symm⟩
  exact ready.distinct.forall hr hs different

theorem ReadDone.refl (start : Shared Slot) (epoch : Nat) :
    ReadDone slotOf chaincode start epoch [] start where
  db := rfl
  waiting _ _ := rfl
  executed := by simp
  buffered := by simp
  latch := by simp
  table := .inl ⟨by simp, rfl⟩

theorem reservations_append_singleton (start : Shared Slot) (refs : List Ref) (r : Ref) :
    start.reservations slotOf chaincode (refs ++ [r]) = start.reservations slotOf chaincode refs ++
      if (start.invoke slotOf chaincode r).success then
        [((start.executed slotOf chaincode r).kvrwSet, (start.heap r).tid)] else [] := by
  unfold reservations
  split <;> simp [*]

theorem EpochStart.new {r : Ref} (ready : start.EpochStart epoch (done.map Prod.snd ++ [r])) :
    r ∉ done.map Prod.snd := fun member =>
  (List.nodup_append.mp ready.nodup).2.2 r member r (by simp) rfl

theorem ReadDone.unread (done_ : ReadDone slotOf chaincode start epoch done shared) {r : Ref}
    (new : r ∉ done.map Prod.snd) :
    shared.heap r = start.heap r ∧ shared.invoke slotOf chaincode r = start.invoke slotOf chaincode r ∧
      shared.executed slotOf chaincode r = start.executed slotOf chaincode r := by
  have same : shared.heap r = start.heap r := done_.waiting r new
  have invoked : shared.invoke slotOf chaincode r = start.invoke slotOf chaincode r := by
    rw [invoke, invoke, same, done_.db]
  refine ⟨same, invoked, ?_⟩
  rw [Shared.executed, Shared.executed, invoked, same]

theorem ReadDone.table_success (done_ : ReadDone slotOf chaincode start epoch done shared) (worker : Nat) (r : Ref)
    (ready : start.EpochStart epoch (done.map Prod.snd ++ [r]))
    (success : (start.invoke slotOf chaincode r).success = true) :
    ∃ address,
      (shared.executeTransaction slotOf chaincode worker r).provider.Owns epoch address
        (start.reservations slotOf chaincode (done.map Prod.snd ++ [r])) ∧
      ∀ iteration ∈ done ++ [(worker, r)], (start.invoke slotOf chaincode iteration.2).success = true →
        (shared.executeTransaction slotOf chaincode worker r).reserveTable iteration.1 = some address := by
  obtain ⟨same, invoked, object⟩ := done_.unread ready.new
  have epochs : (shared.heap r).epoch = epoch := by rw [same]; exact ready.epochs r (by simp)
  have nonzero : (shared.heap r).tid ≠ 0 := by rw [same]; exact ready.nonzero r (by simp)
  obtain ⟨provider, pointer⟩ := executeTransaction_success slotOf chaincode worker shared r
    (by rw [invoked]; exact success)
  rw [provider, pointer, object, epochs, reservations_append_singleton, if_pos success]
  rcases done_.table with ⟨failures, unchanged⟩ | ⟨address, owns, pointers⟩
  · -- the first success of the epoch makes the table
    have none : start.reservations slotOf chaincode (done.map Prod.snd) = [] := by
      rw [reservations, List.filter_eq_nil_iff.mpr fun r member => by simp [failures r member]]
      rfl
    have owns := ReserveTableProvider.getHashMapReserveTable_owns_new shared.provider epoch
      (by rw [unchanged]; exact ready.stale)
    refine ⟨(shared.provider.getHashMapReserveTable epoch).2, ?_, ?_⟩
    · rw [none, ← same]
      exact owns.reserveRWset _ _ nonzero
    · intro iteration member succeeded
      rcases List.mem_append.mp member with member | member
      · exact absurd succeeded (by simp [failures _ (List.mem_map_of_mem member)])
      · rw [List.mem_singleton.mp member, Function.update_self]
  · rw [owns.getHashMapReserveTable, ← same]
    refine ⟨address, owns.reserveRWset _ _ nonzero, ?_⟩
    intro iteration member succeeded
    by_cases mine : iteration.1 = worker
    · rw [mine, Function.update_self]
    · rcases List.mem_append.mp member with member | member
      · rw [Function.update_of_ne mine, pointers iteration member succeeded]
      · exact absurd (congrArg Prod.fst (List.mem_singleton.mp member)) mine

theorem ReadDone.table_failure (done_ : ReadDone slotOf chaincode start epoch done shared) (worker : Nat) (r : Ref)
    (new : r ∉ done.map Prod.snd) (failure : (start.invoke slotOf chaincode r).success = false) :
    (∀ other ∈ done.map Prod.snd ++ [r], (start.invoke slotOf chaincode other).success = false) ∧
        (shared.executeTransaction slotOf chaincode worker r).provider = start.provider ∨
      ∃ address,
        (shared.executeTransaction slotOf chaincode worker r).provider.Owns epoch address
          (start.reservations slotOf chaincode (done.map Prod.snd ++ [r])) ∧
        ∀ iteration ∈ done ++ [(worker, r)], (start.invoke slotOf chaincode iteration.2).success = true →
          (shared.executeTransaction slotOf chaincode worker r).reserveTable iteration.1 = some address := by
  obtain ⟨-, invoked, -⟩ := done_.unread new
  obtain ⟨provider, pointer⟩ := executeTransaction_failure slotOf chaincode worker shared r
    (by rw [invoked]; exact failure)
  have fails : ¬ (start.invoke slotOf chaincode r).success = true := by simp [failure]
  rw [provider, pointer, reservations_append_singleton, if_neg fails, List.append_nil]
  rcases done_.table with ⟨failures, unchanged⟩ | ⟨address, owns, pointers⟩
  · refine .inl ⟨fun other member => ?_, unchanged⟩
    rcases List.mem_append.mp member with member | member
    · exact failures other member
    · rw [List.mem_singleton.mp member]
      exact failure
  · refine .inr ⟨address, owns, fun iteration member succeeded => ?_⟩
    rcases List.mem_append.mp member with member | member
    · exact pointers iteration member succeeded
    · rw [List.mem_singleton.mp member] at succeeded
      exact absurd succeeded fails

theorem ReadDone.step (done_ : ReadDone slotOf chaincode start epoch done shared) (worker : Nat) (r : Ref)
    (ready : start.EpochStart epoch (done.map Prod.snd ++ [r])) :
    ReadDone slotOf chaincode start epoch (done ++ [(worker, r)])
      (shared.executeTransaction slotOf chaincode worker r) := by
  have new := ready.new
  obtain ⟨same, -, object⟩ := done_.unread new
  constructor
  case db => rw [executeTransaction_database, DatabaseImpl.bufferUpdates_db, done_.db]
  case waiting =>
    intro other out
    simp only [List.map_append, List.map_cons, List.map_nil, List.mem_append, List.mem_singleton,
      not_or] at out
    rw [executeTransaction_heap, Function.update_of_ne out.2, done_.waiting other out.1]
  case executed =>
    intro other member
    simp only [List.map_append, List.map_cons, List.map_nil, List.mem_append, List.mem_singleton] at member
    rw [executeTransaction_heap, object]
    rcases member with member | rfl
    · have different : other ≠ r := fun equal => new (by rw [← equal]; exact member)
      rw [Function.update_of_ne different, done_.executed other member]
    · rw [Function.update_self]
  case buffered =>
    intro other member
    simp only [List.map_append, List.map_cons, List.map_nil, List.mem_append, List.mem_singleton] at member
    rw [executeTransaction_database, same]
    rcases member with member | rfl
    · have down := done_.latch (by rintro rfl; simp at member)
      have different : (start.heap other).tid ≠ (start.heap r).tid :=
        (List.pairwise_append.mp ready.distinct).2.2 other member r (by simp)
      rw [DatabaseImpl.bufferUpdates_other _ _ _ down different, done_.buffered other member]
    · exact DatabaseImpl.bufferUpdates_self _ _ _ _
  case latch =>
    intro _
    rw [executeTransaction_database]
    exact DatabaseImpl.bufferUpdates_commitPhase _ _ _ _
  case table =>
    rw [List.map_append, List.map_singleton]
    by_cases success : (start.invoke slotOf chaincode r).success = true
    · exact .inr (done_.table_success worker r ready success)
    · exact done_.table_failure worker r new (by simpa using success)

variable (slotOf chaincode) in
theorem executeAll_done {schedule : List (Nat × Ref)}
    (ready : start.EpochStart epoch (schedule.map Prod.snd)) :
    ReadDone slotOf chaincode start epoch schedule (start.executeAll slotOf chaincode schedule) := by
  induction schedule using List.reverseRecOn with
  | nil => exact .refl start epoch
  | append_singleton schedule iteration ih =>
    rw [List.map_append, List.map_singleton] at ready
    have done_ := ih (ready.sublist (List.sublist_append_left _ _))
    rw [executeAll, List.foldl_append]
    exact done_.step iteration.1 iteration.2 ready

end Shared

end Blockchain
