import MyBlockchain.Worker.EpochRun

namespace Blockchain

open Interleaving Overwrite

namespace Shared

variable {Slot : Type} {slotOf : SlotOf Slot} {chaincode : Chaincode} {epoch : Nat} {refs : List Ref}

theorem executed_reads (records : chaincode.Records) {start : Shared Slot}
    (ready : start.EpochStart epoch refs) {r : Ref} (member : r ∈ refs) :
    ∀ read ∈ (start.executed slotOf chaincode r).kvrwSet.reads,
      read.value = selectDB slotOf start.database.db (read.table, read.key) := by
  intro read listed
  rw [executed, (ready.fresh r member).empty, KVRWSet.empty_append] at listed
  exact records _ _ _ read listed

/-- A storage that keeps tables apart shows a key unchanged until some transaction writes it. -/
theorem selectDB_unwritten (heap : Heap) (db : Contents (Bytes × Bytes)) (before : List Ref)
    (key : Bytes × Bytes) (unwritten : ∀ s ∈ before, key ∉ (heap s).kvrwSet.writeKeys) :
    selectDB tableSlotOf (overwrite db (before.flatMap fun s => (heap s).kvrwSet.effects tableSlotOf)) key =
      selectDB tableSlotOf db key := by
  unfold selectDB
  rw [overwrite_of_forall_ne]
  intro write member same
  obtain ⟨s, earlier, effect⟩ := List.mem_flatMap.mp member
  obtain ⟨kvWrite, listed, rfl⟩ := List.mem_map.mp effect
  exact unwritten s earlier ⟨kvWrite, listed, same⟩

end Shared

open Shared

/-- The committed transactions of an epoch write disjoint sets of keys, and in some serial order from the
database at its start each of them reads the values it has recorded. -/
theorem epoch_serializable (chaincode : Chaincode) (records : chaincode.Records)
    (start : Shared (Bytes × Bytes)) (epoch : Nat) (workloads : List (Nat × List Ref))
    (ready : start.EpochStart epoch (workloads.flatMap Prod.snd)) (executes commits : List (Nat × Ref))
    (executing : Merge (workloads.map iterations) executes)
    (committing : Merge (workloads.map iterations) commits) :
    ∃ final, start.runEpoch tableSlotOf chaincode executes commits = some final ∧
      (∀ r ∈ workloads.flatMap Prod.snd, ∀ s ∈ workloads.flatMap Prod.snd, r ≠ s →
        (final.heap r).transactionResult = .COMMIT → (final.heap s).transactionResult = .COMMIT →
        ∀ key ∈ (final.heap r).kvrwSet.writeKeys, key ∉ (final.heap s).kvrwSet.writeKeys) ∧
      ∃ order : List Ref, order.Nodup ∧
        (∀ r, r ∈ order ↔ r ∈ workloads.flatMap Prod.snd ∧ (final.heap r).transactionResult = .COMMIT) ∧
        ∀ before r after, order = before ++ r :: after →
          ∀ read ∈ (final.heap r).kvrwSet.reads,
            read.value = selectDB tableSlotOf (overwrite start.database.db
              (before.flatMap fun s => (final.heap s).kvrwSet.effects tableSlotOf)) (read.table, read.key) := by
  have perm : (executes.map Prod.snd).Perm (workloads.flatMap Prod.snd) := merge_refs executing
  have same : (commits.map Prod.snd).Perm (workloads.flatMap Prod.snd) := merge_refs committing
  have ready_ := ready.perm perm
  obtain ⟨between, final, result⟩ := runEpoch_result tableSlotOf chaincode
    (committing.perm.trans executing.perm.symm) ready_
  have object : ∀ r ∈ workloads.flatMap Prod.snd, final.heap r =
      (start.executed tableSlotOf chaincode r).setTransactionResult (between.outcome r) := fun r member =>
    result.heap (perm.mem_iff.mpr member) (same.mem_iff.mpr member)
  have accepted : ∀ r ∈ workloads.flatMap Prod.snd, (final.heap r).transactionResult = .COMMIT →
      start.Accepted tableSlotOf chaincode (executes.map Prod.snd) r := fun r member commit => by
    rw [object r member] at commit
    exact (result.executed.outcome_commit_iff ready_ (perm.mem_iff.mpr member)).mp commit
  refine ⟨final, result.run, ?disjoint, ?serial⟩
  case disjoint =>
    intro r hr s hs different commitR commitS
    have apart : ∀ key ∈ start.writeKeys tableSlotOf chaincode r, key ∉ start.writeKeys tableSlotOf chaincode s :=
      BatchOrder.accepted_writes_disjoint (accepted r hr commitR) (accepted s hs commitS)
        (ready.tid_ne hr hs different)
    rw [object r hr, object s hs]
    exact apart
  case serial =>
    let members := (workloads.flatMap Prod.snd).filter fun r => (final.heap r).transactionResult = .COMMIT
    have distinct : members.Pairwise fun r s => start.rank r ≠ start.rank s :=
      ready.distinct.sublist List.filter_sublist
    obtain ⟨order, permuted, sorted⟩ := BatchOrder.exists_order start.rank
      (start.readKeys tableSlotOf chaincode) (start.writeKeys tableSlotOf chaincode)
      (start.reservers tableSlotOf chaincode (executes.map Prod.snd)) members distinct
    have listed : ∀ r, r ∈ order ↔
        r ∈ workloads.flatMap Prod.snd ∧ (final.heap r).transactionResult = .COMMIT := fun r => by
      rw [permuted.mem_iff, List.mem_filter, decide_eq_true_eq]
    refine ⟨order, permuted.nodup_iff.mpr (ready.nodup.filter _), listed, ?_⟩
    rintro before r after rfl read member
    have hr := ((listed r).mp (by simp)).1
    have objects : ∀ s ∈ before, (final.heap s).kvrwSet = (start.executed tableSlotOf chaincode s).kvrwSet :=
      fun s earlier => by rw [object s ((listed s).mp (by simp [earlier])).1]; rfl
    rw [object r hr] at member
    rw [selectDB_unwritten]
    · exact executed_reads records ready hr read member
    · intro s earlier
      rw [objects s earlier]
      exact BatchOrder.earlier_writes_avoid_reads sorted
        (fun t inOrder => accepted t ((listed t).mp inOrder).1 ((listed t).mp inOrder).2)
        (permuted.symm.pairwise distinct fun different => different.symm) earlier ⟨read, member, rfl⟩

section TwoCounters

/-- Transaction 1 increments the counter `a`, every other one increments `b`. -/
def counterEpoch (Slot : Type) : Shared Slot where
  heap r := counterTransaction r (bytesOf (if r = 1 then "a" else "b"))
  database := .initial fun _ => none
  provider := .initial
  reserveTable _ := none

theorem counterEpoch_ready (Slot : Type) : (counterEpoch Slot).EpochStart 1 [1, 2] where
  distinct := by simp [counterEpoch, counterTransaction]
  nonzero := by simp [counterEpoch, counterTransaction]
  epochs := by simp [counterEpoch, counterTransaction]
  fresh r _ := ⟨rfl, rfl⟩
  stale := by simp [counterEpoch, ReserveTableProvider.initial]

theorem epoch_serializable_counters :
    ∃ final, (counterEpoch (Bytes × Bytes)).runEpoch tableSlotOf
        (ORMTestChaincode.InvokeChaincode counterInputs) [(0, 1), (7, 2)] [(0, 1), (7, 2)] = some final ∧
      (∀ r ∈ [1, 2], ∀ s ∈ [1, 2], r ≠ s →
        (final.heap r).transactionResult = .COMMIT → (final.heap s).transactionResult = .COMMIT →
        ∀ key ∈ (final.heap r).kvrwSet.writeKeys, key ∉ (final.heap s).kvrwSet.writeKeys) ∧
      ∃ order : List Ref, order.Nodup ∧
        (∀ r, r ∈ order ↔ r ∈ [1, 2] ∧ (final.heap r).transactionResult = .COMMIT) ∧
        ∀ before r after, order = before ++ r :: after →
          ∀ read ∈ (final.heap r).kvrwSet.reads,
            read.value = selectDB tableSlotOf (overwrite (fun _ => none)
              (before.flatMap fun s => (final.heap s).kvrwSet.effects tableSlotOf)) (read.table, read.key) :=
  epoch_serializable _ (ORMTestChaincode.records counterInputs) (counterEpoch _) 1 [(0, [1]), (7, [2])]
    (counterEpoch_ready _) _ _ (.sequential _) (.sequential _)

end TwoCounters

end Blockchain
