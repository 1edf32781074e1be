import MyBlockchain.Epoch.Serializable

namespace Blockchain

open Interleaving Overwrite

namespace Shared

variable {Slot : Type} {slotOf : SlotOf Slot} {chaincode : Chaincode} {start read final : Shared Slot}
  {epoch : Nat} {executes commits : List (Nat × Ref)}

theorem effects_congr {other : Shared Slot} {refs : List Ref}
    (same : ∀ r ∈ refs, (other.heap r).kvrwSet = (read.heap r).kvrwSet) :
    other.effects slotOf refs = read.effects slotOf refs :=
  List.flatMap_congr fun r member => by rw [same r member]

variable [DecidableEq Slot]

theorem CommitDone.committed_eq {done : List Ref} (committed : CommitDone slotOf read done final) :
    done.filter (fun r => (final.heap r).transactionResult = .COMMIT) = read.passing done := by
  refine List.filter_congr fun r member => ?_
  rw [committed.decided r member]
  rfl

theorem CommitDone.effects_eq {done : List Ref} (committed : CommitDone slotOf read done final) {refs : List Ref}
    (listed : ∀ r ∈ refs, r ∈ done) : final.effects slotOf refs = read.effects slotOf refs :=
  effects_congr fun r member => by rw [committed.decided r (listed r member)]; rfl

end Shared

open Shared

/-- At the end of an epoch the database is the old one overwritten by the write sets of all transactions
marked COMMIT exactly when all of these but the first one leave it as the first one left it. -/
theorem commit_stores_committed_iff {Slot : Type} [DecidableEq Slot] (slotOf : SlotOf Slot)
    (chaincode : Chaincode) (start : Shared Slot) (epoch : Nat) (workloads : List (Nat × List Ref))
    (ready : start.EpochStart epoch (workloads.flatMap Prod.snd)) (executes commits : List (Nat × Ref))
    (executing : Merge (workloads.map iterations) executes)
    (committing : Merge (workloads.map iterations) commits) :
    ∃ final, start.runEpoch slotOf chaincode executes commits = some final ∧
      (final.database.db = overwrite start.database.db (final.effects slotOf
          ((commits.map Prod.snd).filter fun r => (final.heap r).transactionResult = .COMMIT)) ↔
        ∀ first rest,
          (start.executeAll slotOf chaincode executes).passing (commits.map Prod.snd) = first :: rest →
          ∀ slot value,
            lastWrite ((start.executeAll slotOf chaincode executes).effects slotOf rest) slot = some value →
            overwrite start.database.db
              ((start.executeAll slotOf chaincode executes).effects slotOf [first]) slot = value) := by
  have ready_ := ready.perm (merge_refs executing)
  obtain ⟨read, final, result⟩ := runEpoch_result slotOf chaincode
    (committing.perm.trans executing.perm.symm) ready_
  have listed : ∀ r ∈ read.passing (commits.map Prod.snd), r ∈ commits.map Prod.snd := fun r member =>
    (List.mem_filter.mp member).1
  refine ⟨final, result.run, ?_⟩
  rw [result.between, result.committed.committed_eq, result.committed.effects_eq listed,
    result.committed.database]
  cases passing : read.passing (commits.map Prod.snd) with
  | nil => simp [latched, effects, result.executed.db]
  | cons first rest =>
    have split : read.effects slotOf (first :: rest) =
        read.effects slotOf [first] ++ read.effects slotOf rest := by simp [effects]
    rw [split, overwrite_append, latched, result.executed.db]
    constructor
    · rintro stored _ _ ⟨rfl, rfl⟩
      exact (overwrite_eq_self_iff _ _).mp stored.symm
    · intro settled
      exact ((overwrite_eq_self_iff _ _).mpr (settled first rest rfl)).symm

theorem commit_stores_committed_iff_counters :
    ∃ final, (counterEpoch Bytes).runEpoch LevelDBStorage.slotOf
        (ORMTestChaincode.InvokeChaincode counterInputs) [(0, 1), (7, 2)] [(0, 1), (7, 2)] = some final ∧
      (final.database.db = overwrite (fun _ => none) (final.effects LevelDBStorage.slotOf
          ([1, 2].filter fun r => (final.heap r).transactionResult = .COMMIT)) ↔
        ∀ first rest, ((counterEpoch Bytes).executeAll LevelDBStorage.slotOf
            (ORMTestChaincode.InvokeChaincode counterInputs) [(0, 1), (7, 2)]).passing [1, 2] = first :: rest →
          ∀ slot value, lastWrite (((counterEpoch Bytes).executeAll LevelDBStorage.slotOf
              (ORMTestChaincode.InvokeChaincode counterInputs) [(0, 1), (7, 2)]).effects LevelDBStorage.slotOf
                rest) slot = some value →
            overwrite (fun _ => none) (((counterEpoch Bytes).executeAll LevelDBStorage.slotOf
              (ORMTestChaincode.InvokeChaincode counterInputs) [(0, 1), (7, 2)]).effects LevelDBStorage.slotOf
                [first]) slot = value) :=
  commit_stores_committed_iff LevelDBStorage.slotOf _ (counterEpoch Bytes) 1 [(0, [1]), (7, [2])]
    (counterEpoch_ready _) _ _ (.sequential _) (.sequential _)

theorem second_counter_not_stored :
    ∃ final, (counterEpoch Bytes).runEpoch LevelDBStorage.slotOf
        (ORMTestChaincode.InvokeChaincode counterInputs) [(0, 1), (7, 2)] [(0, 1), (7, 2)] = some final ∧
      (final.heap 1).transactionResult = .COMMIT ∧ (final.heap 2).transactionResult = .COMMIT ∧
      final.database.db (bytesOf "b") = none ∧
      final.database.db ≠ overwrite (fun _ => none) (final.effects LevelDBStorage.slotOf
        ([1, 2].filter fun r => (final.heap r).transactionResult = .COMMIT)) := by
  refine ⟨_, rfl, by decide, by decide, by decide, fun same => ?_⟩
  have second := congrFun same (bytesOf "b")
  revert second
  decide

end Blockchain
