import MyBlockchain.Library.BatchOrder
import MyBlockchain.Library.Interleaving
import MyBlockchain.Worker.CommitPhase

namespace Blockchain

namespace Shared

open Interleaving

variable {Slot : Type} (slotOf : SlotOf Slot) (chaincode : Chaincode)

/-- All iterations of `executeList` in one order, then all those of `commitList` in another. -/
def runEpoch [DecidableEq Slot] (shared : Shared Slot) (executes commits : List (Nat × Ref)) :
    Option (Shared Slot) :=
  (shared.executeAll slotOf chaincode executes).commitAll slotOf commits

def rank (start : Shared Slot) (r : Ref) : Nat := (start.heap r).tid

def readKeys (start : Shared Slot) (r : Ref) : Set (Bytes × Bytes) :=
  (start.executed slotOf chaincode r).kvrwSet.readKeys

def writeKeys (start : Shared Slot) (r : Ref) : Set (Bytes × Bytes) :=
  (start.executed slotOf chaincode r).kvrwSet.writeKeys

def reservers (start : Shared Slot) (refs : List Ref) : Set Ref :=
  { r | r ∈ refs ∧ (start.invoke slotOf chaincode r).success = true }

/-- The rule of Aria on an epoch, with nothing of the reserve table in it. -/
abbrev Accepted (start : Shared Slot) (refs : List Ref) (r : Ref) : Prop :=
  BatchOrder.Accepted start.rank (start.readKeys slotOf chaincode) (start.writeKeys slotOf chaincode)
    (start.reservers slotOf chaincode refs) r

variable {slotOf chaincode} {start read : Shared Slot} {epoch : Nat} {refs : List Ref}
  {done : List (Nat × Ref)}

theorem exists_reservation (start : Shared Slot) (refs : List Ref) (P : KVRWSet × Nat → Prop) :
    (∃ call ∈ start.reservations slotOf chaincode refs, P call) ↔
      ∃ r ∈ start.reservers slotOf chaincode refs,
        P ((start.executed slotOf chaincode r).kvrwSet, start.rank r) := by
  simp [reservations, reservers, rank, List.mem_filter]

theorem ReadDone.failed_iff (done_ : ReadDone slotOf chaincode start epoch done read)
    (ready : start.EpochStart epoch (done.map Prod.snd)) {r : Ref} (member : r ∈ done.map Prod.snd) :
    (read.heap r).transactionResult = .ABORT_NO_RETRY ↔ (start.invoke slotOf chaincode r).success = false := by
  rw [done_.executed r member, Shared.executed, (ready.fresh r member).pending]
  cases (start.invoke slotOf chaincode r).success <;> simp

theorem ReadDone.prepared (done_ : ReadDone slotOf chaincode start epoch done read)
    (ready : start.EpochStart epoch (done.map Prod.snd)) {iteration : Nat × Ref}
    (member : iteration ∈ done) : read.Prepared iteration := by
  intro live
  have listed : iteration.2 ∈ done.map Prod.snd := List.mem_map_of_mem member
  have success : (start.invoke slotOf chaincode iteration.2).success = true := by
    by_contra failed
    exact live ((done_.failed_iff ready listed).mpr (by simpa using failed))
  have buffered := done_.buffered _ listed
  rcases done_.table with ⟨failures, -⟩ | ⟨address, owns, pointers⟩
  · exact absurd success (by simp [failures _ listed])
  · obtain ⟨table, owned, -⟩ := owns.table
    refine ⟨?_, by simp [owned], ?_, done_.latch (List.ne_nil_of_mem member)⟩
    · rw [pointers iteration member success, owns.address]
    · rw [done_.executed _ listed]
      exact buffered

theorem ReadDone.outcome_failed_iff (done_ : ReadDone slotOf chaincode start epoch done read)
    (ready : start.EpochStart epoch (done.map Prod.snd)) {r : Ref} (member : r ∈ done.map Prod.snd) :
    read.outcome r = .ABORT_NO_RETRY ↔ (start.invoke slotOf chaincode r).success = false := by
  rw [← done_.failed_iff ready member, outcome]
  split
  · simp [*]
  · rename_i live
    have decided := TransactionDependency.outcome_cases
      ((read.provider.reserveTable.getD (.new 0)).dependencyAnalysis (read.heap r).kvrwSet (read.heap r).tid)
    dsimp only
    rcases decided with decided | decided <;> simp [decided, live]

/-- The reserve table computes the rule of Aria, whatever the order of the reservations was. -/
theorem ReadDone.outcome_commit_iff (done_ : ReadDone slotOf chaincode start epoch done read)
    (ready : start.EpochStart epoch (done.map Prod.snd)) {r : Ref} (member : r ∈ done.map Prod.snd) :
    read.outcome r = .COMMIT ↔ start.Accepted slotOf chaincode (done.map Prod.snd) r := by
  rw [outcome]
  cases success : (start.invoke slotOf chaincode r).success with
  | false =>
    rw [if_pos ((done_.failed_iff ready member).mpr success)]
    constructor
    · intro impossible
      cases impossible
    · intro accepted
      exact absurd accepted.reserved.2 (by simp [success])
  | true =>
    have live : (read.heap r).transactionResult ≠ .ABORT_NO_RETRY := fun failed => by
      simp [(done_.failed_iff ready member).mp failed] at success
    rw [if_neg live]
    rcases done_.table with ⟨failures, -⟩ | ⟨address, owns, -⟩
    · simp [failures r member] at success
    · obtain ⟨table, owned, -, holds⟩ := owns.table
      simp only [owned, Option.getD_some, TransactionDependency.outcome_commit_iff, holds.waw_iff,
        holds.war_iff, holds.raw_iff, exists_reservation, done_.executed r member]
      exact ⟨fun passes => ⟨⟨member, success⟩, passes.1, passes.2⟩,
        fun accepted => ⟨accepted.not_waw, accepted.not_both⟩⟩

section Run

variable [DecidableEq Slot]

structure EpochResult (slotOf : SlotOf Slot) (chaincode : Chaincode) (start : Shared Slot) (epoch : Nat)
    (executes commits : List (Nat × Ref)) (read final : Shared Slot) : Prop where
  run : start.runEpoch slotOf chaincode executes commits = some final
  between : start.executeAll slotOf chaincode executes = read
  executed : ReadDone slotOf chaincode start epoch executes read
  committed : CommitDone slotOf read (commits.map Prod.snd) final

variable (slotOf chaincode) in
theorem runEpoch_result {executes commits : List (Nat × Ref)} (perm : commits.Perm executes)
    (ready : start.EpochStart epoch (executes.map Prod.snd)) :
    ∃ read final, EpochResult slotOf chaincode start epoch executes commits read final := by
  have done_ := executeAll_done slotOf chaincode ready
  have nodup : (commits.map Prod.snd).Nodup := (perm.map Prod.snd).nodup_iff.mpr ready.nodup
  obtain ⟨final, run, committed⟩ := commitAll_done slotOf _ nodup fun iteration member =>
    done_.prepared ready (perm.mem_iff.mp member)
  exact ⟨_, final, run, rfl, done_, committed⟩

theorem map_snd_iterations (workloads : List (Nat × List Ref)) :
    ((workloads.map iterations).flatten.map Prod.snd) = workloads.flatMap Prod.snd := by
  simp [iterations, List.map_flatten, List.flatMap, Function.comp_def]

theorem merge_refs {workloads : List (Nat × List Ref)} {schedule : List (Nat × Ref)}
    (merge : Merge (workloads.map iterations) schedule) :
    (schedule.map Prod.snd).Perm (workloads.flatMap Prod.snd) := by
  rw [← map_snd_iterations]
  exact merge.perm.map Prod.snd

variable {executes commits : List (Nat × Ref)} {final : Shared Slot}

theorem EpochResult.heap (result : EpochResult slotOf chaincode start epoch executes commits read final)
    {r : Ref} (executed : r ∈ executes.map Prod.snd) (committed : r ∈ commits.map Prod.snd) :
    final.heap r = (start.executed slotOf chaincode r).setTransactionResult (read.outcome r) := by
  rw [result.committed.decided r committed, result.executed.executed r executed]

end Run

end Shared

end Blockchain
