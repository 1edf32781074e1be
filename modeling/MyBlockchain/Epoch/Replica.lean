import MyBlockchain.Block.BlockStorageToFile
import MyBlockchain.Transaction.FinishEpoch
import MyBlockchain.Worker.EpochRun

namespace Blockchain

open Interleaving Overwrite Shared

/-- A server between two epochs. `retried` is the list of aborted transactions handed to the next epoch. -/
structure Replica (Slot : Type) where
  shared : Shared Slot
  storage : BlockStorageToFile
  epoch : Nat
  retried : List Ref

/-- What a server is free to choose in an epoch: the workloads, the order of the iterations of each phase,
and the order in which finished transactions reach the block. -/
structure Schedule where
  workloads : List (Nat × List Ref)
  executes : List (Nat × Ref)
  commits : List (Nat × Ref)
  order : List Ref

structure Schedule.Of (refs : List Ref) (schedule : Schedule) : Prop where
  split : (schedule.workloads.flatMap Prod.snd).Perm refs
  executing : Merge (schedule.workloads.map iterations) schedule.executes
  committing : Merge (schedule.workloads.map iterations) schedule.commits
  order : schedule.order.Perm refs

structure EpochOutcome (Slot : Type) where
  results : Ref → TransactionResult
  db : Contents Slot
  data : List Bytes
  resultString : Option Bytes

theorem Schedule.Of.executes {refs : List Ref} {schedule : Schedule} (valid : schedule.Of refs) :
    (schedule.executes.map Prod.snd).Perm refs :=
  (merge_refs valid.executing).trans valid.split

theorem Schedule.Of.commits {refs : List Ref} {schedule : Schedule} (valid : schedule.Of refs) :
    (schedule.commits.map Prod.snd).Perm refs :=
  (merge_refs valid.committing).trans valid.split

namespace Replica

variable {Slot : Type} (slotOf : SlotOf Slot) (chaincode : Chaincode)
  (proto : TransactionProto) (crypto : BlockCrypto)

/-- The state in which `TransactionManagerImpl::run` starts on a finished epoch. -/
def loop (replica : Replica Slot) (heap : Heap) : FinishEpoch where
  heap
  nextEpochTrWrapper := .new (replica.epoch + 1)
  trWrapper := .new (replica.epoch + 1)
  transactionQueue := replica.storage.transactionQueue

@[simp] theorem loop_heap (replica : Replica Slot) (heap : Heap) : (replica.loop heap).heap = heap := rfl

@[simp] theorem loop_queue (replica : Replica Slot) (heap : Heap) :
    (replica.loop heap).transactionQueue = replica.storage.transactionQueue := rfl

def runEpoch [DecidableEq Slot] (replica : Replica Slot) (schedule : Schedule) :
    Option (Replica Slot × EpochOutcome Slot) := do
  let final ← replica.shared.runEpoch slotOf chaincode schedule.executes schedule.commits
  let finished := (replica.loop final.heap).finishAll (replica.epoch + 1) schedule.order
  let storage := { replica.storage with transactionQueue := finished.transactionQueue }
  let (storage, block) ← storage.generateBlockBody crypto proto finished.heap .new
  let after : Replica Slot :=
    { shared := { final with heap := finished.heap }
      storage
      epoch := replica.epoch + 1
      retried := finished.nextEpochTrWrapper.transactionList }
  some (after,
    { results := fun r => (final.heap r).transactionResult
      db := final.database.db
      data := block.data
      resultString := block.metadata.head? })

structure Sound (replica : Replica Slot) : Prop where
  queue : replica.storage.transactionQueue = []
  fresh : ∀ r ∈ replica.retried, (replica.shared.heap r).Fresh
  epochs : ∀ r ∈ replica.retried, (replica.shared.heap r).epoch = replica.epoch
  nonzero : ∀ r ∈ replica.retried, (replica.shared.heap r).tid ≠ 0
  tables : ∀ table ∈ replica.shared.provider.reserveTable, table.epoch < replica.epoch

/-- New transactions of the epoch, with ids that no retried transaction has. -/
structure Arrives (replica : Replica Slot) (refs : List Ref) : Prop where
  distinct : (replica.retried ++ refs).Pairwise fun r s =>
    (replica.shared.heap r).tid ≠ (replica.shared.heap s).tid
  nonzero : ∀ r ∈ refs, (replica.shared.heap r).tid ≠ 0
  epochs : ∀ r ∈ refs, (replica.shared.heap r).epoch = replica.epoch
  fresh : ∀ r ∈ refs, (replica.shared.heap r).Fresh

/-- Two servers with the same history, as far as the transactions and the database go. -/
structure Agrees (first second : Replica Slot) : Prop where
  heap : first.shared.heap = second.shared.heap
  db : first.shared.database.db = second.shared.database.db
  epoch : first.epoch = second.epoch
  retried : first.retried.Perm second.retried

variable {slotOf chaincode proto crypto} {replica first second : Replica Slot} {refs : List Ref}

theorem Sound.ready (sound : replica.Sound) (arrives : replica.Arrives refs) :
    replica.shared.EpochStart replica.epoch (replica.retried ++ refs) where
  distinct := arrives.distinct
  nonzero r member := (List.mem_append.mp member).elim (sound.nonzero r) (arrives.nonzero r)
  epochs r member := (List.mem_append.mp member).elim (sound.epochs r) (arrives.epochs r)
  fresh r member := (List.mem_append.mp member).elim (sound.fresh r) (arrives.fresh r)
  stale table owned := Nat.ne_of_lt (sound.tables table owned)

variable [DecidableEq Slot]

/-- The steps of an epoch, one after the other. -/
structure EpochTrace (slotOf : SlotOf Slot) (chaincode : Chaincode) (proto : TransactionProto)
    (crypto : BlockCrypto) (replica : Replica Slot) (schedule : Schedule) (after : Replica Slot)
    (outcome : EpochOutcome Slot) (read final : Shared Slot) (finished : FinishEpoch) : Prop where
  ran : EpochResult slotOf chaincode replica.shared replica.epoch schedule.executes schedule.commits read final
  looped : (replica.loop final.heap).Finished (replica.epoch + 1) schedule.order finished
  results : outcome.results = fun r => (final.heap r).transactionResult
  db : outcome.db = final.database.db
  data : outcome.data = (BlockStorageToFile.popAll finished.heap finished.transactionQueue).map fun r =>
    ((finished.heap r).serializeToString proto crypto.sha256).1
  resultString : outcome.resultString =
    some ((BlockStorageToFile.popAll finished.heap finished.transactionQueue).map fun r =>
      crypto.resultByte (finished.heap r).transactionResult)
  shared : after.shared = { final with heap := finished.heap }
  epoch : after.epoch = replica.epoch + 1
  retried : after.retried = finished.nextEpochTrWrapper.transactionList
  queue : after.storage.transactionQueue = []

variable (slotOf chaincode proto crypto) in
theorem runEpoch_trace (sound : replica.Sound) (arrives : replica.Arrives refs) {schedule : Schedule}
    (valid : schedule.Of (replica.retried ++ refs)) :
    ∃ after outcome read final finished,
      replica.runEpoch slotOf chaincode proto crypto schedule = some (after, outcome) ∧
      EpochTrace slotOf chaincode proto crypto replica schedule after outcome read final finished := by
  have ready := (sound.ready arrives).perm valid.executes
  obtain ⟨read, final, ran⟩ := runEpoch_result slotOf chaincode
    (valid.committing.perm.trans valid.executing.perm.symm) ready
  have nodup : schedule.order.Nodup := valid.order.nodup_iff.mpr (sound.ready arrives).nodup
  have finished := FinishEpoch.finishAll_finished (replica.epoch + 1) (replica.loop final.heap) nodup rfl
  obtain ⟨blkSignature, body⟩ := BlockStorageToFile.generateBlockBody_eq crypto proto
    ((replica.loop final.heap).finishAll (replica.epoch + 1) schedule.order).heap
    { replica.storage with
      transactionQueue := ((replica.loop final.heap).finishAll (replica.epoch + 1) schedule.order).transactionQueue }
    Block.new
  rw [runEpoch, ran.run]
  simp only [Option.bind_eq_bind, Option.bind_some, body]
  exact ⟨_, _, read, final, _, rfl, ran, finished, rfl, rfl, rfl, rfl, rfl, rfl, rfl, rfl⟩

theorem trace_of_run (sound : replica.Sound) (arrives : replica.Arrives refs) {schedule : Schedule}
    (valid : schedule.Of (replica.retried ++ refs)) {after : Replica Slot} {outcome : EpochOutcome Slot}
    (run : replica.runEpoch slotOf chaincode proto crypto schedule = some (after, outcome)) :
    ∃ read final finished,
      EpochTrace slotOf chaincode proto crypto replica schedule after outcome read final finished := by
  obtain ⟨after_, outcome_, read, final, finished, same, trace⟩ :=
    runEpoch_trace slotOf chaincode proto crypto sound arrives valid
  rw [run, Option.some.injEq, Prod.mk.injEq] at same
  obtain ⟨rfl, rfl⟩ := same
  exact ⟨read, final, finished, trace⟩

end Replica

end Blockchain
