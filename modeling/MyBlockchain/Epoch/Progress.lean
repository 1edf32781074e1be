import Mathlib.Data.List.MinMax
import MyBlockchain.Block.MerkleRoot
import MyBlockchain.Library.Runs
import MyBlockchain.Transaction.FinishEpoch
import MyBlockchain.Worker.CommitPhase
import MyBlockchain.Worker.ConcurrentReadPhase

namespace Blockchain

namespace Shared

variable {Slot : Type} [DecidableEq Slot] {slotOf : SlotOf Slot} {read shared : Shared Slot} {done : List Ref}

/-- A state of a commit phase of transactions with any IDs, after the listed iterations. -/
structure CommitDecided (read : Shared Slot) (done : List Ref) (shared : Shared Slot) : Prop where
  waiting : ∀ r, r ∉ done → shared.heap r = read.heap r
  decided : ∀ r ∈ done, shared.heap r = (read.heap r).setTransactionResult (read.outcome r)
  provider : shared.provider = read.provider
  pointers : shared.reserveTable = read.reserveTable
  buffers : shared.database.commitPhase = true ∨ shared.database.rwSetBuffer = read.database.rwSetBuffer

/-- A worker may commit the transaction: it has the table, and something is buffered under the ID. -/
structure MayCommit (read : Shared Slot) (iteration : Nat × Ref) : Prop where
  points : (read.heap iteration.2).transactionResult ≠ .ABORT_NO_RETRY →
    read.reserveTable iteration.1 = some read.provider.destroyed.length ∧ read.provider.reserveTable.isSome
  buffered : (read.database.rwSetBuffer (read.heap iteration.2).tid).isSome

variable (slotOf) in
theorem CommitDecided.commitUpdate (committed : CommitDecided read done shared) (tid : Nat)
    (buffered : (read.database.rwSetBuffer tid).isSome) :
    ∃ database, shared.database.commitUpdate slotOf shared.heap tid = some (database, true) ∧
      database.commitPhase = true := by
  by_cases latched : shared.database.commitPhase = true
  · exact ⟨_, DatabaseImpl.commitUpdate_latched slotOf shared.heap tid latched, latched⟩
  · rw [Bool.not_eq_true] at latched
    have same := committed.buffers.resolve_left (by rw [latched]; decide)
    obtain ⟨kvRWSet, found⟩ := Option.isSome_iff_exists.mp buffered
    exact ⟨_, DatabaseImpl.commitUpdate_first slotOf shared.heap latched (by rw [same, found]), rfl⟩

variable (slotOf) in
theorem CommitDecided.step (committed : CommitDecided read done shared) (worker : Nat) {r : Ref} (new : r ∉ done)
    (may : read.MayCommit (worker, r)) :
    ∃ next, shared.commitTransaction slotOf worker r = some next ∧ CommitDecided read (done ++ [r]) next := by
  have object : shared.heap r = read.heap r := committed.waiting r new
  have decided : shared.outcome r = read.outcome r := outcome_congr object committed.provider
  obtain ⟨database, updated, latched⟩ := committed.commitUpdate slotOf _ may.buffered
  rw [← object] at updated
  have ran := commitTransaction_eq slotOf shared worker r (fun live => ?live) fun _ => updated
  case live =>
    rw [object] at live
    rw [committed.pointers, committed.provider]
    exact may.points live
  refine ⟨_, ran, ?_⟩
  rw [decided]
  constructor
  case waiting =>
    intro other out
    have apart : other ∉ done ∧ other ≠ r := by simpa using out
    simp only [setTransactionResult, Function.update_of_ne apart.2]
    exact committed.waiting other apart.1
  case decided =>
    intro other member
    by_cases same : other = r
    · subst same
      simp only [setTransactionResult, Function.update_self, object]
    · have earlier : other ∈ done := by simpa [same] using member
      simp only [setTransactionResult, Function.update_of_ne same]
      exact committed.decided other earlier
  case provider => exact committed.provider
  case pointers => exact committed.pointers
  case buffers =>
    dsimp only [setTransactionResult]
    split
    · exact .inl latched
    · exact committed.buffers

variable (slotOf) in
theorem commitAll_decided (read : Shared Slot) {schedule : List (Nat × Ref)}
    (nodup : (schedule.map Prod.snd).Nodup) (may : ∀ iteration ∈ schedule, read.MayCommit iteration) :
    ∃ final, read.commitAll slotOf schedule = some final ∧
      CommitDecided read (schedule.map Prod.snd) final := by
  induction schedule using List.reverseRecOn with
  | nil => exact ⟨read, rfl, fun _ _ => rfl, by simp, rfl, rfl, .inr rfl⟩
  | append_singleton schedule iteration ih =>
    rw [List.map_append, List.map_singleton] at nodup ⊢
    obtain ⟨before, -, apart⟩ := List.nodup_append.mp nodup
    have new : iteration.2 ∉ schedule.map Prod.snd := fun member => apart _ member _ (by simp) rfl
    obtain ⟨middle, run, committed⟩ := ih before fun i member => may i (List.mem_append_left _ member)
    obtain ⟨final, last, committed⟩ := committed.step slotOf iteration.1 new (may iteration (by simp))
    refine ⟨final, ?_, committed⟩
    unfold commitAll at run ⊢
    rw [List.foldlM_append, run]
    simpa using last

end Shared

namespace ReadWorld

variable {Slot : Type} {world : ReadWorld Slot} {initial : Shared Slot} {epoch : Nat} {refs : List Ref}
  {workloads : Nat → List Ref}

theorem Reading.mayCommit (reading : Reading initial epoch refs workloads world) (done : world.Done)
    {iteration : Nat × Ref} (own : iteration.2 ∈ workloads iteration.1) : world.shared.MayCommit iteration := by
  obtain ⟨queue, running⟩ := done iteration.1
  have through : iteration.2 ∉ (world.workers iteration.1).queue := by
    rw [queue]
    exact List.not_mem_nil
  constructor
  · intro live
    obtain ⟨pointer, table, owned, -⟩ := reading.pointed iteration.1 iteration.2 own through live
    exact ⟨pointer, by rw [owned]; rfl⟩
  · exact (reading.buffered iteration.1 iteration.2 own through (by simp [running])).2

/-- No cell holds an ID below the smallest one, so a transaction with that ID has no dependency. -/
theorem Reading.minimal_outcome (reading : Reading initial epoch refs workloads world) (done : world.Done)
    {worker : Nat} {r : Ref} (own : r ∈ workloads worker)
    (minimal : ∀ s ∈ refs, (initial.heap r).tid ≤ (initial.heap s).tid) : world.shared.outcome r ≠ .ABORT := by
  unfold Shared.outcome
  split
  · decide
  · next live =>
    obtain ⟨-, table, owned, atEpoch⟩ :=
      reading.pointed worker r own (by rw [(done worker).1]; exact List.not_mem_nil) live
    rw [owned, Option.getD_some]
    have free : ∀ cell, reservedBefore (table.cells cell) (world.shared.heap r).tid = false := by
      intro cell
      unfold reservedBefore
      rw [decide_eq_false_iff_not, reading.tid]
      rcases reading.cells table owned atEpoch cell with zero | ⟨s, member, same⟩
      · omega
      · have bound := minimal s member
        omega
    have waw : (table.dependencyAnalysis (world.shared.heap r).kvrwSet (world.shared.heap r).tid).waw = false := by
      simp only [MockReserveTable.dependencyAnalysis, List.any_eq_false]
      intro write _
      rw [Bool.not_eq_true]
      exact free (.writer (write.table, write.key))
    have war : (table.dependencyAnalysis (world.shared.heap r).kvrwSet (world.shared.heap r).tid).war = false := by
      simp only [MockReserveTable.dependencyAnalysis, List.any_eq_false]
      intro write _
      rw [Bool.not_eq_true]
      exact free (.reader (write.table, write.key))
    dsimp only
    unfold TransactionDependency.outcome
    rw [waw, war]
    simp

theorem outcome_ne_pending (world : ReadWorld Slot) (r : Ref) : world.shared.outcome r ≠ .PENDING := by
  unfold Shared.outcome
  split
  · decide
  · dsimp only
    rcases TransactionDependency.outcome_cases
      ((world.shared.provider.reserveTable.getD (.new 0)).dependencyAnalysis (world.shared.heap r).kvrwSet
        (world.shared.heap r).tid) with commit | abort
    · rw [commit]
      decide
    · rw [abort]
      decide

end ReadWorld

/-- The worker's share of an epoch; every transaction has one worker at least. -/
def Split (refs : List Ref) (workloads : Nat → List Ref) : Prop :=
  ∀ r, r ∈ refs ↔ ∃ worker, r ∈ workloads worker

open BlockStorageToFile MerkleTree in
/-- Transactions with the smallest ID are never retried, so that an epoch with transactions has a block with
entries, and `mt_get_root` finds a leaf. -/
theorem epoch_progress {Slot : Type} [DecidableEq Slot] (slotOf : SlotOf Slot) (chaincode : Chaincode)
    (initial : Shared Slot) (epoch : Nat) (refs : List Ref) (workloads : Nat → List Ref)
    (opens : initial.EpochOpens epoch refs) (nonempty : refs ≠ []) (nodup : refs.Nodup)
    (split : Split refs workloads) (moves : List (Nat × Bool)) (world : ReadWorld Slot)
    (ran : (ReadWorld.start initial workloads).run slotOf chaincode moves = some world) (done : world.Done)
    (commits : List (Nat × Ref)) (all : (commits.map Prod.snd).Perm refs)
    (own : ∀ iteration ∈ commits, iteration.2 ∈ workloads iteration.1) :
    ∃ final, world.shared.commitAll slotOf commits = some final ∧
      (∀ r ∈ refs, (∀ s ∈ refs, (initial.heap r).tid ≤ (initial.heap s).tid) →
        (final.heap r).transactionResult ≠ .ABORT) ∧
      ∀ (loop : FinishEpoch) (nextEpoch : Nat) (order : List Ref), loop.heap = final.heap →
        loop.nextEpochTrWrapper.epoch = nextEpoch → order.Perm refs →
        (∃ r ∈ refs, r ∈ (loop.finishAll nextEpoch order).transactionQueue) ∧
        ∀ crypto proto storage after block,
          storage.transactionQueue = (loop.finishAll nextEpoch order).transactionQueue →
          generateBlockBody crypto proto (loop.finishAll nextEpoch order).heap storage Block.new =
            some (after, block) →
          (∃ r ∈ refs, (((loop.finishAll nextEpoch order).heap r).serializeToString proto crypto.sha256).1 ∈
            block.data) ∧
          ∀ mt, (leafDigests crypto block.data).foldlM (add crypto.sha256) create = some mt →
            mt.level (mt.rootLevel treeLevels 0) ≠ [] := by
  have listed : ∀ worker, ∀ r ∈ workloads worker, r ∈ refs := fun worker r member => (split r).mpr ⟨worker, member⟩
  have reading := ReadWorld.run_reading opens listed ran
  obtain ⟨final, committed, decided⟩ := Shared.commitAll_decided slotOf world.shared
    (all.nodup_iff.mpr nodup) fun iteration member => reading.mayCommit done (own iteration member)
  have result : ∀ r ∈ refs, (final.heap r).transactionResult = world.shared.outcome r := by
    intro r member
    rw [decided.decided r (all.mem_iff.mpr member)]
    rfl
  have kept : ∀ r ∈ refs, (∀ s ∈ refs, (initial.heap r).tid ≤ (initial.heap s).tid) →
      (final.heap r).transactionResult ≠ .ABORT := by
    intro r member minimal
    obtain ⟨worker, mine⟩ := (split r).mp member
    rw [result r member]
    exact reading.minimal_outcome done mine minimal
  refine ⟨final, committed, kept, fun loop nextEpoch order heap wrapper perm => ?_⟩
  obtain ⟨r, smallest⟩ : ∃ r, r ∈ refs.argmin fun r => (initial.heap r).tid :=
    Option.ne_none_iff_exists'.mp (mt List.argmin_eq_none.mp nonempty)
  have member : r ∈ refs := List.argmin_mem smallest
  have minimal : ∀ s ∈ refs, (initial.heap r).tid ≤ (initial.heap s).tid := by
    intro s other
    have bound := List.le_of_mem_argmin other smallest
    exact bound
  have finished := FinishEpoch.finishAll_finished nextEpoch loop (perm.nodup_iff.mpr nodup) wrapper
  have queued : r ∈ (loop.finishAll nextEpoch order).transactionQueue := by
    rw [finished.queue]
    apply List.mem_append_right
    refine List.mem_filter.mpr ⟨perm.mem_iff.mpr member, ?_⟩
    have notAborted := kept r member minimal
    have notPending : (final.heap r).transactionResult ≠ .PENDING := by
      rw [result r member]
      exact ReadWorld.outcome_ne_pending world r
    rw [heap]
    cases outcome : (final.heap r).transactionResult with
    | COMMIT | ABORT_NO_RETRY => simp
    | ABORT => exact absurd outcome notAborted
    | PENDING => exact absurd outcome notPending
  refine ⟨⟨r, member, queued⟩, fun crypto proto storage after block queue body => ?_⟩
  rw [generateBlockBody_new] at body
  cases body
  have entry : (((loop.finishAll nextEpoch order).heap r).serializeToString proto crypto.sha256).1 ∈
      (newBody crypto proto (loop.finishAll nextEpoch order).heap storage.transactionQueue).data := by
    refine List.mem_map.mpr ⟨r, ?_, rfl⟩
    rw [(popAll_perm _ _).mem_iff, queue]
    exact queued
  refine ⟨⟨r, member, entry⟩, fun mt added => ?_⟩
  refine (rootLevel_spec mt treeLevels 0 (by decide) (by decide) (foldlM_leaf ?_ added)).1
  rw [leafDigests, ne_eq, List.map_eq_nil_iff]
  exact List.ne_nil_of_mem entry

section TwoWriters

/-- A chaincode that reads one key and writes it. -/
def incrementOneKey : Chaincode := fun _ _ _ =>
  { success := true
    rwSet := { reads := [⟨[1], [], []⟩], writes := [⟨[], [1], false, [2]⟩] }
    tableList := [] }

def twoWriters : Shared Bytes where
  heap r := { MockTransaction.new with epoch := 1, tid := r }
  database := .initial fun _ => none
  provider := .initial
  reserveTable _ := none

def oneEach (worker : Nat) : List Ref := if worker = 0 then [7] else if worker = 1 then [8] else []

/-- The two workers take turns at every access. -/
def takingTurns : List (Nat × Bool) := (List.replicate 10 [(1, false), (0, false)]).flatten

def finishLoop (heap : Heap) : FinishEpoch :=
  { heap, nextEpochTrWrapper := .new 2, trWrapper := .new 2, transactionQueue := [] }

theorem ReadWorld.run_other {Slot : Type} {slotOf : SlotOf Slot} {chaincode : Chaincode} {world after : ReadWorld Slot}
    {moves : List (Nat × Bool)} (ran : world.run slotOf chaincode moves = some after) {worker : Nat}
    (other : ∀ move ∈ moves, move.1 ≠ worker) : after.workers worker = world.workers worker := by
  refine Runs.invariant_along (fun reached => reached.workers worker = world.workers worker)
    (fun {state move next} stepped (apart : move.1 ≠ worker) same => ?_) ran
    (Runs.along_of_forall fun move member _ => other move member) rfl
  cases ReadWorld.step_cases stepped with
  | invoke r rest =>
    rw [← same]
    unfold ReadWorld.invoke
    dsimp only
    split
    · exact Function.update_of_ne (Ne.symm apart) ..
    · exact Function.update_of_ne (Ne.symm apart) ..
  | buffer | accessed =>
    rw [← same]
    exact Function.update_of_ne (Ne.symm apart) ..

/-- Transactions 7 and 8 write one key at the same time: 7 goes into the block, 8 is retried. -/
theorem epoch_progress_two_writers : ∃ world final,
    (ReadWorld.start twoWriters oneEach).run LevelDBStorage.slotOf incrementOneKey takingTurns = some world ∧
    world.shared.commitAll LevelDBStorage.slotOf [(1, 8), (0, 7)] = some final ∧
    (final.heap 7).transactionResult = .COMMIT ∧ (final.heap 8).transactionResult = .ABORT ∧
    ∃ storage after block mt,
      BlockStorageToFile.generateBlockBody counterCrypto counterProto ((finishLoop final.heap).finishAll 2 [8, 7]).heap
        storage Block.new = some (after, block) ∧
      (∃ r ∈ [7, 8], ((((finishLoop final.heap).finishAll 2 [8, 7]).heap r).serializeToString counterProto
        counterCrypto.sha256).1 ∈ block.data) ∧
      (BlockStorageToFile.leafDigests counterCrypto block.data).foldlM (MerkleTree.add counterCrypto.sha256)
        MerkleTree.create = some mt ∧
      mt.level (mt.rootLevel MerkleTree.treeLevels 0) ≠ [] := by
  have split : Split [7, 8] oneEach := by
    intro r
    constructor
    · intro member
      rcases List.mem_cons.mp member with rfl | member
      · exact ⟨0, by decide⟩
      · rw [List.mem_singleton.mp member]
        exact ⟨1, by decide⟩
    · rintro ⟨worker, member⟩
      unfold oneEach at member
      split at member
      · exact List.mem_cons.mpr (.inl (List.mem_singleton.mp member))
      · split at member
        · exact List.mem_cons_of_mem _ member
        · cases member
  have through : ((ReadWorld.start twoWriters oneEach).run LevelDBStorage.slotOf incrementOneKey takingTurns).map
      (fun world => [0, 1].all fun worker => (world.workers worker).queue.isEmpty &&
        (world.workers worker).running.isNone) = some true := by
    decide +kernel
  obtain ⟨world, ran, idle⟩ := Option.map_eq_some_iff.mp through
  simp only [List.all_cons, List.all_nil, Bool.and_true, Bool.and_eq_true, List.isEmpty_iff,
    Option.isNone_iff_eq_none] at idle
  have done : world.Done := by
    intro worker
    by_cases first : worker = 0
    · rw [first]
      exact idle.1
    · by_cases second : worker = 1
      · rw [second]
        exact idle.2
      · have moved : ∀ move ∈ takingTurns, move.1 = 0 ∨ move.1 = 1 := by decide
        rw [ReadWorld.run_other ran fun move member same => by have turn := moved move member; omega]
        simp [ReadWorld.start, oneEach, first, second]
  obtain ⟨final, committed, -, blocks⟩ := epoch_progress LevelDBStorage.slotOf incrementOneKey twoWriters 1 [7, 8]
    oneEach ⟨fun _ _ => rfl, fun _ _ => rfl, fun table owned => by cases owned⟩ (by decide) (by decide) split
    takingTurns world ran done [(1, 8), (0, 7)] (by decide) (by decide)
  have computed : ((ReadWorld.start twoWriters oneEach).run LevelDBStorage.slotOf incrementOneKey takingTurns).bind
      (fun world => (world.shared.commitAll LevelDBStorage.slotOf [(1, 8), (0, 7)]).map fun final =>
        let finished := (finishLoop final.heap).finishAll 2 [8, 7]
        let block := BlockStorageToFile.newBody counterCrypto counterProto finished.heap finished.transactionQueue
        ((final.heap 7).transactionResult, (final.heap 8).transactionResult,
          ((BlockStorageToFile.leafDigests counterCrypto block.data).foldlM (MerkleTree.add counterCrypto.sha256)
            MerkleTree.create).isSome)) = some (.COMMIT, .ABORT, true) := by
    decide +kernel
  rw [ran, Option.bind_some, committed, Option.map_some, Option.some.injEq] at computed
  simp only [Prod.mk.injEq] at computed
  obtain ⟨seventh, eighth, built⟩ := computed
  obtain ⟨mt, added⟩ := Option.isSome_iff_exists.mp built
  let queue := ((finishLoop final.heap).finishAll 2 [8, 7]).transactionQueue
  have body := BlockStorageToFile.generateBlockBody_new counterCrypto counterProto
    ((finishLoop final.heap).finishAll 2 [8, 7]).heap { transactionQueue := queue, blockNum := 0, files := fun _ => none }
  obtain ⟨-, both⟩ := blocks (finishLoop final.heap) 2 [8, 7] rfl rfl (by decide)
  obtain ⟨entries, leaves⟩ := both counterCrypto counterProto _ _ _ rfl body
  exact ⟨world, final, ran, committed, seventh, eighth, _, _, _, mt, body, entries, added, leaves mt added⟩

end TwoWriters

end Blockchain
