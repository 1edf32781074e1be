import MyBlockchain.Coordinator.Invariants

namespace Blockchain

theorem WorkerInstance.toExecute_finished {worker : WorkerInstance}
    (finished : Stage.finishExecute ∈ worker.stages) :
    worker.toExecute = [] := by
  obtain ⟨signal, state, workload, pc⟩ := worker
  cases pc with
  | start | executing => simp [stages] at finished
  | waitRead =>
    by_cases ready : state = .READY
    · simp [toExecute, ready]
    · simp [stages, ready] at finished
  | executed | waitCommit | committing | committed | exiting | exited => rfl

namespace Server

variable {Slot : Type}

/-- The phases of an epoch, as far as a run has come. -/
structure ReadCommitBarrier (server : Server Slot) : Prop where
  commit : ∀ before after workload id, server.log = before ++ .reached workload id .startCommit :: after →
    ∀ other j, .reached other j .deployed ∈ server.log → other.epoch = workload.epoch →
      .reached other j .finishExecute ∈ before
  once : ∀ workload id stage, .reached workload id stage ∈ server.log →
    ∃ count, Blockchain.history server.log workload.address = (Stage.all.take count).map (.reached workload id)
  complete : ∀ workload id stage, .reached workload id stage ∈ server.log → .finished workload.epoch ∈ server.log →
    Blockchain.history server.log workload.address = Stage.all.map (.reached workload id)
  execute : ∀ before after workload id, server.log = before ++ .reached workload id .startExecute :: after →
    ∀ other j, .reached other j .deployed ∈ server.log → other.epoch < workload.epoch →
      .reached other j .finishCommit ∈ before
  -- the next step of worker `id` is an iteration of `commitList` that calls `dependencyAnalysis` for `r`
  table : ∀ id ∈ server.workerIDs, ∀ r rest, (server.workers id).pc = .committing (r :: rest) →
    (server.shared.heap r).transactionResult ≠ .ABORT_NO_RETRY →
      (server.shared.heap r).epoch = server.epochChan ∧
      server.shared.provider.created.count server.epochChan = 1 ∧
      (server.shared.reserveTable id).bind server.shared.provider.deref =
        some (.after server.epochChan server.reservations) ∧
      ∀ workload j, .reached workload j .deployed ∈ server.log → workload.epoch = server.epochChan →
        ∀ other ∈ workload.transactionList, ∃ execution ∈ server.executed, execution.transaction = other ∧
          (execution.success = true → (execution.kvrwSet, execution.tid) ∈ server.reservations)

variable {server : Server Slot}

theorem mem_reservations {execution : Execution} (member : execution ∈ server.executed)
    (success : execution.success = true) : (execution.kvrwSet, execution.tid) ∈ server.reservations :=
  List.mem_map.mpr ⟨execution, List.mem_filter.mpr ⟨member, success⟩, rfl⟩

theorem History.complete (history : server.History) (phase : server.Phase) {workload : Workload} {id : Nat}
    {stage : Stage} (logged : .reached workload id stage ∈ server.log)
    (finished : .finished workload.epoch ∈ server.log) :
    Blockchain.history server.log workload.address = Stage.all.map (.reached workload id) := by
  rcases history.finished _ finished with before | ⟨-, pc⟩
  · exact history.completed logged before
  · obtain ⟨listed, -, said⟩ := history.known workload id stage logged
    obtain ⟨mode, allows, here⟩ := phase.mode id listed
    rw [pc] at allows
    have all : (server.workers id).stages = Stage.all := by
      refine WorkerInstance.In.stages_idle ?_
      rcases allows with rfl | rfl
      · exact .inl here
      · exact .inr here
    rw [said, stagesOf, all, ite_self]

theorem Invariants.barrier (invariants : server.Invariants) : server.ReadCommitBarrier where
  commit before after workload id split other j deployed epoch :=
    invariants.ordered.commit before _ after split _ deployed _ ⟨workload, id, other, j, rfl, rfl, epoch, rfl⟩
  once workload id stage logged := by
    obtain ⟨-, -, said⟩ := invariants.history.known workload id stage logged
    rw [said, stagesOf]
    split
    · obtain ⟨count, stages⟩ := (server.workers id).stages_take
      exact ⟨count, by rw [stages]⟩
    · exact ⟨5, rfl⟩
  complete workload id stage logged finished := invariants.history.complete invariants.phase logged finished
  execute before after workload id split other j deployed epoch :=
    invariants.ordered.execute before _ after split _ deployed _ ⟨workload, id, other, j, rfl, rfl, epoch, rfl⟩
  table id member r rest pc live := by
    obtain ⟨phase, history, -, executions⟩ := invariants
    have busy : (server.workers id).stages ≠ Stage.all := by simp [WorkerInstance.stages, pc, Stage.all]
    obtain ⟨epoch, progress⟩ := Progress.running_epoch executions history phase member busy
    have listed : r ∈ (server.workers id).workload.transactionList := by
      obtain ⟨done, split, -⟩ := progress.committed
      rw [split, WorkerInstance.toCommit, pc]
      simp
    have invoked : server.Invoked id r := by
      obtain ⟨done, split, invoked⟩ := progress.executed
      have all : (server.workers id).toExecute = [] := by rw [WorkerInstance.toExecute, pc]
      rw [split, all, List.append_nil] at listed
      exact invoked r listed
    have holds := invoked.reserved.resolve_left live
    refine ⟨executions.epochs r (progress.running r listed), executions.table.count holds.table, ?_, ?_⟩
    · rw [holds.pointer, Option.bind_some, ReserveTableProvider.deref, if_pos rfl, holds.table]
    · intro workload j deployed current other inWorkload
      obtain ⟨there, rfl⟩ := history.holder deployed current
      obtain ⟨mode, allows, here⟩ := phase.mode id member
      have committing : (server.workers id).In .committing := by
        cases mode with
        | committing => exact here
        | reading => simp [WorkerInstance.In, pc] at here
        | idleStart | idleCommit | created | assigned | hasRead =>
          have waiting := here.1
          rw [pc] at waiting
          cases waiting
      have running : server.pc ≠ .increment := by
        intro ended
        rw [ended] at allows
        refine busy (WorkerInstance.In.stages_idle ?_)
        rcases allows with rfl | rfl
        · exact .inl here
        · exact .inr here
      obtain ⟨done, split, invoked⟩ := (executions.progress running j there current).executed
      rw [WorkerInstance.toExecute_finished (phase.executed member committing there), List.append_nil] at split
      rw [split] at inWorkload
      obtain ⟨execution, recorded, same⟩ := (invoked other inWorkload).recorded
      exact ⟨execution, recorded, same, mem_reservations recorded⟩

end Server

/-- Every run, however the threads take turns, keeps the read phase of an epoch before its commit phase. -/
theorem read_commit_barrier {Slot : Type} [DecidableEq Slot] (slotOf : SlotOf Slot) (chaincode : Chaincode)
    (heap : Heap) (db : Contents Slot) (epochChan : Nat) (moves : List Move) (server : Server Slot)
    (ran : (Server.initial heap db epochChan).run slotOf chaincode moves = some server) :
    server.ReadCommitBarrier :=
  ((Server.initial_invariants heap db epochChan).run ran).barrier

section TwoWorkers

def threeIncrements : Heap := fun r =>
  { counterTransaction r (bytesOf "a") with epoch := if r = 3 then 2 else 1 }

def twoWorkers : List Move :=
  let step := Move.coordinator []
  let one := Move.worker 1
  let two := Move.worker 2
  [step, step, .coordinator [1], step, one, step, step, .coordinator [2], step, one, step, one, two, step, step,
    two, step, step, two, step, step, two, step, one, two, one, step, step, step, step, one, step, step, two, step,
    one, two, one, one, two, step, step, two, step, step, step,
    step, step, step, step, step, .coordinator [3], step, step, one]

def twoWorkersLog : List Event :=
  [.reached ⟨0, 1, [1]⟩ 1 .deployed, .reached ⟨0, 1, [1]⟩ 1 .startExecute, .reached ⟨1, 1, [2]⟩ 2 .deployed,
    .reached ⟨1, 1, [2]⟩ 2 .startExecute, .reached ⟨1, 1, [2]⟩ 2 .finishExecute,
    .reached ⟨0, 1, [1]⟩ 1 .finishExecute, .reached ⟨0, 1, [1]⟩ 1 .startCommit,
    .reached ⟨1, 1, [2]⟩ 2 .startCommit, .reached ⟨0, 1, [1]⟩ 1 .finishCommit,
    .reached ⟨1, 1, [2]⟩ 2 .finishCommit, .finished 1,
    .reached ⟨2, 2, [3]⟩ 1 .deployed, .reached ⟨2, 2, [3]⟩ 1 .startExecute]

theorem read_commit_barrier_two_workers :
    ∃ server, (Server.initial threeIncrements (fun _ => none) 1).run tableSlotOf
        (ORMTestChaincode.InvokeChaincode counterInputs) twoWorkers = some server ∧
      server.log = twoWorkersLog ∧ server.ReadCommitBarrier := by
  have log : ((Server.initial threeIncrements (fun _ => none) 1).run tableSlotOf
      (ORMTestChaincode.InvokeChaincode counterInputs) twoWorkers).map Server.log = some twoWorkersLog := by
    decide +kernel
  obtain ⟨server, ran, said⟩ := Option.map_eq_some_iff.mp log
  exact ⟨server, ran, said, read_commit_barrier _ _ _ _ _ _ _ ran⟩

end TwoWorkers

end Blockchain
