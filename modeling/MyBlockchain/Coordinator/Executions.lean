import MyBlockchain.Coordinator.History
import MyBlockchain.ReserveTable.EpochTable
import MyBlockchain.Worker.ReadPhase

namespace Blockchain

namespace WorkerInstance

def toExecute (worker : WorkerInstance) : List Ref :=
  match worker.pc with
  | .start => worker.workload.transactionList
  | .waitRead => if worker.workerState = .READY then [] else worker.workload.transactionList
  | .executing rest => rest
  | _ => []

def toCommit (worker : WorkerInstance) : List Ref :=
  match worker.pc with
  | .waitRead => if worker.workerState = .READY then [] else worker.workload.transactionList
  | .committing rest => rest
  | .committed => []
  | _ => worker.workload.transactionList

theorem advance_left {worker next : WorkerInstance} {mode : Mode} {stage : Option Stage} (h : worker.In mode)
    (step : worker.advance = some (next, stage)) :
    next.toExecute = worker.toExecute ∧ next.toCommit = worker.toCommit := by
  obtain ⟨signal, state, workload, pc⟩ := worker
  cases mode with
  | idleStart | idleCommit | assigned | hasRead =>
    obtain ⟨rfl, rfl, rfl⟩ := h
    simp [advance, waitForSignal] at step
  | created =>
    obtain ⟨rfl, rfl, rfl⟩ := h
    cases step
    exact ⟨rfl, rfl⟩
  | reading =>
    obtain ⟨rfl | ⟨rest, rfl⟩ | rfl, rfl, rfl⟩ := h
    · cases step
      exact ⟨rfl, rfl⟩
    · cases rest with
      | nil =>
        cases step
        exact ⟨rfl, rfl⟩
      | cons r rest => cases step
    · cases step
      exact ⟨rfl, rfl⟩
  | committing =>
    obtain ⟨rfl | ⟨rest, rfl⟩ | rfl, rfl, rfl⟩ := h
    · cases step
      exact ⟨rfl, rfl⟩
    · cases rest with
      | nil =>
        cases step
        exact ⟨rfl, rfl⟩
      | cons r rest => cases step
    · cases step
      exact ⟨rfl, rfl⟩

theorem In.left_idle {worker : WorkerInstance} (h : worker.In .idleStart ∨ worker.In .idleCommit) :
    worker.toExecute = [] ∧ worker.toCommit = [] := by
  rcases h with ⟨pc, state, -⟩ | ⟨pc, state, -⟩ <;> simp [toExecute, toCommit, pc, state]

end WorkerInstance

namespace Shared

variable {Slot : Type} {slotOf : SlotOf Slot} {chaincode : Chaincode}

theorem executeTransaction_other (worker : Nat) (shared : Shared Slot) {r other : Ref} (different : other ≠ r) :
    (shared.executeTransaction slotOf chaincode worker r).heap other = shared.heap other := by
  rw [executeTransaction_heap, Function.update_of_ne different]

structure Committed (shared next : Shared Slot) (r : Ref) : Prop where
  provider : next.provider = shared.provider
  pointers : next.reserveTable = shared.reserveTable
  others : ∀ other, other ≠ r → next.heap other = shared.heap other
  epoch : (next.heap r).epoch = (shared.heap r).epoch
  failed : (shared.heap r).transactionResult = .ABORT_NO_RETRY → (next.heap r).transactionResult = .ABORT_NO_RETRY
  decided : (next.heap r).transactionResult ≠ .PENDING

theorem Committed.set {shared : Shared Slot} {r : Ref} (database : DatabaseImpl Slot) {result : TransactionResult}
    (live : (shared.heap r).transactionResult ≠ .ABORT_NO_RETRY) (decided : result ≠ .PENDING) :
    Committed shared ({ shared with database }.setTransactionResult r result) r where
  provider := rfl
  pointers := rfl
  others other different := by simp [setTransactionResult, different]
  epoch := by simp [setTransactionResult, MockTransaction.setTransactionResult]
  failed same := absurd same live
  decided := by simpa [setTransactionResult, MockTransaction.setTransactionResult] using decided

theorem commitTransaction_committed [DecidableEq Slot] {worker : Nat} {shared next : Shared Slot} {r : Ref}
    (step : shared.commitTransaction slotOf worker r = some next) : Committed shared next r := by
  unfold commitTransaction at step
  dsimp only at step
  split at step
  · rename_i failed
    cases step
    exact ⟨rfl, rfl, fun _ _ => rfl, rfl, fun same => same, by rw [failed]; decide⟩
  · rename_i live
    obtain ⟨address, -, step⟩ := Option.bind_eq_some_iff.mp step
    obtain ⟨table, -, step⟩ := Option.bind_eq_some_iff.mp step
    split at step
    · cases step
      exact .set shared.database live (by decide)
    · split at step
      · obtain ⟨⟨database, committed⟩, -, step⟩ := Option.bind_eq_some_iff.mp step
        cases step
        refine .set database live ?_
        split <;> decide
      · cases step
        exact .set shared.database live (by decide)

end Shared

namespace Server

variable {Slot : Type} {slotOf : SlotOf Slot} {chaincode : Chaincode}

/-- The `reserveRWset` calls of the running epoch. -/
def reservations (server : Server Slot) : List (KVRWSet × Nat) :=
  (server.executed.filter fun execution => execution.success).map fun execution =>
    (execution.kvrwSet, execution.tid)

structure Holds (server : Server Slot) (id : Nat) : Prop where
  pointer : server.shared.reserveTable id = some server.shared.provider.destroyed.length
  table : server.shared.provider.reserveTable = some (.after server.epochChan server.reservations)

structure Invoked (server : Server Slot) (id : Nat) (r : Ref) : Prop where
  recorded : ∃ execution ∈ server.executed, execution.transaction = r
  reserved : (server.shared.heap r).transactionResult = .ABORT_NO_RETRY ∨ server.Holds id

/-- How far a worker has got with a workload of the running epoch. -/
structure Progress (server : Server Slot) (id : Nat) : Prop where
  running : ∀ r ∈ (server.workers id).workload.transactionList, r ∈ server.current
  executed : ∃ done, (server.workers id).workload.transactionList = done ++ (server.workers id).toExecute ∧
    ∀ r ∈ done, server.Invoked id r
  committed : ∃ done, (server.workers id).workload.transactionList = done ++ (server.workers id).toCommit ∧
    ∀ r ∈ done, (server.shared.heap r).transactionResult ≠ .PENDING

structure Executions (server : Server Slot) : Prop where
  table : server.shared.provider.Serves server.epochChan server.reservations
  epochs : ∀ r ∈ server.current, (server.shared.heap r).epoch = server.epochChan
  pending : ∀ workload rest, server.pc = .deployWorkload workload rest →
    ∀ r ∈ workload.transactionList, r ∈ server.current
  announced : server.pc = .increment → server.current = []
  progress : server.pc ≠ .increment → ∀ id ∈ server.workerIDs,
    (server.workers id).workload.epoch = server.epochChan → server.Progress id

variable {server next : Server Slot}

theorem initial_executions (heap : Heap) (db : Contents Slot) (epochChan : Nat) :
    (initial heap db epochChan).Executions where
  table := ReserveTableProvider.initial_serves epochChan
  epochs _ member := by cases member
  pending _ _ here := by cases here
  announced here := by cases here
  progress _ id member := by cases member

/-- What a step within an epoch never takes back. -/
structure Grows (server next : Server Slot) : Prop where
  executed : ∀ execution ∈ server.executed, execution ∈ next.executed
  current : ∀ r ∈ server.current, r ∈ next.current
  holds : ∀ id, server.Holds id → next.Holds id
  failed : ∀ r, (server.shared.heap r).transactionResult = .ABORT_NO_RETRY →
    (next.shared.heap r).transactionResult = .ABORT_NO_RETRY
  decided : ∀ r, (server.shared.heap r).transactionResult ≠ .PENDING →
    (next.shared.heap r).transactionResult ≠ .PENDING

theorem Grows.unshared (shared : next.shared = server.shared) (executed : next.executed = server.executed)
    (epochChan : next.epochChan = server.epochChan) (current : ∀ r ∈ server.current, r ∈ next.current) :
    server.Grows next where
  executed := by rw [executed]; exact fun _ member => member
  current := current
  holds id holds :=
    ⟨by rw [shared]; exact holds.pointer, by rw [shared, epochChan, reservations, executed]; exact holds.table⟩
  failed r same := by rw [shared]; exact same
  decided r same := by rw [shared]; exact same

theorem Invoked.mono {id : Nat} {r : Ref} (invoked : server.Invoked id r) (grows : server.Grows next) :
    next.Invoked id r := by
  obtain ⟨execution, member, same⟩ := invoked.recorded
  exact ⟨⟨execution, grows.executed execution member, same⟩, invoked.reserved.imp (grows.failed r) (grows.holds id)⟩

theorem Progress.mono {id : Nat} (progress : server.Progress id) (grows : server.Grows next)
    (workload : (next.workers id).workload = (server.workers id).workload)
    (toExecute : (next.workers id).toExecute = (server.workers id).toExecute)
    (toCommit : (next.workers id).toCommit = (server.workers id).toCommit) : next.Progress id := by
  constructor
  · rw [workload]
    exact fun r member => grows.current r (progress.running r member)
  · obtain ⟨done, split, invoked⟩ := progress.executed
    exact ⟨done, by rw [workload, toExecute, split], fun r member => (invoked r member).mono grows⟩
  · obtain ⟨done, split, decided⟩ := progress.committed
    exact ⟨done, by rw [workload, toCommit, split], fun r member => grows.decided r (decided r member)⟩

theorem Progress.fresh {id : Nat} (running : ∀ r ∈ (server.workers id).workload.transactionList, r ∈ server.current)
    (toExecute : (server.workers id).toExecute = (server.workers id).workload.transactionList)
    (toCommit : (server.workers id).toCommit = (server.workers id).workload.transactionList) :
    server.Progress id :=
  ⟨running, ⟨[], by rw [toExecute]; rfl, by simp⟩, ⟨[], by rw [toCommit]; rfl, by simp⟩⟩

theorem Executions.coordinator (executions : server.Executions) (history : server.History) (phase : server.Phase)
    {transactionList : List Ref} (step : server.coordinatorStep transactionList = some next) :
    next.Executions := by
  cases coordinatorStep_cases phase step with
  | goto pc globalState goes =>
    refine ⟨executions.table, executions.epochs, fun load rest here => ?_, fun here => absurd here goes.after,
      fun _ id member epoch => ?_⟩
    · obtain ⟨more, there⟩ := goes.pending load rest here
      exact executions.pending load more there
    · exact (executions.progress goes.before.2 id member epoch).mono (.unshared rfl rfl rfl fun _ h => h) rfl rfl rfl
  | signal pc id state goes undeployed =>
    refine ⟨executions.table, executions.epochs, fun load rest here => absurd here (undeployed load rest),
      fun here => absurd here goes.after, fun _ other member epoch => ?_⟩
    by_cases same : other = id
    · subst same
      simp only [setPc, setWorker, Function.update_self] at epoch
      have progress := executions.progress goes.before.2 other member epoch
      refine progress.mono (.unshared rfl rfl rfl fun _ h => h) ?_ ?_ ?_ <;>
        simp [setPc, setWorker, WorkerInstance.toExecute, WorkerInstance.toCommit]
    · simp only [setPc, setWorker, Function.update_of_ne same] at epoch
      have progress := executions.progress goes.before.2 other member epoch
      refine progress.mono (.unshared rfl rfl rfl fun _ h => h) ?_ ?_ ?_ <;> simp [setPc, setWorker, same]
  | make pc nonempty epochs =>
    refine ⟨executions.table, fun r member => ?_, ?_, (fun here => by cases here), fun _ id member epoch => ?_⟩
    · exact (List.mem_append.mp member).elim (executions.epochs r) (epochs r)
    · rintro load rest ⟨rfl, rfl⟩ r member
      exact List.mem_append_right _ member
    · exact (executions.progress (by simp [pc]) id member epoch).mono
        (.unshared rfl rfl rfl fun r h => List.mem_append_left _ h) rfl rfl rfl
  | create workload pc =>
    refine ⟨executions.table, executions.epochs, (fun load rest here => by cases here),
      (fun here => by cases here), fun _ id member epoch => ?_⟩
    by_cases same : id = server.IDNounce
    · subst same
      refine .fresh ?_ ?_ ?_
      · simpa [record, setPc, createWorker, setWorker] using executions.pending workload [] pc
      · simp [record, setPc, createWorker, setWorker, WorkerInstance.toExecute]
      · simp [record, setPc, createWorker, setWorker, WorkerInstance.toCommit]
    · have old : id ∈ server.workerIDs := by
        have nounce := phase.nounce
        rw [phase.mem_workerIDs]
        simp only [workerIDs, record, setPc, createWorker, setWorker, List.mem_range'_1] at member
        omega
      simp only [record, setPc, createWorker, setWorker, Function.update_of_ne same] at epoch
      refine (executions.progress (by simp [pc]) id old epoch).mono (.unshared rfl rfl rfl fun _ h => h) ?_ ?_ ?_ <;>
        simp [record, setPc, createWorker, setWorker, same]
  | assign workload id rest pc listed idle =>
    refine ⟨executions.table, executions.epochs, (fun load rest here => by cases here),
      (fun here => by cases here), fun _ other member epoch => ?_⟩
    by_cases same : other = id
    · subst same
      refine .fresh ?_ ?_ ?_
      · simpa [record, setPc, setWorker] using executions.pending workload _ pc
      · simp [record, setPc, setWorker, WorkerInstance.toExecute, idle.1]
      · simp [record, setPc, setWorker, WorkerInstance.toCommit, idle.1]
    · simp only [record, setPc, setWorker, Function.update_of_ne same] at epoch
      refine (executions.progress (by simp [pc]) other member epoch).mono (.unshared rfl rfl rfl fun _ h => h) ?_ ?_ ?_ <;>
        simp [record, setPc, setWorker, same]
  | finish pc =>
    exact ⟨executions.table, (fun r member => by cases member), (fun load rest here => by cases here), fun _ => rfl,
      fun before => absurd rfl before⟩
  | increment pc =>
    refine ⟨executions.table.next, fun r member => ?_, (fun load rest here => by cases here),
      (fun here => by cases here), fun _ id member epoch => ?_⟩
    · rw [executions.announced pc] at member
      cases member
    · have bound := (history.known _ id _ (history.current id member)).2.1
      simp only at epoch
      omega

theorem Progress.running_epoch (executions : server.Executions) (history : server.History) (phase : server.Phase)
    {id : Nat} (member : id ∈ server.workerIDs) (busy : (server.workers id).stages ≠ Stage.all) :
    (server.workers id).workload.epoch = server.epochChan ∧ server.Progress id := by
  have epoch := history.running id member busy
  refine ⟨epoch, executions.progress (fun pc => ?_) id member epoch⟩
  obtain ⟨mode, allows, here⟩ := phase.mode id member
  rw [pc] at allows
  refine busy (WorkerInstance.In.stages_idle ?_)
  rcases allows with rfl | rfl
  · exact .inl here
  · exact .inr here

theorem reservations_append_singleton (server : Server Slot) (execution : Execution) :
    reservations { server with executed := server.executed ++ [execution] } =
      server.reservations ++ if execution.success then [(execution.kvrwSet, execution.tid)] else [] := by
  unfold reservations
  rw [List.filter_append, List.map_append]
  cases success : execution.success <;> simp [success]

theorem executeTransaction_result (server : Server Slot) (id : Nat) (r other : Ref) :
    ((server.shared.executeTransaction slotOf chaincode id r).heap other).transactionResult =
        (server.shared.heap other).transactionResult ∨
      ((server.shared.executeTransaction slotOf chaincode id r).heap other).transactionResult =
        .ABORT_NO_RETRY := by
  rw [Shared.executeTransaction_heap]
  by_cases same : other = r
  · subst same
    rw [Function.update_self]
    unfold Shared.executed
    dsimp only
    split
    · exact .inl rfl
    · exact .inr rfl
  · rw [Function.update_of_ne same]
    exact .inl rfl

theorem Executions.execute (executions : server.Executions) (id : Nat) {r : Ref}
    (epoch : (server.shared.heap r).epoch = server.epochChan)
    (shared : next.shared = server.shared.executeTransaction slotOf chaincode id r)
    (executed : next.executed = server.executed ++ [server.execution slotOf chaincode r])
    (epochChan : next.epochChan = server.epochChan) (current : next.current = server.current) :
    next.shared.provider.Serves next.epochChan next.reservations ∧ server.Grows next ∧ next.Invoked id r := by
  have calls : next.reservations = server.reservations ++
      if (server.execution slotOf chaincode r).success then
        [((server.execution slotOf chaincode r).kvrwSet, (server.execution slotOf chaincode r).tid)] else [] := by
    rw [← reservations_append_singleton, reservations, executed]
    rfl
  have recorded : ∃ execution ∈ next.executed, execution.transaction = r :=
    ⟨server.execution slotOf chaincode r, by rw [executed]; simp, rfl⟩
  have failed : ∀ other, (server.shared.heap other).transactionResult = .ABORT_NO_RETRY →
      (next.shared.heap other).transactionResult = .ABORT_NO_RETRY := by
    intro other same
    rw [shared]
    rcases executeTransaction_result server id r other with kept | aborted
    · rw [kept, same]
    · exact aborted
  have decided : ∀ other, (server.shared.heap other).transactionResult ≠ .PENDING →
      (next.shared.heap other).transactionResult ≠ .PENDING := by
    intro other different
    rw [shared]
    rcases executeTransaction_result server id r other with kept | aborted
    · rwa [kept]
    · rw [aborted]
      decide
  have grows : (∀ j, server.Holds j → next.Holds j) → server.Grows next := fun holds =>
    ⟨fun _ member => by rw [executed]; exact List.mem_append_left _ member,
      fun _ member => by rwa [current], holds, failed, decided⟩
  rw [epochChan]
  cases success : (server.shared.invoke slotOf chaincode r).success with
  | false =>
    obtain ⟨provider, pointers⟩ := Shared.executeTransaction_failure slotOf chaincode id server.shared r success
    rw [← shared] at provider pointers
    have same : next.reservations = server.reservations := by
      rw [calls, execution]
      simp [success]
    refine ⟨by rw [provider, same]; exact executions.table, grows fun j holds => ?_, recorded, .inl ?_⟩
    · exact ⟨by rw [provider, pointers]; exact holds.pointer, by rw [provider, epochChan, same]; exact holds.table⟩
    · rw [shared, Shared.executeTransaction_heap, Function.update_self]
      simp [Shared.executed, success]
  | true =>
    obtain ⟨provider, pointers⟩ := Shared.executeTransaction_success slotOf chaincode id server.shared r success
    rw [← shared, epoch] at provider pointers
    have more : next.reservations = server.reservations ++
        [((server.shared.executed slotOf chaincode r).kvrwSet, (server.shared.heap r).tid)] := by
      rw [calls, execution]
      simp [success, Shared.executed]
    obtain ⟨serves, owned, address⟩ := executions.table.reserve
      (server.shared.executed slotOf chaincode r).kvrwSet (server.shared.heap r).tid
    rw [← provider] at serves owned address
    rw [← more] at serves owned
    refine ⟨serves, grows fun j holds => ⟨?_, by rw [epochChan]; exact owned⟩, recorded, .inr ⟨?_, ?_⟩⟩
    · have there := ReserveTableProvider.getHashMapReserveTable_owned holds.table
      rw [pointers]
      by_cases same : j = id
      · subst same
        rw [Function.update_self, address]
      · rw [Function.update_of_ne same, holds.pointer, provider, there]
        rfl
    · rw [pointers, Function.update_self, address]
    · rw [epochChan]
      exact owned

theorem Grows.commit {r : Ref} (committed : Shared.Committed server.shared next.shared r)
    (executed : next.executed = server.executed) (epochChan : next.epochChan = server.epochChan)
    (current : next.current = server.current) : server.Grows next where
  executed := by rw [executed]; exact fun _ member => member
  current := by rw [current]; exact fun _ member => member
  holds id holds := by
    refine ⟨?_, ?_⟩
    · rw [committed.provider, committed.pointers]
      exact holds.pointer
    · rw [committed.provider, epochChan, reservations, executed]
      exact holds.table
  failed other same := by
    by_cases mine : other = r
    · subst mine
      exact committed.failed same
    · rw [committed.others other mine]
      exact same
  decided other different := by
    by_cases mine : other = r
    · subst mine
      exact committed.decided
    · rw [committed.others other mine]
      exact different

theorem Executions.moved (executions : server.Executions) {id : Nat} {worker : WorkerInstance}
    (grows : server.Grows next) (table : next.shared.provider.Serves next.epochChan next.reservations)
    (epochs : ∀ r ∈ server.current, (next.shared.heap r).epoch = (server.shared.heap r).epoch)
    (epochChan : next.epochChan = server.epochChan) (pc : next.pc = server.pc)
    (ids : next.workerIDs = server.workerIDs) (current : next.current = server.current)
    (workers : next.workers = Function.update server.workers id worker)
    (workload : worker.workload = (server.workers id).workload)
    (mine : server.Progress id → next.Progress id) : next.Executions where
  table := table
  epochs r member := by
    rw [current] at member
    rw [epochs r member, epochChan]
    exact executions.epochs r member
  pending load rest here := by
    rw [pc] at here
    rw [current]
    exact executions.pending load rest here
  announced here := by
    rw [pc] at here
    rw [current]
    exact executions.announced here
  progress running other listed epoch := by
    rw [pc] at running
    rw [ids] at listed
    by_cases same : other = id
    · subst same
      rw [workers, Function.update_self, workload, epochChan] at epoch
      exact mine (executions.progress running other listed epoch)
    · have kept : next.workers other = server.workers other := by rw [workers, Function.update_of_ne same]
      rw [kept, epochChan] at epoch
      exact (executions.progress running other listed epoch).mono grows (by rw [kept]) (by rw [kept]) (by rw [kept])

theorem executeTransaction_epoch (shared : Shared Slot) (id : Nat) (r other : Ref) :
    ((shared.executeTransaction slotOf chaincode id r).heap other).epoch = (shared.heap other).epoch := by
  rw [Shared.executeTransaction_heap]
  exact Overwrite.view_update MockTransaction.epoch (by rfl) other

theorem Executions.worker [DecidableEq Slot] (executions : server.Executions) (history : server.History)
    (phase : server.Phase) {id : Nat} (member : id ∈ server.workerIDs)
    (step : server.workerStep slotOf chaincode id = some next) : next.Executions := by
  obtain ⟨worker, stage, shared, executed, move, rfl⟩ := workerStep_cases step
  obtain ⟨mode, -, before⟩ := phase.mode id member
  cases move with
  | advance advanced =>
    obtain ⟨workload, -⟩ := WorkerInstance.advance_spec before advanced
    obtain ⟨toExecute, toCommit⟩ := WorkerInstance.advance_left before advanced
    have grows : server.Grows { server with
        workers := Function.update server.workers id worker
        log := server.log ++ stage.toList.map (.reached (server.workers id).workload id) } :=
      Grows.unshared rfl rfl rfl fun _ h => h
    refine executions.moved grows executions.table (fun _ _ => rfl) rfl rfl rfl rfl rfl workload fun progress => ?_
    refine progress.mono grows ?_ ?_ ?_ <;> simp [workload, toExecute, toCommit]
  | @execute r rest pc =>
    have busy : (server.workers id).stages ≠ Stage.all := by simp [WorkerInstance.stages, pc, Stage.all]
    obtain ⟨-, progress⟩ := Progress.running_epoch executions history phase member busy
    obtain ⟨done, split, invoked⟩ := progress.executed
    simp only [WorkerInstance.toExecute, pc] at split
    have mine : r ∈ server.current := progress.running r (by rw [split]; simp)
    let next : Server Slot := { server with
      shared := server.shared.executeTransaction slotOf chaincode id r
      executed := server.executed ++ [server.execution slotOf chaincode r]
      workers := Function.update server.workers id { server.workers id with pc := .executing rest }
      log := server.log ++ (none : Option Stage).toList.map (.reached (server.workers id).workload id) }
    have ran : next.shared.provider.Serves next.epochChan next.reservations ∧ server.Grows next ∧ next.Invoked id r :=
      executions.execute id (executions.epochs r mine) rfl rfl rfl rfl
    obtain ⟨serves, grows, ran⟩ := ran
    have here : next.workers id = { server.workers id with pc := .executing rest } := Function.update_self ..
    refine executions.moved grows serves (fun other _ => ?_) rfl rfl rfl rfl rfl rfl fun progress => ?_
    · exact executeTransaction_epoch server.shared id r other
    · refine ⟨?_, ⟨done ++ [r], ?_, fun other listed => ?_⟩, ?_⟩
      · rw [here]
        exact fun other listed => grows.current other (progress.running other listed)
      · rw [here]
        simp [split, WorkerInstance.toExecute]
      · rcases List.mem_append.mp listed with old | new
        · exact (invoked other old).mono grows
        · rw [List.mem_singleton.mp new]
          exact ran
      · obtain ⟨done, split, decided⟩ := progress.committed
        refine ⟨done, ?_, fun other listed => grows.decided other (decided other listed)⟩
        rw [here]
        simpa [WorkerInstance.toCommit, pc] using split
  | @commit r rest _ pc stepped =>
    have committed := Shared.commitTransaction_committed stepped
    let next : Server Slot := { server with
      shared
      workers := Function.update server.workers id { server.workers id with pc := .committing rest }
      log := server.log ++ (none : Option Stage).toList.map (.reached (server.workers id).workload id) }
    have grows : server.Grows next := Grows.commit committed rfl rfl rfl
    have here : next.workers id = { server.workers id with pc := .committing rest } := Function.update_self ..
    refine executions.moved grows ?_ (fun other _ => ?_) rfl rfl rfl rfl rfl rfl fun progress => ?_
    · show shared.provider.Serves _ _
      rw [committed.provider]
      exact executions.table
    · by_cases same : other = r
      · subst same
        exact committed.epoch
      · exact congrArg MockTransaction.epoch (committed.others other same)
    · obtain ⟨done, split, decided⟩ := progress.committed
      simp only [WorkerInstance.toCommit, pc] at split
      refine ⟨?_, ?_, ⟨done ++ [r], ?_, fun other listed => ?_⟩⟩
      · rw [here]
        exact fun other listed => grows.current other (progress.running other listed)
      · obtain ⟨done, split, invoked⟩ := progress.executed
        refine ⟨done, ?_, fun other listed => (invoked other listed).mono grows⟩
        rw [here]
        simpa [WorkerInstance.toExecute, pc] using split
      · rw [here]
        simp [split, WorkerInstance.toCommit]
      · rcases List.mem_append.mp listed with old | new
        · exact grows.decided other (decided other old)
        · rw [List.mem_singleton.mp new]
          exact committed.decided

/-- Workers leave alone what is not in the running epoch, and the epoch of every transaction. -/
structure WorkerFrame (server next : Server Slot) : Prop where
  epoch : ∀ r, (next.shared.heap r).epoch = (server.shared.heap r).epoch
  others : ∀ r, r ∉ server.current → next.shared.heap r = server.shared.heap r
  current : next.current = server.current
  epochChan : next.epochChan = server.epochChan
  pc : next.pc = server.pc
  log : ∀ event ∈ server.log, event ∈ next.log

theorem workerStep_frame [DecidableEq Slot] (executions : server.Executions) (history : server.History)
    (phase : server.Phase) {id : Nat} (member : id ∈ server.workerIDs)
    (step : server.workerStep slotOf chaincode id = some next) : server.WorkerFrame next := by
  obtain ⟨worker, stage, shared, executed, move, rfl⟩ := workerStep_cases step
  have log : ∀ event ∈ server.log,
      event ∈ server.log ++ stage.toList.map (.reached (server.workers id).workload id) := fun _ old =>
    List.mem_append_left _ old
  cases move with
  | advance => exact ⟨fun _ => rfl, fun _ _ => rfl, rfl, rfl, rfl, log⟩
  | @execute r rest pc =>
    have busy : (server.workers id).stages ≠ Stage.all := by simp [WorkerInstance.stages, pc, Stage.all]
    obtain ⟨-, progress⟩ := Progress.running_epoch executions history phase member busy
    obtain ⟨done, split, -⟩ := progress.executed
    simp only [WorkerInstance.toExecute, pc] at split
    have mine : r ∈ server.current := progress.running r (by rw [split]; simp)
    refine ⟨executeTransaction_epoch server.shared id r, fun other outside => ?_, rfl, rfl, rfl, log⟩
    exact Shared.executeTransaction_other id server.shared (by rintro rfl; exact outside mine)
  | @commit r rest _ pc stepped =>
    have busy : (server.workers id).stages ≠ Stage.all := by simp [WorkerInstance.stages, pc, Stage.all]
    obtain ⟨-, progress⟩ := Progress.running_epoch executions history phase member busy
    obtain ⟨done, split, -⟩ := progress.committed
    simp only [WorkerInstance.toCommit, pc] at split
    have mine : r ∈ server.current := progress.running r (by rw [split]; simp)
    have committed := Shared.commitTransaction_committed stepped
    refine ⟨fun other => ?_, fun other outside => ?_, rfl, rfl, rfl, log⟩
    · by_cases same : other = r
      · subst same
        exact committed.epoch
      · exact congrArg MockTransaction.epoch (committed.others other same)
    · exact committed.others other (by rintro rfl; exact outside mine)

theorem Executions.environment (executions : server.Executions) {r : Ref} (outside : r ∉ server.current)
    (transaction : MockTransaction) :
    Executions { server with shared.heap := Function.update server.shared.heap r transaction } := by
  have kept : ∀ other ∈ server.current,
      Function.update server.shared.heap r transaction other = server.shared.heap other := by
    intro other member
    refine Function.update_of_ne ?_ ..
    rintro rfl
    exact outside member
  refine ⟨executions.table, fun other member => ?_, executions.pending, executions.announced,
    fun running id listed epoch => ?_⟩
  · rw [← executions.epochs other member]
    exact congrArg MockTransaction.epoch (kept other member)
  · obtain ⟨within, ⟨done, split, invoked⟩, ⟨ended, rest, decided⟩⟩ := executions.progress running id listed epoch
    have heap : ∀ other ∈ (server.workers id).workload.transactionList,
        Function.update server.shared.heap r transaction other = server.shared.heap other :=
      fun other member => kept other (within other member)
    refine ⟨within, ⟨done, split, fun other member => ?_⟩, ⟨ended, rest, fun other member => ?_⟩⟩
    · obtain ⟨recorded, reserved⟩ := invoked other member
      refine ⟨recorded, reserved.imp (fun failed => ?_) fun holds => ⟨holds.pointer, holds.table⟩⟩
      rw [← failed]
      exact congrArg MockTransaction.transactionResult (heap other (by rw [split]; exact List.mem_append_left _ member))
    · have same := heap other (by rw [rest]; exact List.mem_append_left _ member)
      simp only [same]
      exact decided other member

end Server

end Blockchain
