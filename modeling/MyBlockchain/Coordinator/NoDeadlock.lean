import MyBlockchain.Coordinator.Blocking

namespace Blockchain

namespace TransactionManagerImpl

/-- What the manager hands over, or collects to hand over, is no larger than a batch. -/
def Sized (manager : TransactionManagerImpl) : Prop :=
  match manager.pc with
  | .sendCurrent trWrapper | .sendNext trWrapper => trWrapper.size ≤ trMgrGetBatchMaxSize
  | .finishing _ trWrapper => trWrapper.size < trMgrGetBatchMaxSize
  | .sendFull full _ trWrapper => full.size ≤ trMgrGetBatchMaxSize ∧ trWrapper.size < trMgrGetBatchMaxSize
  | _ => True

variable {manager next : TransactionManagerImpl} {crypto : BlockCrypto} {proto : TransactionProto}
  {heap after : Heap} {answer : Option (List Ref)} {sent : Option TransactionWrapper}

theorem Sized.sending (sized : manager.Sized) {trWrapper : TransactionWrapper}
    (sending : manager.sending = some trWrapper) : trWrapper.size ≤ trMgrGetBatchMaxSize := by
  unfold Sized at sized
  unfold TransactionManagerImpl.sending at sending
  split at sending <;> rename_i pc
  · cases sending
    rwa [pc] at sized
  · cases sending
    rwa [pc] at sized
  · cases sending
    rw [pc] at sized
    exact Nat.le_of_lt sized
  · cases sending
    rw [pc] at sized
    exact sized.1
  · cases sending

theorem Sends.sending {trWrapper : TransactionWrapper} {pc : ManagerPc} (sends : manager.Sends trWrapper pc) :
    manager.sending = some trWrapper := by
  cases sends with
  | current here | next here | full here | rest here => rw [TransactionManagerImpl.sending, here]

theorem step_sending (step : manager.step id crypto proto heap answer = some (next, after, sent)) :
    manager.sending = sent := by
  cases step_cases step with
  | send sends => exact sends.sending
  | goto goes =>
    cases goes with
    | exhausted pc | nothing pc | again pc => rw [TransactionManagerImpl.sending, pc]
  | receiveCurrent pc | receiveNext pc | finishEpoch pc | finishTransaction pc | generate pc =>
    rw [TransactionManagerImpl.sending, pc]

theorem Sized.finishTransaction (sized : manager.Sized) {tr : Ref} {rest : List Ref} {trWrapper : TransactionWrapper}
    (pc : manager.pc = .finishing (tr :: rest) trWrapper) :
    (manager.finishTransaction id heap tr rest trWrapper).1.Sized := by
  have collected : trWrapper.size < trMgrGetBatchMaxSize := by
    unfold Sized at sized
    rwa [pc] at sized
  have pushed : ∀ heap, (trWrapper.pushTransaction heap tr).1.size ≤ trWrapper.size + 1 := by
    intro heap
    unfold TransactionWrapper.pushTransaction
    split
    · exact Nat.le_succ _
    · simp [TransactionWrapper.size]
  have nothing : 0 < trMgrGetBatchMaxSize := by decide
  unfold TransactionManagerImpl.finishTransaction FinishEpoch.finishTransaction
  cases result : (heap tr).transactionResult with
  | ABORT =>
    simp only [result]
    split
    · next full => exact ⟨Nat.le_of_eq full, nothing⟩
    · next room => exact Nat.lt_of_le_of_ne (Nat.le_trans (pushed _) collected) room
  | PENDING | COMMIT | ABORT_NO_RETRY =>
    simp only [result]
    exact collected

theorem Sized.step (sized : manager.Sized) (bounded : ∀ batch ∈ answer, batch.length ≤ trMgrGetBatchMaxSize)
    (step : manager.step id crypto proto heap answer = some (next, after, sent)) : next.Sized := by
  cases step_cases step with
  | goto goes => cases goes <;> trivial
  | receiveCurrent pc answered | receiveNext pc answered => exact bounded _ answered
  | finishEpoch => show 0 < trMgrGetBatchMaxSize; decide
  | finishTransaction pc => exact sized.finishTransaction pc
  | send sends =>
    cases sends with
    | current | next | rest => trivial
    | full pc =>
      unfold Sized at sized
      rw [pc] at sized
      exact sized.2
  | generate pc generated =>
    obtain ⟨block, -, -, rfl⟩ := generateBlock_eq generated
    trivial

end TransactionManagerImpl


/-- The worker has been told to do something. -/
def Mode.Busy (mode : Mode) : Prop := mode = .created ∨ mode = .reading ∨ mode = .committing

namespace WorkerInstance

variable {worker : WorkerInstance} {mode : Mode}

theorem In.ready (here : worker.In mode) (busy : mode.Busy) : worker.ready = true := by
  obtain ⟨signal, state, workload, pc⟩ := worker
  rcases busy with rfl | rfl | rfl
  · obtain ⟨rfl, -⟩ := here
    rfl
  · obtain ⟨rfl | ⟨rest, rfl⟩ | rfl, -, rfl⟩ := here <;> rfl
  · obtain ⟨rfl | ⟨rest, rfl⟩ | rfl, -, rfl⟩ := here <;> rfl

theorem In.advances (here : worker.In mode) (busy : mode.Busy) :
    worker.advance.isSome ∨ (∃ r rest, worker.pc = .executing (r :: rest)) ∨
      ∃ r rest, worker.pc = .committing (r :: rest) := by
  obtain ⟨signal, state, workload, pc⟩ := worker
  rcases busy with rfl | rfl | rfl
  · obtain ⟨rfl, -⟩ := here
    exact .inl rfl
  · obtain ⟨rfl | ⟨rest, rfl⟩ | rfl, -, rfl⟩ := here
    · exact .inl rfl
    · cases rest with
      | nil => exact .inl rfl
      | cons r rest => exact .inr (.inl ⟨r, rest, rfl⟩)
    · exact .inl rfl
  · obtain ⟨rfl | ⟨rest, rfl⟩ | rfl, -, rfl⟩ := here
    · exact .inl rfl
    · cases rest with
      | nil => exact .inl rfl
      | cons r rest => exact .inr (.inr ⟨r, rest, rfl⟩)
    · exact .inl rfl

theorem advance_announces {next : WorkerInstance} {stage : Option Stage}
    (step : worker.advance = some (next, stage)) :
    next.workerState = worker.workerState ∨ worker.announces = true := by
  unfold announces
  unfold advance at step
  split at step
  case h_1 pc | h_4 pc | h_7 pc | h_8 pc => exact .inr (by rw [pc])
  case h_2 | h_5 => split at step <;> cases step <;> exact .inl rfl
  case h_3 | h_6 =>
    cases step
    exact .inl rfl
  all_goals cases step

end WorkerInstance

namespace Server

variable {Slot : Type} {slotOf : SlotOf Slot} {chaincode : Chaincode} {server next : Server Slot}

/-- `syncAllWorker` skips the workers that have nothing to read. -/
def Awaits (server : Server Slot) : Prop :=
  ∀ id rest, server.pc = .waitFinishRead id rest → (server.workers id).workerState ≠ .READY

theorem Awaits.coordinator {transactionList : List Ref} (step : server.coordinatorStep transactionList = some next) :
    next.Awaits := by
  intro id rest here
  unfold coordinatorStep at step
  split at step
  case h_12 other more pc =>
    split at step
    · cases step
      cases here
    · next busy =>
      cases step
      cases here
      exact fun ready => busy (.inl ready)
  case h_4 =>
    split at step
    · cases step
      cases here
    · split at step
      · cases step
        cases here
      · cases step
  case h_6 =>
    dsimp only at step
    split at step <;> cases step <;> cases here
  case h_17 => split at step <;> cases step <;> cases here
  case h_7 | h_13 | h_18 =>
    split at step
    · cases step
      cases here
    · cases step
  all_goals
    cases step
    cases here

theorem Awaits.worker [DecidableEq Slot] (awaits : server.Awaits) (phase : server.Phase) {id : Nat}
    (member : id ∈ server.workerIDs) (step : server.workerStep slotOf chaincode id = some next) : next.Awaits := by
  obtain ⟨worker, stage, shared, executed, move, rfl⟩ := workerStep_cases step
  intro other rest here
  have before := awaits other rest here
  dsimp only at here ⊢
  by_cases same : other = id
  · subst same
    obtain ⟨mode, allows, there⟩ := phase.mode other member
    obtain ⟨-, -, after, goes, arrived⟩ := move.spec there
    rw [here] at allows
    rw [Function.update_self]
    rcases allows with rfl | rfl | ⟨rfl, -⟩
    · exact absurd there.2.1 before
    · cases goes
      simp [arrived.2.1]
    · cases goes <;> simp [arrived.2.1]
  · rwa [Function.update_of_ne same]

theorem Awaits.step [DecidableEq Slot] (awaits : server.Awaits) (phase : server.Phase) {move : Move}
    (step : server.step slotOf chaincode move = some next) : next.Awaits := by
  cases move with
  | coordinator transactionList => exact Awaits.coordinator step
  | worker id =>
    obtain ⟨member, step⟩ := Option.ite_none_right_eq_some.mp step
    exact awaits.worker phase member step
  | environment r transaction =>
    obtain ⟨-, same⟩ := Option.ite_none_left_eq_some.mp step
    cases same
    exact awaits

theorem Buffers.proceeds [DecidableEq Slot] (buffers : server.Buffers) (invariants : server.Invariants) {id : Nat}
    (member : id ∈ server.workerIDs) {mode : Mode} (busy : mode.Busy) (here : (server.workers id).In mode) :
    ∃ next, server.workerStep slotOf chaincode id = some next := by
  rcases here.advances busy with advances | ⟨r, rest, pc⟩ | ⟨r, rest, pc⟩
  · obtain ⟨⟨next, stage⟩, advanced⟩ := Option.isSome_iff_exists.mp advances
    unfold workerStep
    dsimp only
    split
    · exact ⟨_, rfl⟩
    · next r rest pc => simp [WorkerInstance.advance, pc] at advanced
    · exact ⟨_, by rw [advanced]; rfl⟩
  · exact ⟨_, by simp only [workerStep, pc]; rfl⟩
  · obtain ⟨shared, committed⟩ := buffers.commits slotOf invariants member pc
    exact ⟨_, by simp only [workerStep, pc, committed]; rfl⟩

theorem broadcastTo_worker (onlyAssigned : Bool) (workerID id : Nat) :
    ((server.broadcastTo onlyAssigned workerID).workers id).pc = (server.workers id).pc ∧
      (((server.broadcastTo onlyAssigned workerID).workers id).ariaGlobalState = (server.workers id).ariaGlobalState ∨
        id = workerID ∧ ¬ (onlyAssigned = true ∧ (server.workers workerID).workerState = .READY)) := by
  unfold broadcastTo
  dsimp only
  split
  · exact ⟨rfl, .inl rfl⟩
  · next assigned =>
    by_cases same : id = workerID
    · subst same
      exact ⟨by simp [setWorker], .inr ⟨rfl, assigned⟩⟩
    · simp [setWorker, same]

theorem coordinatorStep_worker {transactionList : List Ref}
    (step : server.coordinatorStep transactionList = some next) {id : Nat} (member : id ∈ server.workerIDs) :
    id ∈ next.workerIDs ∧ (next.workers id).pc = (server.workers id).pc ∧
      ((next.workers id).ariaGlobalState = (server.workers id).ariaGlobalState ∨ server.signalled = some id) := by
  have listed : ∀ onlyAssigned workerID, id ∈ (server.broadcastTo onlyAssigned workerID).workerIDs := by
    intro onlyAssigned workerID
    unfold broadcastTo
    dsimp only
    split
    · exact member
    · exact member
  unfold coordinatorStep at step
  split at step
  case h_3 other rest pc =>
    cases step
    obtain ⟨place, signal⟩ := server.broadcastTo_worker false other id
    refine ⟨listed _ _, place, signal.imp_right ?_⟩
    rintro ⟨rfl, -⟩
    rw [signalled, pc]
  case h_10 other rest pc | h_15 other rest pc =>
    cases step
    obtain ⟨place, signal⟩ := server.broadcastTo_worker true other id
    refine ⟨listed _ _, place, signal.imp_right ?_⟩
    rintro ⟨rfl, assigned⟩
    rw [signalled, pc]
    exact if_neg fun ready => assigned ⟨rfl, ready⟩
  case h_8 other pc =>
    cases step
    by_cases same : id = other
    · subst same
      refine ⟨member, by simp [setPc, setWorker], .inr ?_⟩
      rw [signalled, pc]
    · exact ⟨member, by simp [setPc, setWorker, same]⟩
  case h_5 workload pc =>
    cases step
    have range := List.mem_range'_1.mp member
    have different : id ≠ server.IDNounce := by omega
    refine ⟨?_, by simp [record, setPc, createWorker, setWorker, different]⟩
    simp only [record, setPc, createWorker, setWorker, workerIDs, List.mem_range'_1]
    omega
  case h_6 workload other rest pc =>
    dsimp only at step
    split at step
    · cases step
      by_cases same : id = other
      · subst same
        exact ⟨member, by simp [record, setPc, setWorker]⟩
      · exact ⟨member, by simp [record, setPc, setWorker, same]⟩
    · cases step
      exact ⟨member, rfl, .inl rfl⟩
  case h_4 =>
    split at step
    · cases step
      exact ⟨member, rfl, .inl rfl⟩
    · split at step
      · cases step
        exact ⟨member, rfl, .inl rfl⟩
      · cases step
  case h_12 | h_17 => split at step <;> cases step <;> exact ⟨member, rfl, .inl rfl⟩
  case h_7 | h_13 | h_18 =>
    split at step
    · cases step
      exact ⟨member, rfl, .inl rfl⟩
    · cases step
  all_goals
    cases step
    exact ⟨member, rfl, .inl rfl⟩

/-- A worker steps on its own. The state that the coordinator waits for is stored in a `setWorkerState`. -/
theorem workerStep_worker [DecidableEq Slot] {id : Nat} (step : server.workerStep slotOf chaincode id = some next) :
    next.workerIDs = server.workerIDs ∧ next.pc = server.pc ∧ next.epochChan = server.epochChan ∧
      (∀ other, other ≠ id → next.workers other = server.workers other) ∧
      ((next.workers id).workerState = (server.workers id).workerState ∨ (server.workers id).announces = true) := by
  obtain ⟨worker, stage, shared, executed, move, rfl⟩ := workerStep_cases step
  refine ⟨rfl, rfl, rfl, fun other different => Function.update_of_ne different .., ?_⟩
  dsimp only
  rw [Function.update_self]
  cases move with
  | advance advanced => exact WorkerInstance.advance_announces advanced
  | execute | commit => exact .inl rfl

end Server

namespace BlockServer

variable {Slot : Type} {system next : BlockServer Slot}

theorem getWorkload_front {heap : Heap} {epochChan : Nat} {transactionBuffer transactionList rest : List Ref}
    (found : getWorkload heap epochChan transactionBuffer = some (transactionList, rest)) :
    rest = transactionBuffer ∨
      ∃ front more, transactionBuffer = front :: more ∧ ¬ epochChan < (heap front).epoch := by
  unfold getWorkload at found
  split at found
  · next front more back last =>
    split at found
    · split at found
      · cases found
        exact .inl rfl
      · next now => exact .inr ⟨front, more, rfl, now⟩
    · cases found
  · cases found

theorem coordinatorStep_frame (step : system.coordinatorStep = some next) :
    next.manager.pc = system.manager.pc ∧
      (next.transactionBuffer = system.transactionBuffer ∨ system.notifies .coordinator = some .produce) := by
  unfold coordinatorStep at step
  split at step
  · next pc =>
    obtain ⟨⟨transactionList, rest⟩, found, step⟩ := Option.bind_eq_some_iff.mp step
    obtain ⟨server, stepped, same⟩ := Option.bind_eq_some_iff.mp step
    cases same
    refine ⟨rfl, (getWorkload_front found).imp_right ?_⟩
    rintro ⟨front, more, waiting, now⟩
    simp [notifies, pc, waiting, epochOf, now]
  · obtain ⟨server, stepped, same⟩ := Option.bind_eq_some_iff.mp step
    cases same
    exact ⟨rfl, .inl rfl⟩
  · obtain ⟨server, stepped, same⟩ := Option.bind_eq_some_iff.mp step
    cases same
    exact ⟨rfl, .inl rfl⟩

/-- What the threads rely on when they sleep. -/
structure Orderly (system : BlockServer Slot) : Prop where
  handOff : system.HandOff
  buffers : system.server.Buffers
  awaits : system.server.Awaits
  sized : system.manager.Sized

theorem initial_orderly (heap : Heap) (db : Contents Slot) (blockNum : Nat) (files : Nat → Option Block) :
    (initial heap db blockNum files).Orderly where
  handOff := initial_handOff heap db blockNum files
  buffers := Server.initial_buffers heap db 1
  awaits _ _ here := by cases here
  sized := trivial

theorem Orderly.step [DecidableEq Slot] {slotOf : SlotOf Slot} {chaincode : Chaincode} {crypto : BlockCrypto}
    {proto : TransactionProto} (orderly : system.Orderly) {move : BlockServerMove} (bounded : move.bounded = true)
    (step : system.step slotOf chaincode crypto proto move = some next) : next.Orderly := by
  have server := orderly.handOff.simulates step
  refine ⟨orderly.handOff.step step, ?_, ?_, ?_⟩
  · rcases server with same | ⟨serverMove, stepped⟩
    · rw [same]
      exact orderly.buffers
    · exact orderly.buffers.step orderly.handOff.invariants stepped
  · rcases server with same | ⟨serverMove, stepped⟩
    · rw [same]
      exact orderly.awaits
    · exact orderly.awaits.step orderly.handOff.invariants.phase stepped
  · cases move with
    | coordinator =>
      have pc := (coordinatorStep_frame step).1
      have sized := orderly.sized
      unfold TransactionManagerImpl.Sized at sized ⊢
      rwa [pc]
    | worker id =>
      obtain ⟨-, step⟩ := Option.ite_none_right_eq_some.mp step
      obtain ⟨server, -, rfl⟩ := Option.map_eq_some_iff.mp step
      exact orderly.sized
    | manager answer =>
      obtain ⟨-, step⟩ := Option.ite_none_right_eq_some.mp step
      obtain ⟨⟨manager, heap, sent⟩, stepped, step⟩ := Option.bind_eq_some_iff.mp step
      obtain ⟨transactionBuffer, -, same⟩ := Option.bind_eq_some_iff.mp step
      cases same
      refine orderly.sized.step (fun batch answered => ?_) stepped
      cases answered
      exact of_decide_eq_true bounded
    | create r transaction =>
      obtain ⟨-, same⟩ := Option.ite_none_left_eq_some.mp step
      cases same
      exact orderly.sized

theorem notifies_signalled {id : Nat} (signalled : system.server.signalled = some id) :
    system.notifies .coordinator = some (.workerConsume id) := by
  simp only [notifies]
  split
  · next pc _ => simp [Server.signalled, pc] at signalled
  · rw [signalled]
    rfl

theorem waits_consume (waits : system.waits .coordinator = some .consume) : system.server.pc = .getWorkload := by
  cases pc : system.server.pc <;> simp_all [BlockServer.waits]

theorem waits_workerProduce {id : Nat} (waits : system.waits .coordinator = some (.workerProduce id)) :
    system.server.pc = .syncAssigned id ∨ (∃ rest, system.server.pc = .waitFinishRead id rest) ∨
      ∃ rest, system.server.pc = .waitReady id rest := by
  cases pc : system.server.pc <;> simp_all [BlockServer.waits]

theorem waits_workerConsume {id : Nat} {condition : ConditionVariable}
    (waits : system.waits (.worker id) = some condition) : condition = .workerConsume id := by
  obtain ⟨-, waiting⟩ := Option.ite_none_right_eq_some.mp waits
  split at waiting <;> simp_all

section Frames

theorem waits_manager (pc : next.manager.pc = system.manager.pc) : next.waits .manager = system.waits .manager := by
  unfold waits TransactionManagerImpl.sending
  rw [pc]

theorem ready_manager (pc : next.manager.pc = system.manager.pc)
    (buffer : next.transactionBuffer = system.transactionBuffer) : next.ready .manager = system.ready .manager := by
  unfold ready TransactionManagerImpl.sending
  rw [pc, buffer]

theorem waits_worker {id : Nat} (listed : id ∈ system.server.workerIDs → id ∈ next.server.workerIDs)
    (pc : (next.server.workers id).pc = (system.server.workers id).pc) {condition : ConditionVariable}
    (waits : system.waits (.worker id) = some condition) : next.waits (.worker id) = some condition := by
  obtain ⟨member, waits⟩ := Option.ite_none_right_eq_some.mp waits
  refine (if_pos (listed member)).trans ?_
  rw [pc]
  exact waits

theorem ready_worker {id : Nat} (pc : (next.server.workers id).pc = (system.server.workers id).pc)
    (signal : (next.server.workers id).ariaGlobalState = (system.server.workers id).ariaGlobalState) :
    next.ready (.worker id) = system.ready (.worker id) := by
  show (next.server.workers id).ready = (system.server.workers id).ready
  unfold WorkerInstance.ready WorkerInstance.waitForSignal
  rw [pc, signal]

theorem waits_coordinator (pc : next.server.pc = system.server.pc) :
    next.waits .coordinator = system.waits .coordinator := by
  unfold waits
  rw [pc]

/-- What the coordinator waits for is seen from the epochs of the buffer and from the state of one worker. -/
theorem ready_coordinator (pc : next.server.pc = system.server.pc) (epochChan : next.server.epochChan = system.server.epochChan)
    (buffer : system.waits .coordinator = some .consume → next.transactionBuffer = system.transactionBuffer ∧
      ∀ r ∈ system.transactionBuffer, next.epochOf r = system.epochOf r)
    (state : ∀ id, system.waits .coordinator = some (.workerProduce id) →
      (next.server.workers id).workerState = (system.server.workers id).workerState) :
    next.ready .coordinator = system.ready .coordinator := by
  unfold waits at buffer state
  unfold ready
  cases place : system.server.pc with
  | getWorkload =>
    obtain ⟨same, epochs⟩ := buffer (by rw [place])
    simp only [pc, place, epochChan, same]
    exact hasWorkload_congr epochs
  | syncAssigned id | waitFinishRead id rest | waitReady id rest =>
    simp only [pc, place, state id (by rw [place])]
  | begin | broadcastStart | deployWorkload | signalRead | broadcastRead | syncRead | broadcastCommit | syncCommit
  | finish | increment => simp only [pc, place]

end Frames

theorem HandOff.manager_frame {crypto : BlockCrypto} {proto : TransactionProto} (handOff : system.HandOff)
    {answer : Option (List Ref)} (step : system.managerStep crypto proto answer = some next) :
    (∃ heap, next.server = { system.server with shared.heap := heap }) ∧
      (system.manager.sending.isSome = true ∨ next.transactionBuffer = system.transactionBuffer ∧
        ∀ r ∈ system.transactionBuffer, next.epochOf r = system.epochOf r) := by
  obtain ⟨-, step⟩ := Option.ite_none_right_eq_some.mp step
  obtain ⟨⟨manager, heap, sent⟩, stepped, step⟩ := Option.bind_eq_some_iff.mp step
  obtain ⟨transactionBuffer, added, same⟩ := Option.bind_eq_some_iff.mp step
  cases same
  refine ⟨⟨heap, rfl⟩, ?_⟩
  cases TransactionManagerImpl.step_cases stepped with
  | send =>
    left
    rw [TransactionManagerImpl.step_sending stepped]
    rfl
  | goto | receiveCurrent | receiveNext | finishEpoch | generate =>
    cases added
    exact .inr ⟨rfl, fun _ _ => rfl⟩
  | @finishTransaction tr rest trWrapper pc =>
    cases added
    refine .inr ⟨rfl, fun r member => ?_⟩
    have different : r ≠ tr := by
      rintro rfl
      exact (handOff.finishing_outside pc).1 member
    show ((system.manager.finishTransaction id system.server.shared.heap tr rest trWrapper).2 r).epoch = _
    rw [TransactionManagerImpl.finishTransaction_heap]
    split
    · exact congrArg MockTransaction.epoch (Function.update_of_ne different ..)
    · rfl

/-- These are the conditions on which the steps of manager, coordinator and workers wait. -/
theorem step_ready [DecidableEq Slot] {slotOf : SlotOf Slot} {chaincode : Chaincode} {crypto : BlockCrypto}
    {proto : TransactionProto} {move : BlockServerMove} (step : system.step slotOf chaincode crypto proto move = some next) :
    system.ready (.of move) = true := by
  cases move with
  | create => rfl
  | worker id =>
    obtain ⟨-, step⟩ := Option.ite_none_right_eq_some.mp step
    obtain ⟨server, stepped, rfl⟩ := Option.map_eq_some_iff.mp step
    show (system.server.workers id).ready = true
    by_contra unready
    rw [Bool.not_eq_true] at unready
    cases pc : (system.server.workers id).pc <;>
      simp_all [WorkerInstance.ready, Server.workerStep, WorkerInstance.advance]
  | manager answer =>
    obtain ⟨-, step⟩ := Option.ite_none_right_eq_some.mp step
    obtain ⟨⟨manager, heap, sent⟩, stepped, step⟩ := Option.bind_eq_some_iff.mp step
    obtain ⟨transactionBuffer, added, -⟩ := Option.bind_eq_some_iff.mp step
    show system.ready .manager = true
    simp only [ready, TransactionManagerImpl.step_sending stepped]
    cases sent with
    | none => rfl
    | some trWrapper => exact decide_eq_true (Option.ite_none_right_eq_some.mp added).1
  | coordinator =>
    show system.ready .coordinator = true
    obtain ⟨transactionList, stepped⟩ := coordinatorStep_server step
    cases pc : system.server.pc with
    | getWorkload =>
      simp only [BlockServer.step, coordinatorStep, pc] at step
      obtain ⟨⟨taken, rest⟩, found, -⟩ := Option.bind_eq_some_iff.mp step
      simp only [ready, pc]
      rw [← getWorkload_isSome, found]
      rfl
    | syncAssigned id | waitFinishRead id rest | waitReady id rest =>
      simp only [Server.coordinatorStep, pc] at stepped
      simp only [ready, pc]
      exact decide_eq_true (Option.ite_none_right_eq_some.mp stepped).1
    | begin | broadcastStart | deployWorkload | signalRead | broadcastRead | syncRead | broadcastCommit | syncCommit
    | finish | increment => simp only [ready, pc]

section Signals

variable {slotOf : SlotOf Slot} {chaincode : Chaincode} {crypto : BlockCrypto} {proto : TransactionProto}
  {thread : Thread} {condition : ConditionVariable}

theorem coordinator_signals (step : system.coordinatorStep = some next) (other : thread ≠ .coordinator)
    (waits : system.waits thread = some condition) :
    next.waits thread = some condition ∧
      (next.ready thread = true → system.ready thread = true ∨ system.notifies .coordinator = some condition) := by
  obtain ⟨pc, buffer⟩ := coordinatorStep_frame step
  obtain ⟨transactionList, stepped⟩ := coordinatorStep_server step
  cases thread with
  | coordinator => exact absurd rfl other
  | comm => cases waits
  | manager =>
    refine ⟨(waits_manager pc).trans waits, fun ready => ?_⟩
    rcases buffer with same | notified
    · rw [ready_manager pc same] at ready
      exact .inl ready
    · obtain ⟨-, produce⟩ := Option.ite_none_right_eq_some.mp waits
      exact .inr (notified.trans produce)
  | worker id =>
    obtain ⟨member, -⟩ := Option.ite_none_right_eq_some.mp waits
    obtain ⟨listed, place, signal⟩ := Server.coordinatorStep_worker stepped member
    refine ⟨waits_worker (fun _ => listed) place waits, fun ready => ?_⟩
    rcases signal with same | signalled
    · rw [ready_worker place same] at ready
      exact .inl ready
    · refine .inr ?_
      have consume : condition = .workerConsume id := waits_workerConsume waits
      subst consume
      exact notifies_signalled signalled

theorem Orderly.worker_signals [DecidableEq Slot] (orderly : system.Orderly) {id : Nat} {server : Server Slot}
    (member : id ∈ system.server.workerIDs)
    (step : system.server.workerStep slotOf chaincode id = some server) (other : thread ≠ .worker id)
    (waits : system.waits thread = some condition) :
    let next : BlockServer Slot := { system with server }
    next.waits thread = some condition ∧
      (next.ready thread = true → system.ready thread = true ∨ system.notifies (.worker id) = some condition) := by
  intro next
  obtain ⟨ids, pc, epochChan, others, state⟩ := Server.workerStep_worker step
  obtain ⟨phase, history, -, executions⟩ := orderly.handOff.invariants
  have frame := Server.workerStep_frame executions history phase member step
  cases thread with
  | comm => cases waits
  | manager => exact ⟨waits, .inl⟩
  | worker mine =>
    have kept : next.server.workers mine = system.server.workers mine := others mine (by rintro rfl; exact other rfl)
    have listed : mine ∈ system.server.workerIDs → mine ∈ next.server.workerIDs := fun listed => by rwa [ids]
    have ready : next.ready (.worker mine) = system.ready (.worker mine) := ready_worker (by rw [kept]) (by rw [kept])
    rw [ready]
    exact ⟨waits_worker listed (by rw [kept]) waits, .inl⟩
  | coordinator =>
    have waiting : next.waits .coordinator = system.waits .coordinator := waits_coordinator pc
    refine ⟨waiting.trans waits, fun ready => ?_⟩
    by_cases announced : (system.server.workers id).announces = true ∧ condition = .workerProduce id
    · refine .inr ?_
      rw [announced.2]
      exact if_pos announced.1
    · have same : next.ready .coordinator = system.ready .coordinator := by
        refine ready_coordinator pc epochChan (fun _ => ⟨rfl, fun r _ => frame.epoch r⟩) fun awaited here => ?_
        rw [waits] at here
        cases here
        by_cases same : awaited = id
        · subst same
          exact state.resolve_right fun announces => announced ⟨announces, rfl⟩
        · exact congrArg WorkerInstance.workerState (others awaited same)
      rw [same] at ready
      exact .inl ready

theorem Orderly.manager_signals (orderly : system.Orderly) {answer : Option (List Ref)}
    (step : system.managerStep crypto proto answer = some next) (other : thread ≠ .manager)
    (waits : system.waits thread = some condition) :
    next.waits thread = some condition ∧
      (next.ready thread = true → system.ready thread = true ∨ system.notifies (.manager answer) = some condition) := by
  obtain ⟨⟨heap, server⟩, buffer⟩ := orderly.handOff.manager_frame step
  cases thread with
  | comm => cases waits
  | manager => exact absurd rfl other
  | worker id =>
    have listed : id ∈ system.server.workerIDs → id ∈ next.server.workerIDs := fun listed => by rwa [server]
    have ready : next.ready (.worker id) = system.ready (.worker id) := ready_worker (by rw [server]) (by rw [server])
    rw [ready]
    exact ⟨waits_worker listed (by rw [server]) waits, .inl⟩
  | coordinator =>
    have waiting : next.waits .coordinator = system.waits .coordinator := waits_coordinator (by rw [server])
    refine ⟨waiting.trans waits, fun ready => ?_⟩
    by_cases sends : system.manager.sending.isSome = true ∧ condition = .consume
    · refine .inr ?_
      rw [sends.2]
      exact if_pos sends.1
    · have same : next.ready .coordinator = system.ready .coordinator := by
        refine ready_coordinator (by rw [server]) (by rw [server]) (fun consume => ?_) fun id _ => by rw [server]
        rw [waits] at consume
        exact buffer.resolve_left fun sending => sends ⟨sending, Option.some.inj consume⟩
      rw [same] at ready
      exact .inl ready

theorem Orderly.create_signals (orderly : system.Orderly) {r : Ref} (transaction : MockTransaction)
    (unknown : r ∉ system.manager.received) (waits : system.waits thread = some condition) :
    let next : BlockServer Slot :=
      { system with server.shared.heap := Function.update system.server.shared.heap r transaction }
    next.waits thread = some condition ∧ (next.ready thread = true → system.ready thread = true) := by
  intro next
  cases thread with
  | comm => cases waits
  | manager | worker id => exact ⟨waits, fun ready => ready⟩
  | coordinator =>
    have same : next.ready .coordinator = system.ready .coordinator := by
      refine ready_coordinator rfl rfl (fun _ => ⟨rfl, fun other member => ?_⟩) fun _ _ => rfl
      refine congrArg MockTransaction.epoch (Function.update_of_ne ?_ ..)
      rintro rfl
      exact unknown (orderly.handOff.lists.mem_received (orderly.handOff.buffered.held other member))
    rw [same]
    exact ⟨waits, fun ready => ready⟩

theorem waits_waiter (waits : system.waits thread = some condition) : condition.waiter = thread := by
  unfold BlockServer.waits at waits
  split at waits
  · split at waits <;> cases waits <;> rfl
  · split at waits <;> cases waits
    rfl
  · split at waits
    · split at waits <;> cases waits <;> rfl
    · cases waits
  · cases waits

theorem notifies_notifier {move : BlockServerMove} (notified : system.notifies move = some condition) :
    condition.notifier = .of move ∧ system.uses (.of move) = some condition.mutex := by
  cases move with
  | create => cases notified
  | manager answer =>
    obtain ⟨sending, same⟩ := Option.ite_none_right_eq_some.mp notified
    cases same
    exact ⟨rfl, if_pos sending⟩
  | worker id =>
    obtain ⟨announces, same⟩ := Option.ite_none_right_eq_some.mp notified
    cases same
    refine ⟨rfl, ?_⟩
    unfold WorkerInstance.announces at announces
    simp only [uses, Thread.of]
    split at announces <;> simp_all [ConditionVariable.mutex]
  | coordinator =>
    simp only [notifies] at notified
    split at notified
    · next pc _ =>
      obtain ⟨-, same⟩ := Option.ite_none_left_eq_some.mp notified
      cases same
      exact ⟨rfl, by simp only [uses, Thread.of, pc]; rfl⟩
    · obtain ⟨id, signalled, rfl⟩ := Option.map_eq_some_iff.mp notified
      refine ⟨rfl, ?_⟩
      unfold Server.signalled at signalled
      simp only [uses, Thread.of]
      split at signalled <;> simp_all [ConditionVariable.mutex]

variable (slotOf chaincode crypto proto) in
theorem monitor_lawful [DecidableEq Slot] : (monitor slotOf chaincode crypto proto).Lawful Orderly where
  keeps := by
    intro move system next orderly step
    obtain ⟨bounded, step⟩ := Option.ite_none_right_eq_some.mp step
    exact orderly.step bounded step
  waiter := waits_waiter
  notifier := notifies_notifier
  signals := by
    intro move system next thread condition orderly step other waits
    obtain ⟨-, step⟩ := Option.ite_none_right_eq_some.mp step
    cases move with
    | coordinator => exact coordinator_signals step (Ne.symm other) waits
    | worker id =>
      obtain ⟨member, step⟩ := Option.ite_none_right_eq_some.mp step
      obtain ⟨server, stepped, rfl⟩ := Option.map_eq_some_iff.mp step
      exact orderly.worker_signals member stepped (Ne.symm other) waits
    | manager answer => exact orderly.manager_signals step (Ne.symm other) waits
    | create r transaction =>
      obtain ⟨unknown, same⟩ := Option.ite_none_left_eq_some.mp step
      cases same
      obtain ⟨still, ready⟩ := orderly.create_signals transaction unknown waits
      exact ⟨still, fun there => .inl (ready there)⟩

end Signals

theorem Orderly.awaited (orderly : system.Orderly) {id : Nat} (waits : system.waits .coordinator = some (.workerProduce id)) :
    id ∈ system.server.workerIDs ∧ (system.ready .coordinator = true ∨
      ∃ mode, Mode.Busy mode ∧ (system.server.workers id).In mode) := by
  have phase := orderly.handOff.invariants.phase
  have places := waits_workerProduce waits
  have member : id ∈ system.server.workerIDs := by
    apply phase.visits id
    rcases places with pc | ⟨rest, pc⟩ | ⟨rest, pc⟩ <;> simp [pc, CoordinatorPc.visits]
  obtain ⟨mode, allows, here⟩ := phase.mode id member
  refine ⟨member, ?_⟩
  rcases places with pc | ⟨rest, pc⟩ | ⟨rest, pc⟩
  · simp only [pc, CoordinatorPc.Allows, if_true] at allows
    rcases allows with rfl | rfl
    · exact .inr ⟨_, .inl rfl, here⟩
    · left
      simp [ready, pc, here.2.1]
  · simp only [pc, CoordinatorPc.Allows] at allows
    rcases allows with rfl | rfl | ⟨rfl, -⟩
    · exact absurd here.2.1 (orderly.awaits id rest pc)
    · left
      simp [ready, pc, here.2.1]
    · exact .inr ⟨_, .inr (.inl rfl), here⟩
  · simp only [pc, CoordinatorPc.Allows] at allows
    rcases allows with rfl | rfl | ⟨rfl, -⟩
    · left
      simp [ready, pc, here.2.1]
    · left
      simp [ready, pc, here.2.1]
    · exact .inr ⟨_, .inr (.inr rfl), here⟩

section NoDeadlock

variable [DecidableEq Slot] {slotOf : SlotOf Slot} {chaincode : Chaincode} {crypto : BlockCrypto}
  {proto : TransactionProto} {world : Monitor.World (BlockServer Slot) Thread ConditionVariable Mutex}

/-- A wrapper that does not fit leaves more in the buffer than the coordinator waits for. -/
theorem manager_or_coordinator (sound : (monitor slotOf chaincode crypto proto).Sound Orderly world)
    (manager : world.status .manager = .blocked .produce) : world.status .coordinator ≠ .blocked .consume := by
  intro coordinator
  have sends := sound.waits .manager .produce (.inr manager)
  have gets := sound.waits .coordinator .consume (.inr coordinator)
  have full : world.state.ready .manager ≠ true := by
    intro room
    have notifying := sound.awake .manager .produce manager room
    exact absurd (coordinator.symm.trans notifying) (by simp)
  have few : world.state.ready .coordinator ≠ true := by
    intro enough
    have notifying := sound.awake .coordinator .consume coordinator enough
    exact absurd (manager.symm.trans notifying) (by simp)
  obtain ⟨sending, -⟩ := Option.ite_none_right_eq_some.mp sends
  obtain ⟨trWrapper, sending⟩ := Option.isSome_iff_exists.mp sending
  have size := sound.state.sized.sending sending
  have tooMany : ¬ world.state.transactionBuffer.length + trWrapper.size ≤ coordinatorInputMaxBufferSize := by
    simpa [ready, sending] using full
  have found : hasWorkload world.state.server.shared.heap world.state.server.epochChan
      world.state.transactionBuffer = true := by
    apply hasWorkload_of_length
    unfold trMgrGetBatchMaxSize at size
    unfold coordinatorInputMaxBufferSize at tooMany
    unfold coordinatorMinTransactionPerWorkload
    omega
  simp [ready, waits_consume gets, found] at few

/-- The worker the coordinator waits for has something to notify, or something to do and its mutex free. -/
theorem awaited_moves (sound : (monitor slotOf chaincode crypto proto).Sound Orderly world) {id : Nat}
    (coordinator : world.status .coordinator = .blocked (.workerProduce id)) :
    ∃ move, (move = .run (.worker id) ∨ move = .notify (.worker id)) ∧
      ((monitor slotOf chaincode crypto proto).move world move).isSome := by
  have lawful := monitor_lawful slotOf chaincode crypto proto
  have orderly := sound.state
  obtain ⟨member, awaited⟩ := orderly.awaited (sound.waits .coordinator _ (.inr coordinator))
  by_cases notifying : ∃ condition, world.status (.worker id) = .notifying condition
  · obtain ⟨condition, notifying⟩ := notifying
    exact ⟨_, .inr rfl, by simp only [Monitor.move, notifying]; rfl⟩
  · have unready : world.state.ready .coordinator ≠ true := fun ready =>
      notifying ⟨_, sound.awake .coordinator _ coordinator ready⟩
    obtain ⟨mode, busy, here⟩ := awaited.resolve_left unready
    have ready : world.state.ready (.worker id) = true := here.ready busy
    have running : world.status (.worker id) = .running := by
      cases status : world.status (.worker id) with
      | running => rfl
      | notifying condition => exact absurd ⟨condition, status⟩ notifying
      | tested condition =>
        have unready := sound.tested _ condition status
        exact absurd (ready.symm.trans unready) (by simp)
      | blocked condition =>
        -- its signal would have to be on the way, but the coordinator is asleep
        have pending := sound.awake _ condition status ready
        have waits := sound.waits _ condition (.inr status)
        have consume : condition = .workerConsume id := waits_workerConsume waits
        subst consume
        exact absurd (coordinator.symm.trans pending) (by simp)
    have free : world.owner (.worker id) = none := by
      apply sound.free lawful
      intro condition mutex
      cases condition with
      | produce | consume => cases mutex
      | workerProduce other =>
        cases mutex
        exact ⟨fun tested => absurd (coordinator.symm.trans tested) (by simp),
          fun notifying => absurd (running.symm.trans notifying) (by simp)⟩
      | workerConsume other =>
        cases mutex
        exact ⟨fun tested => absurd (running.symm.trans tested) (by simp),
          fun notifying => absurd (coordinator.symm.trans notifying) (by simp)⟩
    have uses : ∀ mutex ∈ world.state.uses (.worker id), world.owner mutex = none := by
      intro mutex used
      simp only [BlockServer.uses] at used
      split at used <;> cases used <;> exact free
    obtain ⟨server, stepped⟩ : ∃ server, world.state.server.workerStep slotOf chaincode id = some server :=
      orderly.buffers.proceeds orderly.handOff.invariants member busy here
    refine ⟨_, .inl rfl, ?_⟩
    have ran : (monitor slotOf chaincode crypto proto).step (.worker id) world.state =
        some { world.state with server } := by
      simp [monitor, BlockServerMove.bounded, BlockServer.step, member, stepped]
    exact Monitor.move_run running uses ran

end NoDeadlock

end BlockServer

/-- Manager and coordinator are never both asleep over the buffer. Nobody sleeps through its condition, and a worker
that the coordinator waits for can go on. -/
theorem no_deadlock {Slot : Type} [DecidableEq Slot] (slotOf : SlotOf Slot) (chaincode : Chaincode)
    (crypto : BlockCrypto) (proto : TransactionProto) (heap : Heap) (db : Contents Slot) (blockNum : Nat)
    (files : Nat → Option Block) (moves : List (Monitor.Move BlockServerMove BlockServer.Thread))
    (world : Monitor.World (BlockServer Slot) BlockServer.Thread BlockServer.ConditionVariable BlockServer.Mutex)
    (ran : moves.foldlM (BlockServer.monitor slotOf chaincode crypto proto).move
      (Monitor.start (BlockServer.initial heap db blockNum files)) = some world) :
    (world.status .manager = .blocked .produce → world.status .coordinator ≠ .blocked .consume) ∧
      (∀ thread condition, world.status thread = .blocked condition → world.state.ready thread = true →
        ∃ other, world.status other = .notifying condition) ∧
      ∀ id, world.status .coordinator = .blocked (.workerProduce id) →
        ∃ move, (move = .run (.worker id) ∨ move = .notify (.worker id)) ∧
          ((BlockServer.monitor slotOf chaincode crypto proto).move world move).isSome := by
  have lawful := BlockServer.monitor_lawful slotOf chaincode crypto proto
  have sound := Monitor.Sound.run lawful (BlockServer.initial_orderly heap db blockNum files) ran
  refine ⟨BlockServer.manager_or_coordinator sound, fun thread condition blocked ready => ?_, fun id blocked => ?_⟩
  · exact ⟨_, sound.awake thread condition blocked ready⟩
  · exact BlockServer.awaited_moves sound blocked

section FirstWorker

/-- The coordinator sleeps twice over the buffer, and then until its first worker has started. -/
def untilFirstWorker : List (Monitor.Move BlockServerMove BlockServer.Thread) :=
  let step := Monitor.Move.run BlockServerMove.coordinator
  let go := Monitor.Move.run (.manager none)
  let sleep := [Monitor.Move.test BlockServer.Thread.coordinator, .block .coordinator]
  [step, step] ++ sleep ++ [.run (.manager (some [1, 2])), go, .notify .manager] ++ sleep ++
    [go, .run (.manager (some [3])), go, .notify .manager, step, .notify .coordinator, step] ++ sleep

theorem no_deadlock_first_worker :
    ∃ world, untilFirstWorker.foldlM (BlockServer.monitor tableSlotOf
        (ORMTestChaincode.InvokeChaincode counterInputs) counterCrypto counterProto).move
        (Monitor.start (BlockServer.initial fourIncrements (fun _ => none) 0 fun _ => none)) = some world ∧
      world.status .coordinator = .blocked (.workerProduce 1) ∧
      ∃ move, (move = .run (.worker 1) ∨ move = .notify (.worker 1)) ∧
        ((BlockServer.monitor tableSlotOf (ORMTestChaincode.InvokeChaincode counterInputs) counterCrypto
          counterProto).move world move).isSome := by
  have asleep : (untilFirstWorker.foldlM (BlockServer.monitor tableSlotOf
      (ORMTestChaincode.InvokeChaincode counterInputs) counterCrypto counterProto).move
      (Monitor.start (BlockServer.initial fourIncrements (fun _ => none) 0 fun _ => none))).map
        (fun world => world.status .coordinator) = some (.blocked (.workerProduce 1)) := by
    decide +kernel
  obtain ⟨world, ran, blocked⟩ := Option.map_eq_some_iff.mp asleep
  exact ⟨world, ran, blocked, (no_deadlock _ _ _ _ _ _ _ _ _ _ ran).2.2 1 blocked⟩

end FirstWorker

end Blockchain
