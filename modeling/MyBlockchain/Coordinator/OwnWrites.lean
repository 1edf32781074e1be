import MyBlockchain.Coordinator.EpochHandOff
import MyBlockchain.Coordinator.Shares

namespace Blockchain

namespace Shared

variable {Slot : Type} {slotOf : SlotOf Slot}

theorem commitTransaction_result [DecidableEq Slot] {worker : Nat} {shared next : Shared Slot} {r : Ref}
    (step : shared.commitTransaction slotOf worker r = some next) :
    ∃ result, next.heap = Function.update shared.heap r ((shared.heap r).setTransactionResult result) := by
  unfold commitTransaction at step
  dsimp only at step
  split at step
  · cases step
    exact ⟨(shared.heap r).transactionResult, (Function.update_eq_self r shared.heap).symm⟩
  · obtain ⟨address, -, step⟩ := Option.bind_eq_some_iff.mp step
    obtain ⟨table, -, step⟩ := Option.bind_eq_some_iff.mp step
    split at step
    · cases step
      exact ⟨_, rfl⟩
    · split at step
      · obtain ⟨⟨database, committed⟩, -, step⟩ := Option.bind_eq_some_iff.mp step
        cases step
        exact ⟨_, rfl⟩
      · cases step
        exact ⟨_, rfl⟩

theorem commitTransaction_object [DecidableEq Slot] {worker : Nat} {shared next : Shared Slot} {r : Ref}
    (step : shared.commitTransaction slotOf worker r = some next) (other : Ref) :
    ∃ result, next.heap other = (shared.heap other).setTransactionResult result := by
  obtain ⟨result, heap⟩ := commitTransaction_result step
  rw [heap]
  by_cases same : other = r
  · subst same
    exact ⟨result, Function.update_self ..⟩
  · exact ⟨(shared.heap other).transactionResult, Function.update_of_ne same ..⟩

end Shared

theorem TransactionManagerImpl.finishTransaction_heap (manager : TransactionManagerImpl) (heap : Heap) (tr : Ref)
    (rest : List Ref) (trWrapper : TransactionWrapper) :
    (manager.finishTransaction id heap tr rest trWrapper).2 =
      if (heap tr).transactionResult = .ABORT then
        Function.update heap tr (FinishEpoch.retry (manager.epoch + 1) (heap tr))
      else heap := by
  unfold TransactionManagerImpl.finishTransaction FinishEpoch.finishTransaction
  cases result : (heap tr).transactionResult with
  | ABORT =>
    simp only [result, if_true]
    split <;> rfl
  | PENDING | COMMIT | ABORT_NO_RETRY => simp [result]

namespace BlockServer

variable {Slot : Type} {system next : BlockServer Slot} {slotOf : SlotOf Slot} {chaincode : Chaincode}

/-- The set of an executed transaction is what its chaincode adds when it is run on its payload. -/
structure Own (slotOf : SlotOf Slot) (chaincode : Chaincode) (system : BlockServer Slot) (execution : Execution) :
    Prop where
  added : ∃ db : Contents Slot, execution.kvrwSet = (chaincode execution.tid
    (system.server.shared.heap execution.transaction).transactionPayload (selectDB slotOf db)).rwSet
  kept : (system.server.shared.heap execution.transaction).kvrwSet = execution.kvrwSet

/-- What `executeList` starts with, and what it leaves until the epoch ends. -/
structure OwnWrites (slotOf : SlotOf Slot) (chaincode : Chaincode) (system : BlockServer Slot) : Prop where
  starts : ∀ id ∈ system.server.workerIDs, ∀ r rest, (system.server.workers id).pc = .executing (r :: rest) →
    (system.server.shared.heap r).kvrwSet = .empty
  executed : ∀ execution ∈ system.server.executed, execution.transaction ∈ system.server.current →
    system.Own slotOf chaincode execution

/-- A transaction has nothing in its set until it is executed in its epoch. -/
structure RWSets (slotOf : SlotOf Slot) (chaincode : Chaincode) (system : BlockServer Slot) : Prop where
  shares : system.server.Shares
  placed : (system.server.current.map fun r => (r, system.server.epochChan)).Sublist system.placements
  empty : ∀ r, system.server.epochChan < system.epochOf r ∨
    system.epochOf r = system.server.epochChan ∧ r ∉ system.server.invoked →
    (system.server.shared.heap r).kvrwSet = .empty
  executed : ∀ execution ∈ system.server.executed, execution.transaction ∈ system.server.current →
    system.Own slotOf chaincode execution

theorem Own.congr {execution : Execution} (own : system.Own slotOf chaincode execution)
    (payload : (next.server.shared.heap execution.transaction).transactionPayload =
      (system.server.shared.heap execution.transaction).transactionPayload)
    (kvrwSet : (next.server.shared.heap execution.transaction).kvrwSet =
      (system.server.shared.heap execution.transaction).kvrwSet) : next.Own slotOf chaincode execution where
  added := by
    rw [payload]
    exact own.added
  kept := kvrwSet.trans own.kept

theorem Own.executed {r : Ref} (start : (system.server.shared.heap r).kvrwSet = .empty)
    (after : next.server.shared.heap r = system.server.shared.executed slotOf chaincode r) :
    next.Own slotOf chaincode (system.server.execution slotOf chaincode r) where
  added := by
    refine ⟨system.server.shared.database.db, ?_⟩
    show (system.server.shared.heap r).kvrwSet.append _ =
      (chaincode _ (next.server.shared.heap r).transactionPayload _).rwSet
    rw [start, KVRWSet.empty_append, after]
    rfl
  kept := by
    show (next.server.shared.heap r).kvrwSet = _
    rw [after]
    rfl

theorem initial_rwSets {heap : Heap} (empty : ∀ r, (heap r).kvrwSet = .empty) (db : Contents Slot) (blockNum : Nat)
    (files : Nat → Option Block) : (initial heap db blockNum files).RWSets slotOf chaincode where
  shares := Server.initial_shares heap db 1
  placed := .slnil
  empty r _ := empty r
  executed _ member := by cases member

theorem RWSets.distinct (rwSets : system.RWSets slotOf chaincode) (handOff : system.HandOff) :
    system.server.current.Nodup := by
  have sendings : system.manager.sendings.Nodup := handOff.lists.distinct
  have all := handOff.placed.placed.nodup_iff.mp sendings
  exact .of_map _ (rwSets.placed.nodup (List.nodup_append.mp all).1)

theorem RWSets.ownWrites (rwSets : system.RWSets slotOf chaincode) (handOff : system.HandOff) :
    system.OwnWrites slotOf chaincode where
  starts id member r rest pc := by
    obtain ⟨running, new⟩ := rwSets.shares.unexecuted handOff.invariants.phase (rwSets.distinct handOff) member pc
    exact rwSets.empty r (.inr ⟨handOff.invariants.executions.epochs r running, new⟩)
  executed := rwSets.executed

theorem RWSets.running (rwSets : system.RWSets slotOf chaincode) (running : system.server.pc ≠ .increment)
    {execution : Execution} (member : execution ∈ system.server.executed) :
    execution.transaction ∈ system.server.current :=
  (rwSets.shares running).mem_iff.mpr (List.mem_append_left _ (List.mem_map_of_mem member))

theorem RWSets.coordinates (rwSets : system.RWSets slotOf chaincode) (handOff : system.HandOff)
    {transactionList : List Ref} (step : system.server.coordinatorStep transactionList = some next.server)
    (workloads : next.workloads = system.workloads ++
      if transactionList = [] then [] else [system.server.makeWorkload transactionList]) :
    next.RWSets slotOf chaincode := by
  obtain ⟨phase, -, -, executions⟩ := handOff.invariants
  have shares := rwSets.shares.coordinator executions phase step
  have placements : system.placements.Sublist next.placements := by
    rw [BlockServer.placements, BlockServer.placements, workloads, List.flatMap_append]
    exact List.sublist_append_left _ _
  obtain ⟨server, manager, buffer, received, made⟩ := next
  dsimp only at *
  cases Server.coordinatorStep_cases phase step with
  | goto | signal | create | assign =>
    exact ⟨shares, rwSets.placed.trans placements, rwSets.empty, fun execution member running =>
      (rwSets.executed execution member running).congr rfl rfl⟩
  | make pc nonempty epochs =>
    refine ⟨shares, ?_, rwSets.empty, fun execution member _ => ?_⟩
    · rw [if_neg nonempty] at workloads
      subst workloads
      rw [BlockServer.placements, List.flatMap_append, List.flatMap_singleton, List.map_append]
      exact rwSets.placed.append (.refl _)
    · exact (rwSets.executed execution member (rwSets.running (by simp [pc]) member)).congr rfl rfl
  | finish => exact ⟨shares, List.nil_sublist _, rwSets.empty, fun _ _ running => by cases running⟩
  | increment pc =>
    refine ⟨shares, ?_, fun r later => rwSets.empty r (.inl ?_), fun _ member => by cases member⟩
    · dsimp only
      rw [executions.announced pc]
      exact List.nil_sublist _
    · rcases later with later | ⟨now, -⟩
      · exact Nat.lt_of_succ_lt later
      · exact Nat.lt_of_succ_le (Nat.le_of_eq now.symm)

theorem RWSets.coordinator (rwSets : system.RWSets slotOf chaincode) (handOff : system.HandOff)
    (step : system.coordinatorStep = some next) : next.RWSets slotOf chaincode := by
  unfold coordinatorStep at step
  split at step
  · obtain ⟨⟨transactionList, rest⟩, -, step⟩ := Option.bind_eq_some_iff.mp step
    obtain ⟨server, stepped, same⟩ := Option.bind_eq_some_iff.mp step
    cases same
    exact rwSets.coordinates handOff stepped rfl
  · obtain ⟨server, stepped, same⟩ := Option.bind_eq_some_iff.mp step
    cases same
    exact rwSets.coordinates handOff stepped (List.append_nil _).symm
  · obtain ⟨server, stepped, same⟩ := Option.bind_eq_some_iff.mp step
    cases same
    exact rwSets.coordinates handOff stepped (List.append_nil _).symm

theorem RWSets.world (rwSets : system.RWSets slotOf chaincode) {r : Ref} (outside : r ∉ system.server.current)
    {transaction : MockTransaction} (empty : transaction.kvrwSet = .empty)
    (heap : next.server = { system.server with
      shared.heap := Function.update system.server.shared.heap r transaction })
    (workloads : next.workloads = system.workloads) : next.RWSets slotOf chaincode := by
  have kept : ∀ other, other ≠ r → next.server.shared.heap other = system.server.shared.heap other := by
    intro other different
    rw [heap]
    exact Function.update_of_ne different ..
  constructor
  case shares =>
    rw [heap]
    exact rwSets.shares
  case placed =>
    rw [BlockServer.placements, workloads, heap]
    exact rwSets.placed
  case empty =>
    intro other unexecuted
    by_cases same : other = r
    · subst same
      rw [heap]
      exact (congrArg MockTransaction.kvrwSet (Function.update_self ..)).trans empty
    · rw [kept other same]
      rw [epochOf, kept other same, heap] at unexecuted
      exact rwSets.empty other unexecuted
  case executed =>
    intro execution member running
    rw [heap] at member running
    have different : execution.transaction ≠ r := by
      rintro rfl
      exact outside running
    have same := kept execution.transaction different
    exact (rwSets.executed execution member running).congr (by rw [same]) (by rw [same])

theorem RWSets.execute (rwSets : system.RWSets slotOf chaincode) {r : Ref} {server : Server Slot}
    (mine : system.epochOf r = system.server.epochChan) (new : r ∉ system.server.invoked)
    (shares : server.Shares) (current : server.current = system.server.current)
    (epochChan : server.epochChan = system.server.epochChan)
    (executed : server.executed = system.server.executed ++ [system.server.execution slotOf chaincode r])
    (mineAfter : server.shared.heap r = system.server.shared.executed slotOf chaincode r)
    (others : ∀ other, other ≠ r → server.shared.heap other = system.server.shared.heap other) :
    RWSets slotOf chaincode { system with server } where
  shares := shares
  placed := by
    show (server.current.map _).Sublist _
    rw [current, epochChan]
    exact rwSets.placed
  empty other unexecuted := by
    have epoch : (server.shared.heap other).epoch = (system.server.shared.heap other).epoch := by
      by_cases same : other = r
      · rw [same, mineAfter]
        rfl
      · rw [others other same]
    dsimp only [epochOf] at unexecuted ⊢
    rw [epoch, epochChan, Server.invoked, executed, List.map_append, List.mem_append, not_or] at unexecuted
    have different : other ≠ r := by
      rintro rfl
      rcases unexecuted with later | ⟨-, -, never⟩
      · exact absurd mine (Nat.ne_of_gt later)
      · exact never (.head _)
    rw [others other different]
    exact rwSets.empty other (unexecuted.imp_right fun now => ⟨now.1, now.2.1⟩)
  executed execution known running := by
    dsimp only at known running
    rw [executed] at known
    rw [current] at running
    rcases List.mem_append.mp known with old | last
    · have different : execution.transaction ≠ r := by
        rintro rfl
        exact new (List.mem_map_of_mem old)
      have same := others execution.transaction different
      exact (rwSets.executed execution old running).congr (by dsimp only; rw [same]) (by dsimp only; rw [same])
    · cases List.mem_singleton.mp last
      exact Own.executed (rwSets.empty r (.inr ⟨mine, new⟩)) mineAfter

theorem RWSets.worker [DecidableEq Slot] (rwSets : system.RWSets slotOf chaincode) (handOff : system.HandOff)
    {id : Nat} (member : id ∈ system.server.workerIDs) {server : Server Slot}
    (step : system.server.workerStep slotOf chaincode id = some server) :
    RWSets slotOf chaincode { system with server } := by
  have distinct := rwSets.distinct handOff
  obtain ⟨phase, -, -, executions⟩ := handOff.invariants
  have shares := rwSets.shares.worker phase member step
  obtain ⟨worker, stage, shared, executed, move, rfl⟩ := Server.workerStep_cases step
  cases move with
  | advance =>
    exact ⟨shares, rwSets.placed, rwSets.empty, fun execution old running =>
      (rwSets.executed execution old running).congr rfl rfl⟩
  | @execute r rest pc =>
    obtain ⟨mine, new⟩ := rwSets.shares.unexecuted phase distinct member pc
    refine rwSets.execute (executions.epochs r mine) new shares rfl rfl rfl ?_ fun other different =>
      Shared.executeTransaction_other id system.server.shared different
    dsimp only
    rw [Shared.executeTransaction_heap, Function.update_self]
  | @commit r rest _ pc stepped =>
    have object := Shared.commitTransaction_object stepped
    refine ⟨shares, rwSets.placed, fun other unexecuted => ?_, fun execution known running => ?_⟩
    · obtain ⟨_, same⟩ := object other
      dsimp only [BlockServer.epochOf] at unexecuted ⊢
      rw [same] at unexecuted ⊢
      exact rwSets.empty other unexecuted
    · obtain ⟨_, same⟩ := object execution.transaction
      exact (rwSets.executed execution known running).congr (by dsimp only; rw [same]; rfl)
        (by dsimp only; rw [same]; rfl)

theorem RWSets.manager {crypto : BlockCrypto} {proto : TransactionProto} (rwSets : system.RWSets slotOf chaincode)
    (handOff : system.HandOff) {answer : Option (List Ref)}
    (step : system.managerStep crypto proto answer = some next) : next.RWSets slotOf chaincode := by
  obtain ⟨-, step⟩ := Option.ite_none_right_eq_some.mp step
  obtain ⟨⟨manager, heap, sent⟩, stepped, step⟩ := Option.bind_eq_some_iff.mp step
  obtain ⟨transactionBuffer, -, same⟩ := Option.bind_eq_some_iff.mp step
  cases same
  cases TransactionManagerImpl.step_cases stepped with
  | goto | receiveCurrent | receiveNext | finishEpoch | send | generate =>
    exact ⟨rwSets.shares, rwSets.placed, rwSets.empty, fun execution old running =>
      (rwSets.executed execution old running).congr rfl rfl⟩
  | @finishTransaction tr rest trWrapper pc =>
    have finished := TransactionManagerImpl.finishTransaction_heap system.manager system.server.shared.heap tr rest
      trWrapper
    split at finished
    · have outside : tr ∉ system.server.current := (handOff.finishing_outside pc).2
      have empty : (FinishEpoch.retry (system.manager.epoch + 1) (system.server.shared.heap tr)).kvrwSet = .empty := rfl
      refine rwSets.world outside empty ?_ rfl
      dsimp only
      rw [finished]
    · rw [finished]
      exact ⟨rwSets.shares, rwSets.placed, rwSets.empty, fun execution old running =>
        (rwSets.executed execution old running).congr rfl rfl⟩

theorem RWSets.step [DecidableEq Slot] {crypto : BlockCrypto} {proto : TransactionProto}
    (rwSets : system.RWSets slotOf chaincode) (handOff : system.HandOff) {move : BlockServerMove}
    (created : ∀ r transaction, move = .create r transaction → transaction.kvrwSet = .empty)
    (step : system.step slotOf chaincode crypto proto move = some next) : next.RWSets slotOf chaincode := by
  cases move with
  | coordinator => exact rwSets.coordinator handOff step
  | worker id =>
    obtain ⟨member, step⟩ := Option.ite_none_right_eq_some.mp step
    obtain ⟨server, stepped, rfl⟩ := Option.map_eq_some_iff.mp step
    exact rwSets.worker handOff member stepped
  | manager answer => exact rwSets.manager handOff step
  | create r transaction =>
    obtain ⟨unknown, same⟩ := Option.ite_none_left_eq_some.mp step
    cases same
    refine rwSets.world (fun running => unknown ?_) (created r transaction rfl) rfl rfl
    exact handOff.lists.mem_received (handOff.buffered.running r running)

end BlockServer

end Blockchain
