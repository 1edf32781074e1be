import MyBlockchain.Coordinator.OwnWrites
import MyBlockchain.Worker.CommitPhase

namespace Blockchain

theorem DatabaseImpl.commitUpdate_rwSetBuffer {Slot : Type} [DecidableEq Slot] {slotOf : SlotOf Slot} {heap : Heap}
    {database after : DatabaseImpl Slot} {tid : Nat} {committed : Bool}
    (step : database.commitUpdate slotOf heap tid = some (after, committed)) :
    after.rwSetBuffer = database.rwSetBuffer := by
  unfold commitUpdate at step
  split at step
  · cases step
    rfl
  · obtain ⟨kvRWSet, -, same⟩ := Option.map_eq_some_iff.mp step
    cases same
    rfl

theorem Shared.commitTransaction_rwSetBuffer {Slot : Type} [DecidableEq Slot] {slotOf : SlotOf Slot} {worker : Nat}
    {shared next : Shared Slot} {r : Ref} (step : shared.commitTransaction slotOf worker r = some next) :
    next.database.rwSetBuffer = shared.database.rwSetBuffer := by
  unfold commitTransaction at step
  dsimp only at step
  split at step
  · cases step
    rfl
  · obtain ⟨address, -, step⟩ := Option.bind_eq_some_iff.mp step
    obtain ⟨table, -, step⟩ := Option.bind_eq_some_iff.mp step
    split at step
    · cases step
      rfl
    · split at step
      · obtain ⟨⟨database, committed⟩, updated, step⟩ := Option.bind_eq_some_iff.mp step
        cases step
        exact DatabaseImpl.commitUpdate_rwSetBuffer updated
      · cases step
        rfl

/-- The workers have been told to commit. -/
def CoordinatorPc.Commits : CoordinatorPc → Prop
  | .broadcastCommit _ | .syncCommit _ | .waitReady _ _ | .finish | .increment => True
  | _ => False

namespace Server

variable {Slot : Type} {slotOf : SlotOf Slot} {chaincode : Chaincode} {server next : Server Slot}

/-- What has been executed in the running epoch can be committed: the database has a set under its ID. -/
structure Buffers (server : Server Slot) : Prop where
  shares : server.Shares
  latch : server.shared.database.commitPhase = true → server.executed ≠ [] → server.pc.Commits
  kept : ∀ execution ∈ server.executed, (server.shared.database.rwSetBuffer execution.tid).isSome
  tid : server.pc ≠ .increment → ∀ execution ∈ server.executed,
    (server.shared.heap execution.transaction).tid = execution.tid

theorem initial_buffers (heap : Heap) (db : Contents Slot) (epochChan : Nat) :
    (initial heap db epochChan).Buffers where
  shares := initial_shares heap db epochChan
  latch _ some := absurd rfl some
  kept _ member := by cases member
  tid _ _ member := by cases member

theorem coordinatorStep_commits {transactionList : List Ref}
    (step : server.coordinatorStep transactionList = some next) (commits : server.pc.Commits) :
    next.pc.Commits ∨ server.pc = .increment := by
  unfold coordinatorStep at step
  split at step
  case h_14 | h_15 | h_16 | h_19 =>
    cases step
    exact .inl trivial
  case h_17 =>
    split at step <;> cases step <;> exact .inl trivial
  case h_18 =>
    split at step
    · cases step
      exact .inl trivial
    · cases step
  case h_20 pc => exact .inr pc
  all_goals
    rename_i pc
    rw [pc] at commits
    exact commits.elim

theorem Buffers.coordinator (buffers : server.Buffers) (executions : server.Executions) (phase : server.Phase)
    {transactionList : List Ref} (step : server.coordinatorStep transactionList = some next) : next.Buffers := by
  have shares := buffers.shares.coordinator executions phase step
  have commits := coordinatorStep_commits step
  cases coordinatorStep_cases phase step with
  | goto pc globalState goes | signal pc id state goes =>
    exact ⟨shares, fun up some => (commits (buffers.latch up some)).resolve_right goes.before.2, buffers.kept,
      fun _ => buffers.tid goes.before.2⟩
  | make pc | create workload pc | assign workload id rest pc | finish pc =>
    have running : server.pc ≠ .increment := by simp [pc]
    exact ⟨shares, fun up some => (commits (buffers.latch up some)).resolve_right running, buffers.kept,
      fun _ => buffers.tid running⟩
  | increment pc =>
    exact ⟨shares, fun _ some => absurd rfl some, fun _ member => (by cases member), fun _ _ member => by cases member⟩

theorem Phase.loops (phase : server.Phase) {id : Nat} (member : id ∈ server.workerIDs) {rest : List Ref} :
    ((server.workers id).pc = .executing rest → ¬ server.pc.Commits) ∧
      ((server.workers id).pc = .committing rest → server.pc.Commits) := by
  obtain ⟨mode, allows, here⟩ := phase.mode id member
  constructor
  · intro pc commits
    have reading : mode = .reading := by cases mode <;> simp_all [WorkerInstance.In]
    subst reading
    cases place : server.pc <;> simp_all [CoordinatorPc.Allows, CoordinatorPc.Commits]
  · intro pc
    have committing : mode = .committing := by cases mode <;> simp_all [WorkerInstance.In]
    subst committing
    cases place : server.pc <;> simp_all [CoordinatorPc.Allows, CoordinatorPc.Commits]

theorem Buffers.worker [DecidableEq Slot] (buffers : server.Buffers) (phase : server.Phase) {id : Nat}
    (member : id ∈ server.workerIDs) (step : server.workerStep slotOf chaincode id = some next) : next.Buffers := by
  have shares := buffers.shares.worker phase member step
  obtain ⟨worker, stage, shared, executed, move, rfl⟩ := workerStep_cases step
  cases move with
  | advance => exact ⟨shares, buffers.latch, buffers.kept, buffers.tid⟩
  | @execute r rest pc =>
    have reading := (phase.loops member).1 pc
    -- the first transaction of an epoch clears what is left of the one before
    have down : server.executed ≠ [] → server.shared.database.commitPhase = false := by
      intro some
      by_contra up
      rw [Bool.not_eq_false] at up
      exact reading (buffers.latch up some)
    have ids : ∀ other, ((server.shared.executeTransaction slotOf chaincode id r).heap other).tid =
        (server.shared.heap other).tid := by
      intro other
      rw [Shared.executeTransaction_heap]
      by_cases same : other = r
      · subst same
        rw [Function.update_self]
        rfl
      · rw [Function.update_of_ne same]
    refine ⟨shares, fun up => ?_, fun execution known => ?_, fun running execution known => ?_⟩
    · dsimp only at up
      rw [Shared.executeTransaction_database, DatabaseImpl.bufferUpdates_commitPhase] at up
      cases up
    · dsimp only at known ⊢
      rw [Shared.executeTransaction_database]
      refine DatabaseImpl.bufferUpdates_isSome r _ ?_
      rcases List.mem_append.mp known with old | new
      · exact .inr ⟨down (List.ne_nil_of_mem old), buffers.kept execution old⟩
      · cases List.mem_singleton.mp new
        exact .inl rfl
    · dsimp only at known ⊢
      rw [ids]
      rcases List.mem_append.mp known with old | new
      · exact buffers.tid running execution old
      · cases List.mem_singleton.mp new
        rfl
  | @commit r rest _ pc stepped =>
    have commits := (phase.loops member).2 pc
    refine ⟨shares, fun _ _ => commits, fun execution known => ?_, fun running execution known => ?_⟩
    · dsimp only at known ⊢
      rw [Shared.commitTransaction_rwSetBuffer stepped]
      exact buffers.kept execution known
    · obtain ⟨result, same⟩ := Shared.commitTransaction_object stepped execution.transaction
      dsimp only at known ⊢
      rw [same]
      exact buffers.tid running execution known

theorem Buffers.environment (buffers : server.Buffers) {r : Ref} (outside : r ∉ server.current)
    (transaction : MockTransaction) :
    Buffers { server with shared.heap := Function.update server.shared.heap r transaction } where
  shares := buffers.shares
  latch := buffers.latch
  kept := buffers.kept
  tid running execution known := by
    have invoked : execution.transaction ∈ server.current :=
      (buffers.shares running).mem_iff.mpr (List.mem_append_left _ (List.mem_map_of_mem known))
    have different : execution.transaction ≠ r := by
      rintro rfl
      exact outside invoked
    exact (congrArg MockTransaction.tid (Function.update_of_ne different ..)).trans (buffers.tid running execution known)

theorem Buffers.step [DecidableEq Slot] (buffers : server.Buffers) (invariants : server.Invariants) {move : Move}
    (step : server.step slotOf chaincode move = some next) : next.Buffers := by
  cases move with
  | coordinator transactionList => exact buffers.coordinator invariants.executions invariants.phase step
  | worker id =>
    obtain ⟨member, step⟩ := Option.ite_none_right_eq_some.mp step
    exact buffers.worker invariants.phase member step
  | environment r transaction =>
    obtain ⟨outside, same⟩ := Option.ite_none_left_eq_some.mp step
    cases same
    exact buffers.environment outside transaction

variable (slotOf) in
/-- No pointer of `commitList` leads nowhere. -/
theorem Buffers.commits [DecidableEq Slot] (buffers : server.Buffers) (invariants : server.Invariants) {id : Nat}
    (member : id ∈ server.workerIDs) {r : Ref} {rest : List Ref} (pc : (server.workers id).pc = .committing (r :: rest)) :
    ∃ shared, server.shared.commitTransaction slotOf id r = some shared := by
  obtain ⟨phase, history, -, executions⟩ := invariants
  have busy : (server.workers id).stages ≠ Stage.all := by simp [WorkerInstance.stages, pc, Stage.all]
  obtain ⟨-, progress⟩ := Progress.running_epoch executions history phase member busy
  have running : server.pc ≠ .increment := by
    intro place
    obtain ⟨mode, allows, here⟩ := phase.mode id member
    rw [place] at allows
    rcases allows with rfl | rfl <;> simp [WorkerInstance.In, pc] at here
  have mine : r ∈ (server.workers id).workload.transactionList := by
    obtain ⟨done, split, -⟩ := progress.committed
    simp only [WorkerInstance.toCommit, pc] at split
    simp [split]
  obtain ⟨⟨execution, known, same⟩, reserved⟩ : server.Invoked id r := by
    obtain ⟨done, split, invoked⟩ := progress.executed
    simp only [WorkerInstance.toExecute, pc, List.append_nil] at split
    exact invoked r (by rwa [← split])
  have set : ∃ database, server.shared.database.commitUpdate slotOf server.shared.heap (server.shared.heap r).tid =
      some (database, true) := by
    have tid := buffers.tid running execution known
    rw [same] at tid
    rw [tid]
    by_cases up : server.shared.database.commitPhase = true
    · exact ⟨_, DatabaseImpl.commitUpdate_latched slotOf _ _ up⟩
    · obtain ⟨kvRWSet, found⟩ := Option.isSome_iff_exists.mp (buffers.kept execution known)
      exact ⟨_, DatabaseImpl.commitUpdate_first slotOf _ (by simpa using up) found⟩
  obtain ⟨database, updated⟩ := set
  refine ⟨_, Shared.commitTransaction_eq slotOf server.shared id r (fun live => ?_) fun _ => updated⟩
  have holds := reserved.resolve_left live
  exact ⟨holds.pointer, by rw [holds.table]; rfl⟩

end Server

namespace BlockServer

variable {Slot : Type} [DecidableEq Slot] {slotOf : SlotOf Slot} {chaincode : Chaincode} {crypto : BlockCrypto}
  {proto : TransactionProto} {system next : BlockServer Slot}

theorem coordinatorStep_server {Slot : Type} {system next : BlockServer Slot} (step : system.coordinatorStep = some next) :
    ∃ transactionList, system.server.coordinatorStep transactionList = some next.server := by
  unfold coordinatorStep at step
  split at step
  · obtain ⟨⟨transactionList, rest⟩, -, step⟩ := Option.bind_eq_some_iff.mp step
    obtain ⟨server, stepped, same⟩ := Option.bind_eq_some_iff.mp step
    cases same
    exact ⟨transactionList, stepped⟩
  · obtain ⟨server, stepped, same⟩ := Option.bind_eq_some_iff.mp step
    cases same
    exact ⟨[], stepped⟩
  · obtain ⟨server, stepped, same⟩ := Option.bind_eq_some_iff.mp step
    cases same
    exact ⟨[], stepped⟩

/-- To the workers and the coordinator manager and comm module are an environment that leaves the running epoch
alone. -/
theorem HandOff.simulates (handOff : system.HandOff) {move : BlockServerMove}
    (step : system.step slotOf chaincode crypto proto move = some next) :
    next.server = system.server ∨ ∃ move, system.server.step slotOf chaincode move = some next.server := by
  cases move with
  | coordinator =>
    obtain ⟨transactionList, stepped⟩ := coordinatorStep_server step
    exact .inr ⟨.coordinator transactionList, stepped⟩
  | worker id =>
    obtain ⟨member, step⟩ := Option.ite_none_right_eq_some.mp step
    obtain ⟨server, stepped, rfl⟩ := Option.map_eq_some_iff.mp step
    exact .inr ⟨.worker id, (if_pos member).trans stepped⟩
  | manager answer =>
    obtain ⟨-, step⟩ := Option.ite_none_right_eq_some.mp step
    obtain ⟨⟨manager, heap, sent⟩, stepped, step⟩ := Option.bind_eq_some_iff.mp step
    obtain ⟨transactionBuffer, -, same⟩ := Option.bind_eq_some_iff.mp step
    cases same
    cases TransactionManagerImpl.step_cases stepped with
    | goto | receiveCurrent | receiveNext | finishEpoch | send | generate => exact .inl rfl
    | @finishTransaction tr rest trWrapper pc =>
      dsimp only
      rw [TransactionManagerImpl.finishTransaction_heap]
      split
      · refine .inr ⟨.environment tr _, (if_neg (handOff.finishing_outside pc).2).trans rfl⟩
      · exact .inl rfl
  | create r transaction =>
    obtain ⟨unknown, same⟩ := Option.ite_none_left_eq_some.mp step
    cases same
    refine .inr ⟨.environment r transaction, (if_neg fun running => unknown ?_).trans rfl⟩
    exact handOff.lists.mem_received (handOff.buffered.running r running)

end BlockServer

end Blockchain
