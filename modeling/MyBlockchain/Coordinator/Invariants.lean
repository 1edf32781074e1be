import MyBlockchain.Coordinator.Executions
import MyBlockchain.Coordinator.Ordering
import MyBlockchain.Library.Runs

namespace Blockchain

namespace Server

variable {Slot : Type} [DecidableEq Slot] {slotOf : SlotOf Slot} {chaincode : Chaincode} {server next : Server Slot}

structure Invariants {Slot : Type} (server : Server Slot) : Prop where
  phase : server.Phase
  history : server.History
  ordered : server.Ordered
  executions : server.Executions

theorem initial_invariants {Slot : Type} (heap : Heap) (db : Contents Slot) (epochChan : Nat) :
    (initial heap db epochChan).Invariants :=
  ⟨initial_phase heap db epochChan, initial_history heap db epochChan, initial_ordered heap db epochChan,
    initial_executions heap db epochChan⟩

theorem Invariants.environment {Slot : Type} {server : Server Slot} (invariants : server.Invariants) {r : Ref}
    (outside : r ∉ server.current) (transaction : MockTransaction) :
    Invariants { server with shared.heap := Function.update server.shared.heap r transaction } where
  phase := ⟨invariants.phase.nounce, invariants.phase.visits, invariants.phase.signal, invariants.phase.mode⟩
  history :=
    ⟨invariants.history.made, invariants.history.known, invariants.history.current, invariants.history.pending,
      invariants.history.running, invariants.history.replaced, invariants.history.stale, invariants.history.begun,
      invariants.history.finished⟩
  ordered := ⟨invariants.ordered.commit, invariants.ordered.execute⟩
  executions := invariants.executions.environment outside transaction

theorem Invariants.coordinator {Slot : Type} {server next : Server Slot} (invariants : server.Invariants)
    {transactionList : List Ref} (step : server.coordinatorStep transactionList = some next) : next.Invariants :=
  ⟨invariants.phase.coordinator step, invariants.history.coordinator invariants.phase step,
    invariants.ordered.coordinator invariants.history invariants.phase step,
    invariants.executions.coordinator invariants.history invariants.phase step⟩

theorem Invariants.worker (invariants : server.Invariants) {id : Nat} (member : id ∈ server.workerIDs)
    (step : server.workerStep slotOf chaincode id = some next) : next.Invariants :=
  ⟨invariants.phase.worker member step, invariants.history.worker invariants.phase member step,
    invariants.ordered.worker invariants.history invariants.phase member step,
    invariants.executions.worker invariants.history invariants.phase member step⟩

theorem Invariants.step (invariants : server.Invariants) {move : Move}
    (step : server.step slotOf chaincode move = some next) : next.Invariants := by
  cases move with
  | coordinator transactionList => exact invariants.coordinator step
  | worker id =>
    obtain ⟨member, step⟩ := Option.ite_none_right_eq_some.mp step
    exact invariants.worker member step
  | environment r transaction =>
    obtain ⟨outside, same⟩ := Option.ite_none_left_eq_some.mp step
    cases same
    exact invariants.environment outside transaction

theorem Invariants.run (invariants : server.Invariants) {moves : List Move}
    (ran : server.run slotOf chaincode moves = some next) : next.Invariants :=
  Runs.invariant _ (fun stepped invariants => invariants.step stepped) ran invariants

end Server

end Blockchain
