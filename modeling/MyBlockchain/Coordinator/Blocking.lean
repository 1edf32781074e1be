import MyBlockchain.Coordinator.CommitBuffers
import MyBlockchain.Library.ConditionVariable

namespace Blockchain

/-- The condition of `consume` in `getWorkload`. -/
def hasWorkload (heap : Heap) (epochChan : Nat) (transactionBuffer : List Ref) : Bool :=
  match transactionBuffer.getLast? with
  | none => false
  | some back =>
    decide (epochChan < (heap back).epoch) ||
      decide (coordinatorMinTransactionPerWorkload ≤ transactionBuffer.length)

theorem getWorkload_isSome (heap : Heap) (epochChan : Nat) (transactionBuffer : List Ref) :
    (getWorkload heap epochChan transactionBuffer).isSome = hasWorkload heap epochChan transactionBuffer := by
  unfold getWorkload hasWorkload
  cases transactionBuffer with
  | nil => rfl
  | cons front rest =>
    cases (front :: rest).getLast? with
    | none => rfl
    | some back =>
      dsimp only
      split
      · next found =>
        have enough : (decide (epochChan < (heap back).epoch) ||
            decide (coordinatorMinTransactionPerWorkload ≤ (front :: rest).length)) = true := by simpa using found
        rw [enough]
        split <;> rfl
      · next few => simpa using few

theorem hasWorkload_congr {heap after : Heap} {epochChan : Nat} {transactionBuffer : List Ref}
    (epoch : ∀ r ∈ transactionBuffer, (after r).epoch = (heap r).epoch) :
    hasWorkload after epochChan transactionBuffer = hasWorkload heap epochChan transactionBuffer := by
  unfold hasWorkload
  cases last : transactionBuffer.getLast? with
  | none => rfl
  | some back =>
    dsimp only
    rw [epoch back (List.mem_of_getLast? last)]

theorem hasWorkload_of_length {heap : Heap} {epochChan : Nat} {transactionBuffer : List Ref}
    (enough : coordinatorMinTransactionPerWorkload ≤ transactionBuffer.length) :
    hasWorkload heap epochChan transactionBuffer = true := by
  have nonempty : transactionBuffer ≠ [] := by
    rintro rfl
    exact absurd enough (by decide)
  rw [hasWorkload, List.getLast?_eq_some_getLast nonempty]
  simp [enough]

/-- The wrapper that `sendTransactionHandle` is called with. -/
def TransactionManagerImpl.sending (manager : TransactionManagerImpl) : Option TransactionWrapper :=
  match manager.pc with
  | .sendCurrent trWrapper | .sendNext trWrapper | .finishing [] trWrapper => some trWrapper
  | .sendFull full _ _ => some full
  | _ => none

/-- The condition of the loop in `waitForSignal`, where the worker stands in front of one. -/
def WorkerInstance.ready (worker : WorkerInstance) : Bool :=
  match worker.pc with
  | .waitRead => (worker.waitForSignal .Aria_READ).isSome
  | .waitCommit => (worker.waitForSignal .Aria_COMMIT).isSome
  | _ => true

def WorkerInstance.announces (worker : WorkerInstance) : Bool :=
  match worker.pc with
  | .start | .executed | .committed | .exiting => true
  | _ => false

/-- The worker whose `ariaGlobalState` the next step of the coordinator stores under its mutex. -/
def Server.signalled {Slot : Type} (server : Server Slot) : Option Nat :=
  match server.pc with
  | .broadcastStart (id :: _) | .signalRead id => some id
  | .broadcastRead (id :: _) | .broadcastCommit (id :: _) =>
    if (server.workers id).workerState = .READY then none else some id
  | _ => none

/-- `getTransaction` is asked for at most `TR_MGR_GET_BATCH_MAX_SIZE` transactions. -/
def BlockServerMove.bounded : BlockServerMove → Bool
  | .manager (some batch) => batch.length ≤ trMgrGetBatchMaxSize
  | _ => true

namespace BlockServer

inductive Thread
  | coordinator
  | manager
  | worker (workerID : Nat)
  | comm
  deriving DecidableEq, Repr

/-- `produce` and `consume` of the coordinator, and of each worker. -/
inductive ConditionVariable
  | produce
  | consume
  | workerProduce (workerID : Nat)
  | workerConsume (workerID : Nat)
  deriving DecidableEq, Repr

inductive Mutex
  | transactionBufferMutex
  | worker (workerID : Nat)
  deriving DecidableEq, Repr

def Thread.of : BlockServerMove → Thread
  | .coordinator => .coordinator
  | .worker id => .worker id
  | .manager _ => .manager
  | .create _ _ => .comm

namespace ConditionVariable

def mutex : ConditionVariable → Mutex
  | .produce | .consume => .transactionBufferMutex
  | .workerProduce id | .workerConsume id => .worker id

def waiter : ConditionVariable → Thread
  | .produce => .manager
  | .consume | .workerProduce _ => .coordinator
  | .workerConsume id => .worker id

def notifier : ConditionVariable → Thread
  | .produce | .workerConsume _ => .coordinator
  | .consume => .manager
  | .workerProduce id => .worker id

end ConditionVariable

variable {Slot : Type}

def waits (system : BlockServer Slot) : Thread → Option ConditionVariable
  | .coordinator =>
    match system.server.pc with
    | .getWorkload => some .consume
    | .syncAssigned id | .waitFinishRead id _ | .waitReady id _ => some (.workerProduce id)
    | _ => none
  | .manager => if system.manager.sending.isSome then some .produce else none
  | .worker id =>
    if id ∈ system.server.workerIDs then
      match (system.server.workers id).pc with
      | .waitRead | .waitCommit => some (.workerConsume id)
      | _ => none
    else none
  | .comm => none

/-- The conditions of the four loops around a wait. -/
def ready (system : BlockServer Slot) : Thread → Bool
  | .coordinator =>
    match system.server.pc with
    | .getWorkload =>
      hasWorkload system.server.shared.heap system.server.epochChan system.transactionBuffer
    | .syncAssigned id => (system.server.workers id).workerState = .ASSIGNED
    | .waitFinishRead id _ => (system.server.workers id).workerState = .FINISH_READ
    | .waitReady id _ => (system.server.workers id).workerState = .READY
    | _ => true
  | .manager =>
    match system.manager.sending with
    | some trWrapper => system.transactionBuffer.length + trWrapper.size ≤ coordinatorInputMaxBufferSize
    | none => true
  | .worker id => (system.server.workers id).ready
  | .comm => true

/-- The stores of `deployWorkload` and `createWorker` are made without a mutex. The two tests of `syncAllWorker` are
two steps, with the mutex free in between. -/
def uses (system : BlockServer Slot) : Thread → Option Mutex
  | .coordinator =>
    match system.server.pc with
    | .getWorkload => some .transactionBufferMutex
    | .broadcastStart (id :: _) | .broadcastRead (id :: _) | .broadcastCommit (id :: _) | .syncRead (id :: _)
    | .syncCommit (id :: _) | .syncAssigned id | .signalRead id | .waitFinishRead id _ | .waitReady id _ =>
      some (.worker id)
    | _ => none
  | .manager => if system.manager.sending.isSome then some .transactionBufferMutex else none
  | .worker id =>
    match (system.server.workers id).pc with
    | .start | .waitRead | .executed | .waitCommit | .committed | .exiting => some (.worker id)
    | _ => none
  | .comm => none

/-- The early return of `getWorkload` pops nothing and notifies nobody. -/
def notifies (system : BlockServer Slot) : BlockServerMove → Option ConditionVariable
  | .coordinator =>
    match system.server.pc, system.transactionBuffer with
    | .getWorkload, front :: _ =>
      if system.server.epochChan < system.epochOf front then none else some .produce
    | _, _ => system.server.signalled.map .workerConsume
  | .manager _ => if system.manager.sending.isSome then some .consume else none
  | .worker id => if (system.server.workers id).announces then some (.workerProduce id) else none
  | .create _ _ => none

def monitor [DecidableEq Slot] (slotOf : SlotOf Slot) (chaincode : Chaincode) (crypto : BlockCrypto)
    (proto : TransactionProto) : Monitor (BlockServer Slot) BlockServerMove Thread ConditionVariable Mutex where
  thread := .of
  step move system := if move.bounded then system.step slotOf chaincode crypto proto move else none
  waits thread system := system.waits thread
  ready thread system := system.ready thread
  uses thread system := system.uses thread
  notifies move system := system.notifies move
  mutex := ConditionVariable.mutex
  waiter := ConditionVariable.waiter
  notifier := ConditionVariable.notifier

end BlockServer

end Blockchain
