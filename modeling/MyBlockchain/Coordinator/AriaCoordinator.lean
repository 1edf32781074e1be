import MyBlockchain.Worker.AriaWorker
import MyBlockchain.Worker.TransactionExecutor

namespace Blockchain

/-- Where `AriaCoordinator::mainRoutine` stands; the lists are the worker ids a loop has still to visit. -/
inductive CoordinatorPc
  | begin
  | broadcastStart (rest : List Nat)
  | getWorkload
  | deployWorkload (workload : Workload) (rest : List Nat)
  | syncAssigned (workerID : Nat)
  | signalRead (workerID : Nat)
  | broadcastRead (rest : List Nat)
  | syncRead (rest : List Nat)
  | waitFinishRead (workerID : Nat) (rest : List Nat)
  | broadcastCommit (rest : List Nat)
  | syncCommit (rest : List Nat)
  | waitReady (workerID : Nat) (rest : List Nat)
  | finish
  | increment
  deriving DecidableEq, Repr

inductive Event
  | reached (workload : Workload) (worker : Nat) (stage : Stage)
  | finished (epoch : Nat)
  deriving DecidableEq, Repr

/-- An iteration of `executeList`: whether the chaincode succeeded, and what it left in the transaction. -/
structure Execution where
  transaction : Ref
  success : Bool
  kvrwSet : KVRWSet
  tid : Nat
  deriving DecidableEq, Repr

/-- The coordinator, the workers and what they share. The last four fields are there for the proofs: the
number of workload objects, the transactions of those of the running epoch, the iterations of `executeList`
in that epoch, and what has happened. -/
structure Server (Slot : Type) where
  shared : Shared Slot
  epochChan : Nat
  globalState : AriaGlobalState
  IDNounce : Nat
  workers : Nat → WorkerInstance
  pc : CoordinatorPc
  made : Nat
  current : List Ref
  executed : List Execution
  log : List Event

inductive Move
  | coordinator (transactionList : List Ref)
  | worker (workerID : Nat)
  | environment (r : Ref) (transaction : MockTransaction)
  deriving DecidableEq, Repr

namespace Server

variable {Slot : Type}

def initial (heap : Heap) (db : Contents Slot) (epochChan : Nat) : Server Slot where
  shared := { heap, database := .initial db, provider := .initial, reserveTable := fun _ => none }
  epochChan
  globalState := .START
  IDNounce := 1
  workers := fun _ =>
    { ariaGlobalState := .START, workerState := .READY, workload := ⟨0, 0, []⟩, pc := .start }
  pc := .begin
  made := 0
  current := []
  executed := []
  log := []

def workerIDs (server : Server Slot) : List Nat := List.range' 1 (server.IDNounce - 1)

def setWorker (server : Server Slot) (workerID : Nat) (worker : WorkerInstance) : Server Slot :=
  { server with workers := Function.update server.workers workerID worker }

def record (server : Server Slot) (event : Event) : Server Slot :=
  { server with log := server.log ++ [event] }

def setPc (server : Server Slot) (pc : CoordinatorPc) : Server Slot := { server with pc }

def broadcastTo (server : Server Slot) (onlyAssigned : Bool) (workerID : Nat) : Server Slot :=
  let worker := server.workers workerID
  if onlyAssigned ∧ worker.workerState = .READY then server
  else server.setWorker workerID { worker with ariaGlobalState := server.globalState }

def createWorker (server : Server Slot) (workload : Workload) : Server Slot :=
  let worker : WorkerInstance :=
    { ariaGlobalState := server.globalState, workerState := .READY, workload, pc := .start }
  { server.setWorker server.IDNounce worker with IDNounce := server.IDNounce + 1 }

/-- A workload of `getWorkload`, whose loop only takes transactions of the epoch in `epochChan`. -/
def makeWorkload (server : Server Slot) (transactionList : List Ref) : Workload :=
  { address := server.made, epoch := server.epochChan, transactionList }

/-- A step of `mainRoutine`. The list is what `getWorkload` finds, empty when it sets
`isCurrentEpochEmpty`. -/
def coordinatorStep (server : Server Slot) (transactionList : List Ref) : Option (Server Slot) :=
  match server.pc with
  | .begin => some { server with globalState := .START, pc := .broadcastStart server.workerIDs }
  | .broadcastStart [] => some (server.setPc .getWorkload)
  | .broadcastStart (id :: rest) => some ((server.broadcastTo false id).setPc (.broadcastStart rest))
  | .getWorkload =>
    if transactionList = [] then
      some { server with globalState := .Aria_READ, pc := .broadcastRead server.workerIDs }
    else if ∀ r ∈ transactionList, (server.shared.heap r).epoch = server.epochChan then
      some { server with
        made := server.made + 1
        current := server.current ++ transactionList
        pc := .deployWorkload (server.makeWorkload transactionList) server.workerIDs }
    else none
  | .deployWorkload workload [] =>
    some (((server.createWorker workload).setPc (.syncAssigned server.IDNounce)).record
      (.reached workload server.IDNounce .deployed))
  | .deployWorkload workload (id :: rest) =>
    let worker := server.workers id
    if worker.workerState = .READY then
      some (((server.setWorker id { worker with workload, workerState := .ASSIGNED }).setPc
        (.signalRead id)).record (.reached workload id .deployed))
    else some (server.setPc (.deployWorkload workload rest))
  | .syncAssigned id =>
    if (server.workers id).workerState = .ASSIGNED then some (server.setPc (.signalRead id)) else none
  | .signalRead id =>
    some ((server.setWorker id { server.workers id with ariaGlobalState := .Aria_READ }).setPc .getWorkload)
  | .broadcastRead [] => some (server.setPc (.syncRead server.workerIDs))
  | .broadcastRead (id :: rest) => some ((server.broadcastTo true id).setPc (.broadcastRead rest))
  | .syncRead [] => some { server with globalState := .Aria_COMMIT, pc := .broadcastCommit server.workerIDs }
  | .syncRead (id :: rest) =>
    if (server.workers id).workerState = .READY ∨ (server.workers id).workerState = .FINISH_READ then
      some (server.setPc (.syncRead rest))
    else some (server.setPc (.waitFinishRead id rest))
  | .waitFinishRead id rest =>
    if (server.workers id).workerState = .FINISH_READ then some (server.setPc (.syncRead rest)) else none
  | .broadcastCommit [] => some (server.setPc (.syncCommit server.workerIDs))
  | .broadcastCommit (id :: rest) => some ((server.broadcastTo true id).setPc (.broadcastCommit rest))
  | .syncCommit [] => some (server.setPc .finish)
  | .syncCommit (id :: rest) =>
    if (server.workers id).workerState = .READY then some (server.setPc (.syncCommit rest))
    else some (server.setPc (.waitReady id rest))
  | .waitReady id rest =>
    if (server.workers id).workerState = .READY then some (server.setPc (.syncCommit rest)) else none
  | .finish => some ({ server with current := [], pc := .increment }.record (.finished server.epochChan))
  | .increment => some { server with epochChan := server.epochChan + 1, executed := [], pc := .begin }

section Step

variable (slotOf : SlotOf Slot) (chaincode : Chaincode)

def execution (server : Server Slot) (r : Ref) : Execution :=
  let invocation := server.shared.invoke slotOf chaincode r
  { transaction := r
    success := invocation.success
    kvrwSet := (server.shared.heap r).kvrwSet.append invocation.rwSet
    tid := (server.shared.heap r).tid }

/-- A step of `AriaWorker::run`; the iterations of the executor's loops are steps of their own. -/
def workerStep [DecidableEq Slot] (server : Server Slot) (id : Nat) : Option (Server Slot) :=
  let worker := server.workers id
  match worker.pc with
  | .executing (r :: rest) =>
    let shared := server.shared.executeTransaction slotOf chaincode id r
    let executed := server.executed ++ [server.execution slotOf chaincode r]
    some ({ server with shared, executed }.setWorker id { worker with pc := .executing rest })
  | .committing (r :: rest) =>
    (server.shared.commitTransaction slotOf id r).map fun shared =>
      { server with shared }.setWorker id { worker with pc := .committing rest }
  | _ =>
    worker.advance.map fun (next, stage) =>
      match stage with
      | none => server.setWorker id next
      | some stage => (server.setWorker id next).record (.reached worker.workload id stage)

/-- The other threads leave the transactions of the running epoch alone. -/
def step [DecidableEq Slot] (server : Server Slot) : Move → Option (Server Slot)
  | .coordinator transactionList => server.coordinatorStep transactionList
  | .worker id => if id ∈ server.workerIDs then server.workerStep slotOf chaincode id else none
  | .environment r transaction =>
    if r ∈ server.current then none
    else some { server with shared.heap := Function.update server.shared.heap r transaction }

def run [DecidableEq Slot] (server : Server Slot) (moves : List Move) : Option (Server Slot) :=
  moves.foldlM (Server.step slotOf chaincode) server

end Step

end Server

end Blockchain
