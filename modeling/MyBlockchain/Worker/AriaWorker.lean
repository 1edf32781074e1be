import MyBlockchain.Transaction.MockTransaction

namespace Blockchain

inductive AriaGlobalState
  | START | Aria_READ | Aria_COMMIT | EXIT
  deriving DecidableEq, Repr

inductive WorkerState
  | READY | ASSIGNED | FINISH_READ | FINISH_COMMIT | EXITED
  deriving DecidableEq, Repr

/-- `address` tells one workload object from another. -/
structure Workload where
  address : Nat
  epoch : Nat
  transactionList : List Ref
  deriving DecidableEq, Repr

/-- What happens to a workload, in this order if all goes well. -/
inductive Stage
  | deployed | startExecute | finishExecute | startCommit | finishCommit
  deriving DecidableEq, Repr

def Stage.all : List Stage := [.deployed, .startExecute, .finishExecute, .startCommit, .finishCommit]

inductive WorkerPc
  | start
  | waitRead
  | executing (rest : List Ref)
  | executed
  | waitCommit
  | committing (rest : List Ref)
  | committed
  | exiting
  | exited
  deriving DecidableEq, Repr

structure WorkerInstance where
  ariaGlobalState : AriaGlobalState
  workerState : WorkerState
  workload : Workload
  pc : WorkerPc
  deriving DecidableEq, Repr

namespace WorkerInstance

/-- `none` while the worker sleeps on `consume`. -/
def waitForSignal (worker : WorkerInstance) (state : AriaGlobalState) : Option Bool :=
  if worker.ariaGlobalState = .EXIT then some false
  else if worker.ariaGlobalState = state then some true
  else none

def setWorkerState (worker : WorkerInstance) (workerState : WorkerState) (pc : WorkerPc) : WorkerInstance :=
  { worker with workerState, pc }

/-- A step of `AriaWorker::run` outside the two loops of the executor, and the stage its workload reaches. -/
def advance (worker : WorkerInstance) : Option (WorkerInstance × Option Stage) :=
  match worker.pc with
  | .start => some (worker.setWorkerState .ASSIGNED .waitRead, none)
  | .waitRead =>
    match worker.waitForSignal .Aria_READ with
    | none => none
    | some false => some ({ worker with pc := .exiting }, none)
    | some true => some ({ worker with pc := .executing worker.workload.transactionList }, some .startExecute)
  | .executing [] => some ({ worker with pc := .executed }, some .finishExecute)
  | .executed => some (worker.setWorkerState .FINISH_READ .waitCommit, none)
  | .waitCommit =>
    match worker.waitForSignal .Aria_COMMIT with
    | none => none
    | some false => some ({ worker with pc := .exiting }, none)
    | some true => some ({ worker with pc := .committing worker.workload.transactionList }, some .startCommit)
  | .committing [] => some ({ worker with pc := .committed }, some .finishCommit)
  | .committed => some (worker.setWorkerState .READY .waitRead, none)
  | .exiting => some (worker.setWorkerState .EXITED .exited, none)
  | .executing (_ :: _) | .committing (_ :: _) | .exited => none

def stages (worker : WorkerInstance) : List Stage :=
  match worker.pc with
  | .start => [.deployed]
  | .waitRead => if worker.workerState = .READY then Stage.all else [.deployed]
  | .executing _ => [.deployed, .startExecute]
  | .executed | .waitCommit => [.deployed, .startExecute, .finishExecute]
  | .committing _ => [.deployed, .startExecute, .finishExecute, .startCommit]
  | .committed => Stage.all
  | .exiting | .exited => []

end WorkerInstance

end Blockchain
