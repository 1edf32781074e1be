import MyBlockchain.Coordinator.AriaCoordinator
import MyBlockchain.Transaction.TransactionManagerImpl

namespace Blockchain

def coordinatorInputMaxBufferSize : Nat := 50 * 100

def coordinatorMaxTransactionPerWorkload : Nat := 10 * 100

def coordinatorMinTransactionPerWorkload : Nat := 5 * 100

/-- The rounds of the loop of `getWorkload` after the first, with what the workload still has room for. -/
def takeTransactions (heap : Heap) (epochChan : Nat) : Nat → List Ref → List Ref × List Ref
  | 0, transactionBuffer => ([], transactionBuffer)
  | _ + 1, [] => ([], [])
  | room + 1, transaction :: rest =>
    if (heap transaction).epoch = epochChan then
      let (transactionList, transactionBuffer) := takeTransactions heap epochChan room rest
      (transaction :: transactionList, transactionBuffer)
    else ([], transaction :: rest)

/-- The transactions of the next workload, none if the epoch is over, and what stays in the buffer. `none`
while the coordinator waits on `consume`. -/
def getWorkload (heap : Heap) (epochChan : Nat) (transactionBuffer : List Ref) : Option (List Ref × List Ref) :=
  match transactionBuffer, transactionBuffer.getLast? with
  | front :: rest, some back =>
    if epochChan < (heap back).epoch ∨ coordinatorMinTransactionPerWorkload ≤ transactionBuffer.length then
      if epochChan < (heap front).epoch then some ([], transactionBuffer)
      else
        let (transactionList, transactionBuffer) :=
          takeTransactions heap epochChan (coordinatorMaxTransactionPerWorkload - 1) rest
        some (front :: transactionList, transactionBuffer)
    else none
  | _, _ => none

/-- The wrapper is emptied from its back. `none` while the manager waits on `produce`. -/
def addTransaction (transactionBuffer : List Ref) (trWrapper : TransactionWrapper) : Option (List Ref) :=
  if transactionBuffer.length + trWrapper.size ≤ coordinatorInputMaxBufferSize then
    some (transactionBuffer ++ trWrapper.transactionList.reverse)
  else none

def addSent (transactionBuffer : List Ref) : Option TransactionWrapper → Option (List Ref)
  | none => some transactionBuffer
  | some trWrapper => addTransaction transactionBuffer trWrapper

def TransactionManagerImpl.requested (manager : TransactionManagerImpl) : Option Nat :=
  match manager.pc with
  | .getCurrent => some manager.epoch
  | .getNext => some (manager.epoch + 1)
  | _ => none

/-- The coordinator, the manager and the buffer between them. The last two fields are there for the proofs:
the epoch of the latest batch the comm module has handed out, and the workloads made so far. The manager's epochs are
numbers here (`HandOff.step_uint32`). -/
structure BlockServer (Slot : Type) where
  server : Server Slot
  manager : TransactionManagerImpl
  transactionBuffer : List Ref
  receivedEpoch : Nat
  workloads : List Workload

inductive BlockServerMove
  | coordinator
  | worker (workerID : Nat)
  | manager (answer : Option (List Ref))
  | create (r : Ref) (transaction : MockTransaction)
  deriving DecidableEq, Repr

namespace BlockServer

variable {Slot : Type}

/-- `main`: the coordinator starts with epoch 1, the manager with the one after the saved epoch. -/
def initial (heap : Heap) (db : Contents Slot) (blockNum : Nat) (files : Nat → Option Block) :
    BlockServer Slot where
  server := .initial heap db 1
  manager := .new id blockNum files
  transactionBuffer := []
  receivedEpoch := 0
  workloads := []

def received (system : BlockServer Slot) (answer : Option (List Ref)) : Nat :=
  match system.manager.requested, answer with
  | some epoch, some (_ :: _) => epoch
  | _, _ => system.receivedEpoch

/-- A step of `mainRoutine`, with `getWorkload` on the buffer and `epochTransactionFinishSignal` set by
`main`. -/
def coordinatorStep (system : BlockServer Slot) : Option (BlockServer Slot) :=
  match system.server.pc with
  | .getWorkload => do
    let (transactionList, transactionBuffer) ←
      getWorkload system.server.shared.heap system.server.epochChan system.transactionBuffer
    let server ← system.server.coordinatorStep transactionList
    let made := if transactionList = [] then [] else [system.server.makeWorkload transactionList]
    some { system with server, transactionBuffer, workloads := system.workloads ++ made }
  | .finish => do
    let server ← system.server.coordinatorStep []
    some { system with server, manager.lastEpochFinishSignal := system.server.epochChan }
  | _ => do
    let server ← system.server.coordinatorStep []
    some { system with server }

/-- A step of the manager while the comm module hands out transactions in the order of their epochs. -/
def managerStep (crypto : BlockCrypto) (proto : TransactionProto) (system : BlockServer Slot)
    (answer : Option (List Ref)) : Option (BlockServer Slot) :=
  if system.receivedEpoch ≤ system.received answer then do
    let (manager, heap, sent) ← system.manager.step id crypto proto system.server.shared.heap answer
    let transactionBuffer ← addSent system.transactionBuffer sent
    let receivedEpoch := system.received answer
    some { system with server.shared.heap := heap, manager, transactionBuffer, receivedEpoch }
  else none

/-- Apart from the two routines there are the workers, and the comm module, which makes new transactions. -/
def step [DecidableEq Slot] (slotOf : SlotOf Slot) (chaincode : Chaincode) (crypto : BlockCrypto)
    (proto : TransactionProto) (system : BlockServer Slot) : BlockServerMove → Option (BlockServer Slot)
  | .coordinator => system.coordinatorStep
  | .worker id =>
    if id ∈ system.server.workerIDs then
      (system.server.workerStep slotOf chaincode id).map fun server => { system with server }
    else none
  | .manager answer => system.managerStep crypto proto answer
  | .create r transaction =>
    if r ∈ system.manager.received then none
    else
      let heap := Function.update system.server.shared.heap r transaction
      some { system with server.shared.heap := heap }

def run [DecidableEq Slot] (slotOf : SlotOf Slot) (chaincode : Chaincode) (crypto : BlockCrypto)
    (proto : TransactionProto) (system : BlockServer Slot) (moves : List BlockServerMove) :
    Option (BlockServer Slot) :=
  moves.foldlM (BlockServer.step slotOf chaincode crypto proto) system

end BlockServer

theorem takeTransactions_spec (heap : Heap) (epochChan room : Nat) (transactionBuffer : List Ref) :
    let (transactionList, rest) := takeTransactions heap epochChan room transactionBuffer
    transactionBuffer = transactionList ++ rest ∧ transactionList.length ≤ room ∧
      ∀ r ∈ transactionList, (heap r).epoch = epochChan := by
  fun_induction takeTransactions with
  | case1 => simp
  | case2 => simp
  | case3 room transaction rest same transactionList left taken ih =>
    rw [taken] at ih
    obtain ⟨split, length, epochs⟩ := ih
    refine ⟨by rw [split]; rfl, Nat.succ_le_succ length, fun r member => ?_⟩
    rcases List.mem_cons.mp member with rfl | member
    · exact same
    · exact epochs r member
  | case4 => simp

theorem getWorkload_spec {heap : Heap} {epochChan : Nat} {transactionBuffer transactionList rest : List Ref}
    (found : getWorkload heap epochChan transactionBuffer = some (transactionList, rest))
    (sorted : transactionBuffer.Pairwise fun r s => (heap r).epoch ≤ (heap s).epoch)
    (lower : ∀ r ∈ transactionBuffer, epochChan ≤ (heap r).epoch) :
    transactionBuffer = transactionList ++ rest ∧
      (transactionList = [] → transactionBuffer ≠ [] ∧ ∀ r ∈ transactionBuffer, epochChan < (heap r).epoch) ∧
      transactionList.length ≤ coordinatorMaxTransactionPerWorkload ∧
      ∀ r ∈ transactionList, (heap r).epoch = epochChan := by
  unfold getWorkload at found
  split at found
  · rename_i front more back last
    split at found
    · split at found
      · rename_i later
        cases found
        obtain ⟨first, -⟩ := List.pairwise_cons.mp sorted
        refine ⟨rfl, fun _ => ⟨by simp, fun r member => ?_⟩, Nat.zero_le _, by simp⟩
        rcases List.mem_cons.mp member with rfl | member
        · exact later
        · exact Nat.lt_of_lt_of_le later (first r member)
      · rename_i now
        cases found
        have taken := takeTransactions_spec heap epochChan (coordinatorMaxTransactionPerWorkload - 1) more
        obtain ⟨split, length, epochs⟩ := taken
        have mine := lower front (.head _)
        refine ⟨congrArg (front :: ·) split, by simp, ?_, fun r member => ?_⟩
        · have room : 1 ≤ coordinatorMaxTransactionPerWorkload := by decide
          simp only [List.length_cons]
          omega
        · rcases List.mem_cons.mp member with rfl | member
          · omega
          · exact epochs r member
    · cases found
  · cases found

end Blockchain
