import MyBlockchain.Database.DatabaseImpl
import MyBlockchain.ReserveTable.ReserveTableProvider
import MyBlockchain.Worker.Chaincode

namespace Blockchain

/-- What the worker threads of one server share. `reserveTable` is the pointer inside the
`TransactionExecutorImpl` of each worker. -/
structure Shared (Slot : Type) where
  heap : Heap
  database : DatabaseImpl Slot
  provider : ReserveTableProvider
  reserveTable : Nat → Option Nat

namespace Shared

variable {Slot : Type} (slotOf : SlotOf Slot) (chaincode : Chaincode)

def setTransactionResult (shared : Shared Slot) (r : Ref) (result : TransactionResult) : Shared Slot :=
  { shared with heap := Function.update shared.heap r ((shared.heap r).setTransactionResult result) }

def invoke (shared : Shared Slot) (r : Ref) : Invocation :=
  chaincode (shared.heap r).tid (shared.heap r).transactionPayload (selectDB slotOf shared.database.db)

def executeTransaction (worker : Nat) (shared : Shared Slot) (r : Ref) : Shared Slot :=
  let transaction := shared.heap r
  let invocation := shared.invoke slotOf chaincode r
  let kvrwSet := transaction.kvrwSet.append invocation.rwSet
  let invoked := { shared with heap := Function.update shared.heap r { transaction with kvrwSet } }
  let executed :=
    if invocation.success then
      let (provider, table) := invoked.provider.getHashMapReserveTable transaction.epoch
      { invoked with
        provider := provider.reserveRWset kvrwSet transaction.tid
        reserveTable := Function.update invoked.reserveTable worker (some table) }
    else invoked.setTransactionResult r .ABORT_NO_RETRY
  -- the chaincode object goes out of scope here and its helper buffers the updates
  { executed with
    database := executed.database.bufferUpdates transaction.tid r invocation.tableList }

/-- The body of the loop of `commitList`; `none` is a pointer that leads nowhere. -/
def commitTransaction [DecidableEq Slot] (worker : Nat) (shared : Shared Slot) (r : Ref) :
    Option (Shared Slot) :=
  let transaction := shared.heap r
  if transaction.transactionResult = .ABORT_NO_RETRY then some shared
  else do
    let address ← shared.reserveTable worker
    let table ← shared.provider.deref address
    let trDependency := table.dependencyAnalysis transaction.kvrwSet transaction.tid
    if trDependency.waw then some (shared.setTransactionResult r .ABORT)
    else if !trDependency.war || !trDependency.raw then do
      let (database, committed) ← shared.database.commitUpdate slotOf shared.heap transaction.tid
      some ({ shared with database }.setTransactionResult r (if committed then .COMMIT else .ABORT_NO_RETRY))
    else some (shared.setTransactionResult r .ABORT)

/-- A workload and the worker it was given to, as the loop iterations it stands for. -/
def iterations (workload : Nat × List Ref) : List (Nat × Ref) := workload.2.map (Prod.mk workload.1)

/-- Iterations of `executeList`, of any workers, in the order in which they happen. -/
def executeAll (shared : Shared Slot) (schedule : List (Nat × Ref)) : Shared Slot :=
  schedule.foldl (fun shared iteration => shared.executeTransaction slotOf chaincode iteration.1 iteration.2)
    shared

def commitAll [DecidableEq Slot] (shared : Shared Slot) (schedule : List (Nat × Ref)) :
    Option (Shared Slot) :=
  schedule.foldlM (fun shared iteration => shared.commitTransaction slotOf iteration.1 iteration.2) shared

end Shared

end Blockchain
