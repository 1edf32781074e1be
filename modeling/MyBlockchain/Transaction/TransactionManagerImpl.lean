import Mathlib.Algebra.Ring.Nat
import MyBlockchain.Block.BlockStorageToFile
import MyBlockchain.Transaction.FinishEpoch

namespace Blockchain

/-- What a `uint32_t` makes of a number. -/
def uint32 (n : Nat) : Nat := n % 2 ^ 32

/-- Where `TransactionManagerImpl::run` stands: before a call of `getTransaction`, in one of
`sendTransactionHandle`, or in the loop over a finished epoch. -/
inductive ManagerPc
  | getCurrent
  | sendCurrent (trWrapper : TransactionWrapper)
  | getNext
  | sendNext (trWrapper : TransactionWrapper)
  | check
  | finishing (rest : List Ref) (trWrapper : TransactionWrapper)
  | sendFull (full : TransactionWrapper) (rest : List Ref) (trWrapper : TransactionWrapper)
  | generate
  deriving DecidableEq, Repr

/-- What a finished epoch leaves: the results the manager found, the block, and what is in it. -/
structure FinishedEpoch where
  epoch : Nat
  results : List (Ref × TransactionResult)
  block : Block
  transactions : List (Ref × MockTransaction)

/-- The signal is an `int32_t` that `==` compares as a `uint32_t`, and is kept as one. The last four fields are there
for the proofs: the transactions the comm module has handed out, those sent to the coordinator, the results of the
epoch being finished, and the epochs before. -/
structure TransactionManagerImpl where
  epoch : Nat
  currentEpochTrWrapper : TransactionWrapper
  nextEpochTrWrapper : TransactionWrapper
  lastEpochFinishSignal : Nat
  storage : BlockStorageToFile
  pc : ManagerPc
  received : List Ref
  sent : List (Ref × MockTransaction)
  results : List (Ref × TransactionResult)
  finished : List FinishedEpoch

/-! Epochs are counted with `toEpoch`: the code has `uint32`, where the counter wraps; `id` is the manager with epochs
that are numbers. -/

namespace TransactionManagerImpl

def new (toEpoch : Nat → Nat) (blockNum : Nat) (files : Nat → Option Block) : TransactionManagerImpl where
  epoch := toEpoch (blockNum + 1)
  currentEpochTrWrapper := .new (toEpoch (blockNum + 1))
  nextEpochTrWrapper := .new (toEpoch (toEpoch (blockNum + 1) + 1))
  lastEpochFinishSignal := toEpoch blockNum
  storage := { transactionQueue := [], blockNum, files }
  pc := .getCurrent
  received := []
  sent := []
  results := []
  finished := []

def setPc (manager : TransactionManagerImpl) (pc : ManagerPc) : TransactionManagerImpl := { manager with pc }

def Offers (manager : TransactionManagerImpl) (heap : Heap) (epoch : Nat) (batch : List Ref) : Prop :=
  batch.Nodup ∧ ∀ r ∈ batch, r ∉ manager.received ∧ (heap r).epoch = epoch

instance (manager : TransactionManagerImpl) (heap : Heap) (epoch : Nat) (batch : List Ref) :
    Decidable (manager.Offers heap epoch batch) :=
  inferInstanceAs (Decidable (_ ∧ _))

def send (manager : TransactionManagerImpl) (heap : Heap) (trWrapper : TransactionWrapper) (pc : ManagerPc) :
    TransactionManagerImpl × Heap × Option TransactionWrapper :=
  let sent := manager.sent ++ trWrapper.transactionList.map fun r => (r, heap r)
  ({ manager with pc, sent }, heap, some trWrapper)

/-- The block of the finished epoch; `none` is the failed CHECK. -/
def storeBlock (crypto : BlockCrypto) (proto : TransactionProto) (manager : TransactionManagerImpl) (heap : Heap) :
    Option TransactionManagerImpl :=
  (manager.storage.generateBlock crypto proto heap).map fun (storage, block) =>
    let transactions := (BlockStorageToFile.popAll heap manager.storage.transactionQueue).map fun r => (r, heap r)
    let finished : FinishedEpoch := { epoch := manager.epoch, results := manager.results, block, transactions }
    { manager with storage, finished := manager.finished ++ [finished] }

def nextEpoch (toEpoch : Nat → Nat) (manager : TransactionManagerImpl) : TransactionManagerImpl :=
  let epoch := toEpoch (manager.epoch + 1)
  { manager with
    epoch
    currentEpochTrWrapper := manager.nextEpochTrWrapper
    nextEpochTrWrapper := .new (toEpoch (epoch + 1))
    pc := .getCurrent }

def generateBlock (toEpoch : Nat → Nat) (crypto : BlockCrypto) (proto : TransactionProto)
    (manager : TransactionManagerImpl) (heap : Heap) : Option TransactionManagerImpl :=
  (manager.storeBlock crypto proto heap).map (nextEpoch toEpoch)

def receiveCurrent (manager : TransactionManagerImpl) (batch : List Ref) : TransactionManagerImpl :=
  let trWrapper := ({ epoch := manager.epoch, transactionList := batch } : TransactionWrapper).setEpoch
    manager.epoch
  { manager with
    currentEpochTrWrapper := manager.currentEpochTrWrapper.pushTransactionUncheck trWrapper
    received := manager.received ++ batch
    pc := .sendCurrent trWrapper }

/-- The batch is for the next epoch; its wrapper gets the number of this one. -/
def receiveNext (toEpoch : Nat → Nat) (manager : TransactionManagerImpl) (batch : List Ref) :
    TransactionManagerImpl :=
  let trWrapper := ({ epoch := toEpoch (manager.epoch + 1), transactionList := batch } : TransactionWrapper).setEpoch
    manager.epoch
  { manager with
    nextEpochTrWrapper := manager.nextEpochTrWrapper.pushTransactionUncheck trWrapper
    received := manager.received ++ batch
    pc := .sendNext trWrapper }

def finishEpoch (toEpoch : Nat → Nat) (manager : TransactionManagerImpl) (heap : Heap) : TransactionManagerImpl :=
  let transactionList := manager.currentEpochTrWrapper.transactionList
  { manager with
    results := transactionList.map fun r => (r, (heap r).transactionResult)
    pc := .finishing transactionList (.new (toEpoch (manager.epoch + 1))) }

def finishTransaction (toEpoch : Nat → Nat) (manager : TransactionManagerImpl) (heap : Heap) (tr : Ref)
    (rest : List Ref) (trWrapper : TransactionWrapper) : TransactionManagerImpl × Heap :=
  let start : FinishEpoch :=
    { heap
      nextEpochTrWrapper := manager.nextEpochTrWrapper
      trWrapper
      transactionQueue := manager.storage.transactionQueue }
  let (state, full) := start.finishTransaction (toEpoch (manager.epoch + 1)) tr
  let pc : ManagerPc :=
    match full with
    | none => .finishing rest state.trWrapper
    | some full => .sendFull full rest state.trWrapper
  ({ manager with
    nextEpochTrWrapper := state.nextEpochTrWrapper
    storage.transactionQueue := state.transactionQueue
    pc }, state.heap)

/-- A step of `run`, with the answer of the comm module where it is asked. The last component is the
wrapper `sendTransactionHandle` takes in this step. -/
def step (toEpoch : Nat → Nat) (crypto : BlockCrypto) (proto : TransactionProto) (manager : TransactionManagerImpl)
    (heap : Heap) (answer : Option (List Ref)) : Option (TransactionManagerImpl × Heap × Option TransactionWrapper) :=
  match manager.pc with
  | .getCurrent =>
    match answer with
    | none => some (manager.setPc .getNext, heap, none)
    | some batch =>
      if manager.Offers heap manager.epoch batch then some (manager.receiveCurrent batch, heap, none) else none
  | .sendCurrent trWrapper => some (manager.send heap trWrapper .getCurrent)
  | .getNext =>
    match answer with
    | none => some (manager.setPc .check, heap, none)
    | some batch =>
      if manager.Offers heap (toEpoch (manager.epoch + 1)) batch then
        some (manager.receiveNext toEpoch batch, heap, none)
      else none
  | .sendNext trWrapper => some (manager.send heap trWrapper .check)
  | .check =>
    if manager.lastEpochFinishSignal = manager.epoch then some (manager.finishEpoch toEpoch heap, heap, none)
    else some (manager.setPc .getCurrent, heap, none)
  | .finishing [] trWrapper => some (manager.send heap trWrapper .generate)
  | .finishing (tr :: rest) trWrapper =>
    let (next, heap) := manager.finishTransaction toEpoch heap tr rest trWrapper
    some (next, heap, none)
  | .sendFull full rest trWrapper => some (manager.send heap full (.finishing rest trWrapper))
  | .generate => (manager.generateBlock toEpoch crypto proto heap).map fun next => (next, heap, none)

def unfinished (manager : TransactionManagerImpl) : List Ref :=
  match manager.pc with
  | .finishing rest _ | .sendFull _ rest _ => rest
  | .generate => []
  | _ => manager.currentEpochTrWrapper.transactionList

def unsent (manager : TransactionManagerImpl) : List Ref :=
  match manager.pc with
  | .sendCurrent trWrapper | .sendNext trWrapper | .finishing _ trWrapper => trWrapper.transactionList
  | .sendFull full _ trWrapper => full.transactionList ++ trWrapper.transactionList
  | _ => []

def finishing (manager : TransactionManagerImpl) : Bool :=
  match manager.pc with
  | .finishing _ _ | .sendFull _ _ _ | .generate => true
  | _ => false

def blocked (manager : TransactionManagerImpl) : List Ref :=
  manager.finished.flatMap fun finished => finished.transactions.map Prod.fst

def sendings (manager : TransactionManagerImpl) : List (Ref × Nat) :=
  manager.sent.map fun sending => (sending.1, sending.2.epoch)

/-- Where the program goes from one of its places to the next without touching a list. -/
inductive Goes (manager : TransactionManagerImpl) : ManagerPc → Prop
  | exhausted (pc : manager.pc = .getCurrent) : Goes manager .getNext
  | nothing (pc : manager.pc = .getNext) : Goes manager .check
  | again (pc : manager.pc = .check) (open_ : manager.lastEpochFinishSignal ≠ manager.epoch) :
      Goes manager .getCurrent

/-- Which wrapper is sent, and where the program goes on after that. -/
inductive Sends (manager : TransactionManagerImpl) : TransactionWrapper → ManagerPc → Prop
  | current {trWrapper : TransactionWrapper} (pc : manager.pc = .sendCurrent trWrapper) :
      Sends manager trWrapper .getCurrent
  | next {trWrapper : TransactionWrapper} (pc : manager.pc = .sendNext trWrapper) : Sends manager trWrapper .check
  | full {full trWrapper : TransactionWrapper} {rest : List Ref} (pc : manager.pc = .sendFull full rest trWrapper) :
      Sends manager full (.finishing rest trWrapper)
  | rest {trWrapper : TransactionWrapper} (pc : manager.pc = .finishing [] trWrapper) :
      Sends manager trWrapper .generate

inductive ManagerStep (toEpoch : Nat → Nat) (crypto : BlockCrypto) (proto : TransactionProto)
    (manager : TransactionManagerImpl) (heap : Heap) (answer : Option (List Ref)) :
    TransactionManagerImpl → Heap → Option TransactionWrapper → Prop
  | goto {pc : ManagerPc} (goes : manager.Goes pc) :
      ManagerStep toEpoch crypto proto manager heap answer (manager.setPc pc) heap none
  | receiveCurrent {batch : List Ref} (pc : manager.pc = .getCurrent) (answered : answer = some batch)
      (offers : manager.Offers heap manager.epoch batch) :
      ManagerStep toEpoch crypto proto manager heap answer (manager.receiveCurrent batch) heap none
  | receiveNext {batch : List Ref} (pc : manager.pc = .getNext) (answered : answer = some batch)
      (offers : manager.Offers heap (toEpoch (manager.epoch + 1)) batch) :
      ManagerStep toEpoch crypto proto manager heap answer (manager.receiveNext toEpoch batch) heap none
  | finishEpoch (pc : manager.pc = .check) (signal : manager.lastEpochFinishSignal = manager.epoch) :
      ManagerStep toEpoch crypto proto manager heap answer (manager.finishEpoch toEpoch heap) heap none
  | finishTransaction {tr : Ref} {rest : List Ref} {trWrapper : TransactionWrapper}
      (pc : manager.pc = .finishing (tr :: rest) trWrapper) :
      ManagerStep toEpoch crypto proto manager heap answer (manager.finishTransaction toEpoch heap tr rest trWrapper).1
        (manager.finishTransaction toEpoch heap tr rest trWrapper).2 none
  | send {trWrapper : TransactionWrapper} {pc : ManagerPc} (sends : manager.Sends trWrapper pc) :
      ManagerStep toEpoch crypto proto manager heap answer (manager.send heap trWrapper pc).1 heap (some trWrapper)
  | generate {next : TransactionManagerImpl} (pc : manager.pc = .generate)
      (generated : manager.generateBlock toEpoch crypto proto heap = some next) :
      ManagerStep toEpoch crypto proto manager heap answer next heap none

theorem step_cases {toEpoch : Nat → Nat} {crypto : BlockCrypto} {proto : TransactionProto}
    {manager next : TransactionManagerImpl} {heap after : Heap} {answer : Option (List Ref)} {sent : Option TransactionWrapper}
    (step : manager.step toEpoch crypto proto heap answer = some (next, after, sent)) :
    ManagerStep toEpoch crypto proto manager heap answer next after sent := by
  unfold TransactionManagerImpl.step at step
  split at step
  · rename_i pc
    split at step
    · cases step
      exact .goto (.exhausted pc)
    · split at step
      · rename_i offers
        cases step
        exact .receiveCurrent pc rfl offers
      · cases step
  · rename_i pc
    cases step
    exact .send (.current pc)
  · rename_i pc
    split at step
    · cases step
      exact .goto (.nothing pc)
    · split at step
      · rename_i offers
        cases step
        exact .receiveNext pc rfl offers
      · cases step
  · rename_i pc
    cases step
    exact .send (.next pc)
  · rename_i pc
    split at step
    · rename_i signal
      cases step
      exact .finishEpoch pc signal
    · rename_i signal
      cases step
      exact .goto (.again pc signal)
  · rename_i pc
    cases step
    exact .send (.rest pc)
  · rename_i pc
    cases step
    exact .finishTransaction pc
  · rename_i pc
    cases step
    exact .send (.full pc)
  · rename_i pc
    obtain ⟨made, generated, same⟩ := Option.map_eq_some_iff.mp step
    cases same
    exact .generate pc generated

end TransactionManagerImpl

end Blockchain
