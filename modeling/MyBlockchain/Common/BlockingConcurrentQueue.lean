import MyBlockchain.Common.LightweightSemaphore

namespace Blockchain

/-- The functions of a `BlockingConcurrentQueue`, those with a token or a `try_enqueue` like the ones without. -/
inductive QueueCall (α : Type*)
  | enqueue (item : α)
  | enqueue_bulk (items : List α)
  | try_dequeue
  | try_dequeue_bulk (max : Nat)
  | wait_dequeue
  | wait_dequeue_timed (timeout_usecs : Int)
  | wait_dequeue_bulk (max : Nat)
  | wait_dequeue_bulk_timed (max : Nat) (timeout_usecs : Int)
  deriving DecidableEq, Repr

namespace QueueCall

variable {α : Type*}

def items : QueueCall α → List α
  | .enqueue item => [item]
  | .enqueue_bulk items => items
  | _ => []

def enqueues : QueueCall α → Bool
  | .enqueue _ | .enqueue_bulk _ => true
  | _ => false

/-- What it calls of the semaphore. -/
def sema : QueueCall α → LightweightSemaphore.Call
  | .enqueue _ => .signal 1
  | .enqueue_bulk items => .signal items.length
  | .try_dequeue => .tryWait
  | .try_dequeue_bulk max => .tryWaitMany max
  | .wait_dequeue => .wait (-1)
  | .wait_dequeue_timed timeout_usecs => .wait timeout_usecs
  | .wait_dequeue_bulk max => .waitMany max (-1)
  | .wait_dequeue_bulk_timed max timeout_usecs => .waitMany max timeout_usecs

/-- `while (!sema->wait())` -/
def repeats : QueueCall α → Bool
  | .wait_dequeue => true
  | _ => false

end QueueCall

/-- Where a thread is: in `inner.enqueue`, of which `put` items are in the queue, in the semaphore, or in the loop that
takes as many items from `inner` as it has permits. -/
inductive QueueStage (α : Type*)
  | idle
  | enqueue (call : QueueCall α) (put : Nat)
  | acquire (call : QueueCall α) (stage : LightweightSemaphore.Stage)
  | dequeue (call : QueueCall α) (permits : Nat) (got : List α)
  deriving DecidableEq

/-- `inner` is the lock-free queue, of which only what is in it is kept: an item goes in as a whole, and comes out once,
in any order. Ghosts: the items that went in and the results of the calls that took some. -/
structure BlockingConcurrentQueue (Thread α : Type*) where
  inner : List α
  sema : LightweightSemaphore
  stage : Thread → QueueStage α
  entered : List α
  returned : List (QueueCall α × List α)

/-- `refuse` is an `inner.enqueue` that gets no memory, `miss` an `inner.try_dequeue` that finds nothing. -/
inductive QueueMove (Thread α : Type*)
  | call (thread : Thread) (call : QueueCall α)
  | refuse (thread : Thread)
  | put (thread : Thread)
  | sema (thread : Thread) (choice : LightweightSemaphore.Choice)
  | take (thread : Thread) (index : Nat)
  | miss (thread : Thread)
  | next (thread : Thread)
  deriving DecidableEq

namespace BlockingConcurrentQueue

variable {Thread α : Type*} [DecidableEq Thread]

def start : BlockingConcurrentQueue Thread α := ⟨[], ⟨0, 0⟩, fun _ => .idle, [], []⟩

def set (queue : BlockingConcurrentQueue Thread α) (thread : Thread) (stage : QueueStage α) :
    BlockingConcurrentQueue Thread α :=
  { queue with stage := Function.update queue.stage thread stage }

/-- What follows when the thread is through with a part of its call. -/
def next (queue : BlockingConcurrentQueue Thread α) (thread : Thread) : Option (BlockingConcurrentQueue Thread α) :=
  match queue.stage thread with
  | .idle => none
  | .enqueue call put => if put = call.items.length then some (queue.set thread (.acquire call call.sema.begin)) else none
  | .acquire call (.done result) =>
    some (queue.set thread
      (if call.enqueues then .idle
      else if call.repeats ∧ result = 0 then .acquire call call.sema.begin
      else .dequeue call result []))
  | .acquire _ _ => none
  | .dequeue call permits got =>
    if got.length = permits then some { queue.set thread .idle with returned := queue.returned ++ [(call, got)] }
    else none

def step (maxSpins : Nat) (queue : BlockingConcurrentQueue Thread α) :
    QueueMove Thread α → Option (BlockingConcurrentQueue Thread α)
  | .call thread call =>
    match queue.stage thread with
    | .idle => some (queue.set thread (if call.enqueues then .enqueue call 0 else .acquire call call.sema.begin))
    | _ => none
  | .refuse thread =>
    match queue.stage thread with
    | .enqueue _ 0 => some (queue.set thread .idle)
    | _ => none
  | .put thread =>
    match queue.stage thread with
    | .enqueue call put =>
      (call.items[put]?).map fun item =>
        { queue.set thread (.enqueue call (put + 1)) with
          inner := queue.inner ++ [item], entered := queue.entered ++ [item] }
    | _ => none
  | .sema thread choice =>
    match queue.stage thread with
    | .acquire call stage =>
      (LightweightSemaphore.step maxSpins stage choice queue.sema).map fun (sema, stage) =>
        { queue.set thread (.acquire call stage) with sema }
    | _ => none
  | .take thread index =>
    match queue.stage thread with
    | .dequeue call permits got =>
      if got.length < permits then
        (queue.inner[index]?).map fun item =>
          { queue.set thread (.dequeue call permits (got ++ [item])) with inner := queue.inner.eraseIdx index }
      else none
    | _ => none
  | .miss thread =>
    match queue.stage thread with
    | .dequeue _ permits got => if got.length < permits then some queue else none
    | _ => none
  | .next thread => queue.next thread

def sizeApprox (queue : BlockingConcurrentQueue Thread α) : Nat := queue.sema.availableApprox

end BlockingConcurrentQueue

end Blockchain
