import MyBlockchain.Transaction.TransactionWrapper

namespace Blockchain

structure GetRequest where
  epoch : Nat
  maxSize : Nat
  minSize : Nat
  deriving DecidableEq, Repr

/-- Where the thread of the transaction manager is: outside of `getTransaction`, at the start of
`transferTransaction` or in its loop, in the loop of `getTransaction`, or behind a failed CHECK. The first call of
`transferTransaction` comes before the wrapper is made. -/
inductive GetPc
  | returned
  | transfer (request : GetRequest) (trWrapper : Option TransactionWrapper)
  | transferLoop (request : GetRequest) (trWrapper : Option TransactionWrapper)
  | collect (request : GetRequest) (trWrapper : TransactionWrapper)
  | failed
  deriving DecidableEq, Repr

/-- The two queues and the global `currentEpoch`, with the epoch of the transaction manager. `broadcastTransactions`
and `processedTransaction` hold their elements in no order. Ghosts: what was put into the first queue, the answers
given, and whether the manager's epoch was answered with null. -/
structure TransactionTransfer where
  broadcastTransactions : List Ref
  processedTransaction : List Ref
  currentEpoch : Nat
  pc : GetPc
  epoch : Nat
  complete : Bool
  arrived : List Ref
  answers : List (GetRequest × Option TransactionWrapper)
  deriving DecidableEq, Repr

/-- What happens next: a receiver thread enqueues, the manager calls or goes on, or it turns to the next epoch.
The transaction of a call or of a further step is the one that a queue gives up there. -/
inductive TransferMove
  | enqueue (transaction : Ref)
  | getTransaction (request : GetRequest) (transaction : Ref)
  | advance (transaction : Ref)
  | nextEpoch

namespace TransactionTransfer

variable (heap : Heap)

def comesAfter (a b : Ref) : Bool :=
  if (heap a).epoch = (heap b).epoch then (heap b).tid < (heap a).tid else (heap b).epoch < (heap a).epoch

def isTop (queue : List Ref) (transaction : Ref) : Bool :=
  transaction ∈ queue && queue.all fun other => !comesAfter heap transaction other

/-- The transactions go into the first queue in the order of their epochs, from the first epoch of the run on: the
receivers of one epoch are all done before those of the next one begin. -/
def enqueue (first : Nat) (state : TransactionTransfer) (transaction : Ref) : Option TransactionTransfer :=
  if first ≤ (heap transaction).epoch ∧ ∀ other ∈ state.arrived, (heap other).epoch ≤ (heap transaction).epoch then
    some { state with
      broadcastTransactions := state.broadcastTransactions ++ [transaction]
      arrived := state.arrived ++ [transaction] }
  else none

def answer (state : TransactionTransfer) (request : GetRequest) (trWrapper : Option TransactionWrapper) :
    TransactionTransfer :=
  { state with
    pc := .returned
    answers := state.answers ++ [(request, trWrapper)]
    complete := state.complete || (trWrapper = none && request.epoch = state.epoch) }

/-- `getTransaction` up to `transferTransaction`. The manager asks for its epoch, and for the next one when its own
was answered with null. -/
def getTransaction (state : TransactionTransfer) (request : GetRequest) (transaction : Ref) :
    Option TransactionTransfer :=
  if state.pc = .returned ∧
      (request.epoch = state.epoch ∨ (state.complete = true ∧ request.epoch = state.epoch + 1)) then
    if state.processedTransaction = [] then some { state with pc := .transfer request none }
    else if isTop heap state.processedTransaction transaction then
      if (heap transaction).epoch ≠ request.epoch then some (state.answer request none)
      else some { state with pc := .transfer request none }
    else none
  else none

def take (state : TransactionTransfer) (transaction : Ref) : Option TransactionTransfer :=
  if transaction ∈ state.broadcastTransactions then
    some { state with
      broadcastTransactions := state.broadcastTransactions.erase transaction
      processedTransaction := state.processedTransaction ++ [transaction] }
  else none

/-- The end of `transferTransaction`: behind the first call stands the check of the top's epoch. -/
def transferred (state : TransactionTransfer) (request : GetRequest) (trWrapper : Option TransactionWrapper)
    (transaction : Ref) : Option TransactionTransfer :=
  match trWrapper with
  | some trWrapper => some { state with pc := .collect request trWrapper }
  | none =>
    if isTop heap state.processedTransaction transaction then
      if (heap transaction).epoch ≠ request.epoch then some (state.answer request none)
      else some { state with pc := .collect request (TransactionWrapper.new request.epoch) }
    else none

def collect (state : TransactionTransfer) (request : GetRequest) (trWrapper : TransactionWrapper)
    (transaction : Ref) : Option TransactionTransfer :=
  if trWrapper.size < request.maxSize then
    if isTop heap state.processedTransaction transaction then
      if (heap transaction).epoch ≠ request.epoch then some (state.answer request (some trWrapper))
      else if (heap transaction).epoch < state.currentEpoch then some { state with pc := .failed }
      else
        let state := { state with
          currentEpoch := (heap transaction).epoch
          processedTransaction := state.processedTransaction.erase transaction }
        match trWrapper.pushTransaction heap transaction with
        | (_, false) => some { state with pc := .failed }
        | (trWrapper, true) =>
          if state.processedTransaction = [] then
            if request.minSize < trWrapper.size then some (state.answer request (some trWrapper))
            else some { state with pc := .transfer request (some trWrapper) }
          else some { state with pc := .collect request trWrapper }
    else none
  else some (state.answer request (some trWrapper))

/-- The next step inside `getTransaction`. `none` is a thread that waits, or a transaction that the queue does not
give up. `try_dequeue` fails on an empty queue. -/
def advance (state : TransactionTransfer) (transaction : Ref) : Option TransactionTransfer :=
  match state.pc with
  | .transfer request trWrapper =>
    if state.processedTransaction = [] then { state with pc := .transferLoop request trWrapper }.take transaction
    else some { state with pc := .transferLoop request trWrapper }
  | .transferLoop request trWrapper =>
    if state.broadcastTransactions = [] then state.transferred heap request trWrapper transaction
    else state.take transaction
  | .collect request trWrapper => state.collect heap request trWrapper transaction
  | _ => none

def step (first : Nat) (state : TransactionTransfer) : TransferMove → Option TransactionTransfer
  | .enqueue transaction => state.enqueue heap first transaction
  | .getTransaction request transaction => state.getTransaction heap request transaction
  | .advance transaction => state.advance heap transaction
  | .nextEpoch =>
    if state.pc = .returned ∧ state.complete = true then
      some { state with epoch := state.epoch + 1, complete := false }
    else none

def start (first : Nat) : TransactionTransfer :=
  { broadcastTransactions := [], processedTransaction := [], currentEpoch := 0, pc := .returned, epoch := first,
    complete := false, arrived := [], answers := [] }

def run (first : Nat) (state : TransactionTransfer) (moves : List TransferMove) : Option TransactionTransfer :=
  moves.foldlM (step heap first) state

def inHand (state : TransactionTransfer) : List Ref :=
  match state.pc with
  | .transfer _ (some trWrapper) | .transferLoop _ (some trWrapper) | .collect _ trWrapper =>
    trWrapper.transactionList
  | _ => []

def delivered (state : TransactionTransfer) : List Ref :=
  state.answers.flatMap fun answer => (answer.2.map TransactionWrapper.transactionList).getD []

end TransactionTransfer

end Blockchain
