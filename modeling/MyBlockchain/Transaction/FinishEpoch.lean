import Mathlib.Data.List.Induction
import MyBlockchain.Transaction.TransactionWrapper

namespace Blockchain

def trMgrGetBatchMaxSize : Nat := 5 * 100

/-- What the loop of `TransactionManagerImpl::run` over a finished epoch changes. Its functions take the epoch after
that one, which is the `epoch + 1` of the source. -/
structure FinishEpoch where
  heap : Heap
  nextEpochTrWrapper : TransactionWrapper
  trWrapper : TransactionWrapper
  transactionQueue : List Ref

namespace FinishEpoch

def retry (nextEpoch : Nat) (transaction : MockTransaction) : MockTransaction :=
  transaction.resetTransaction.setEpoch nextEpoch

/-- One round of the loop, and the full wrapper it hands to `sendTransactionHandle`. The list of the next
epoch, which only this thread reads, is extended after that call. -/
def finishTransaction (nextEpoch : Nat) (state : FinishEpoch) (tr : Ref) : FinishEpoch × Option TransactionWrapper :=
  match (state.heap tr).transactionResult with
  | .ABORT =>
    let heap := Function.update state.heap tr (retry nextEpoch (state.heap tr))
    let trWrapper := (state.trWrapper.pushTransaction heap tr).1
    let nextEpochTrWrapper := (state.nextEpochTrWrapper.pushTransaction heap tr).1
    if trWrapper.size = trMgrGetBatchMaxSize then
      ({ state with heap, nextEpochTrWrapper, trWrapper := .new nextEpoch }, some trWrapper)
    else ({ state with heap, nextEpochTrWrapper, trWrapper }, none)
  | .COMMIT | .ABORT_NO_RETRY => ({ state with transactionQueue := state.transactionQueue ++ [tr] }, none)
  | .PENDING => (state, none)

/-- The whole loop, for a reader who is not interested in what it sends. -/
def finishAll (nextEpoch : Nat) (state : FinishEpoch) (transactionList : List Ref) : FinishEpoch :=
  transactionList.foldl (fun state tr => (state.finishTransaction nextEpoch tr).1) state

def aborted (heap : Heap) (refs : List Ref) : List Ref :=
  refs.filter fun r => (heap r).transactionResult = .ABORT

def recorded (heap : Heap) (refs : List Ref) : List Ref :=
  refs.filter fun r => (heap r).transactionResult = .COMMIT ∨ (heap r).transactionResult = .ABORT_NO_RETRY

variable {nextEpoch : Nat} {state : FinishEpoch}

structure Finished (start : FinishEpoch) (nextEpoch : Nat) (done : List Ref) (state : FinishEpoch) : Prop where
  waiting : ∀ r, r ∉ done → state.heap r = start.heap r
  heap : ∀ r ∈ done, state.heap r =
    if (start.heap r).transactionResult = .ABORT then retry nextEpoch (start.heap r) else start.heap r
  next : state.nextEpochTrWrapper = { start.nextEpochTrWrapper with
    transactionList := start.nextEpochTrWrapper.transactionList ++ aborted start.heap done }
  queue : state.transactionQueue = start.transactionQueue ++ recorded start.heap done

theorem Finished.refl (start : FinishEpoch) (nextEpoch : Nat) : Finished start nextEpoch [] start where
  waiting _ _ := rfl
  heap := by simp
  next := by simp [aborted]
  queue := by simp [recorded]

theorem Finished.step {start : FinishEpoch} {done : List Ref} (finished : Finished start nextEpoch done state)
    {tr : Ref} (new : tr ∉ done) (wrapper : start.nextEpochTrWrapper.epoch = nextEpoch) :
    Finished start nextEpoch (done ++ [tr]) (state.finishTransaction nextEpoch tr).1 := by
  have object : state.heap tr = start.heap tr := finished.waiting tr new
  have kept : ∀ {other}, other ∈ done → other ≠ tr := fun member same => new (by rw [← same]; exact member)
  cases result : (start.heap tr).transactionResult with
  | PENDING =>
    rw [finishTransaction, object, result]
    constructor
    · intro r out
      exact finished.waiting r fun member => out (List.mem_append_left _ member)
    · intro r member
      rcases List.mem_append.mp member with member | member
      · exact finished.heap r member
      · rw [List.mem_singleton.mp member, object, result, if_neg (by decide)]
    · simp [finished.next, aborted, result]
    · simp [finished.queue, recorded, result]
  | ABORT =>
    have heap : (state.finishTransaction nextEpoch tr).1.heap =
        Function.update state.heap tr (retry nextEpoch (start.heap tr)) := by
      simp only [finishTransaction, object, result]
      split <;> rfl
    have pushed : (state.finishTransaction nextEpoch tr).1.nextEpochTrWrapper =
        (state.nextEpochTrWrapper.pushTransaction
          (Function.update state.heap tr (retry nextEpoch (start.heap tr))) tr).1 := by
      simp only [finishTransaction, object, result]
      split <;> rfl
    have queue : (state.finishTransaction nextEpoch tr).1.transactionQueue = state.transactionQueue := by
      simp only [finishTransaction, object, result]
      split <;> rfl
    constructor
    · intro r out
      have apart : r ∉ done ∧ r ≠ tr := by simpa using out
      rw [heap, Function.update_of_ne apart.2, finished.waiting r apart.1]
    · intro r member
      rw [heap]
      rcases List.mem_append.mp member with member | member
      · rw [Function.update_of_ne (kept member), finished.heap r member]
      · rw [List.mem_singleton.mp member, Function.update_self, if_pos result]
    · rw [pushed, TransactionWrapper.pushTransaction_of_epoch]
      · simp [finished.next, aborted, result]
      · simp [finished.next, wrapper, retry, MockTransaction.setEpoch]
    · rw [queue]
      simp [finished.queue, recorded, result]
  | COMMIT | ABORT_NO_RETRY =>
    rw [finishTransaction, object, result]
    constructor
    · intro r out
      exact finished.waiting r fun member => out (List.mem_append_left _ member)
    · intro r member
      rcases List.mem_append.mp member with member | member
      · exact finished.heap r member
      · rw [List.mem_singleton.mp member, object, result, if_neg (by decide)]
    · simp [finished.next, aborted, result]
    · simp [finished.queue, recorded, result]

theorem finishAll_finished (nextEpoch : Nat) (start : FinishEpoch) {refs : List Ref} (nodup : refs.Nodup)
    (wrapper : start.nextEpochTrWrapper.epoch = nextEpoch) :
    Finished start nextEpoch refs (start.finishAll nextEpoch refs) := by
  induction refs using List.reverseRecOn with
  | nil => exact .refl start nextEpoch
  | append_singleton refs tr ih =>
    obtain ⟨before, -, apart⟩ := List.nodup_append.mp nodup
    rw [finishAll, List.foldl_append]
    exact (ih before).step (fun member => apart tr member tr (by simp) rfl) wrapper

end FinishEpoch

end Blockchain
