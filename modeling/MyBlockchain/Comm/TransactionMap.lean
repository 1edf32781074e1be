import Mathlib.Data.List.Induction
import MyBlockchain.Transaction.MockTransaction

namespace Blockchain

/-- `transactionMap`; an epoch without an entry has the empty vector. -/
abbrev TransactionMap := Nat → List Ref

namespace TransactionMap

def push (transactionMap : TransactionMap) (epoch : Nat) (tr : Ref) : TransactionMap :=
  Function.update transactionMap epoch (transactionMap epoch ++ [tr])

/-- A round of the loop in `clearTransactionForEpoch`, with the objects that are deleted. -/
def clearTransaction (heap : Heap) (epoch : Nat) (state : TransactionMap × List Ref) (tr : Ref) :
    TransactionMap × List Ref :=
  if (heap tr).epoch = epoch then (state.1, state.2 ++ [tr])
  else (state.1.push (heap tr).epoch tr, state.2)

def clearTransactionForEpoch (heap : Heap) (transactionMap : TransactionMap) (epoch : Nat) :
    TransactionMap × List Ref :=
  let (transactionMap, deleted) := (transactionMap epoch).foldl (clearTransaction heap epoch) (transactionMap, [])
  (Function.update transactionMap epoch [], deleted)

theorem push_apply (transactionMap : TransactionMap) (epoch : Nat) (tr : Ref) (key : Nat) :
    transactionMap.push epoch tr key = transactionMap key ++ if epoch = key then [tr] else [] := by
  by_cases same : key = epoch
  · subst same
    simp [push]
  · simp [push, same, Ne.symm same]

variable (heap : Heap) (transactionMap : TransactionMap) (epoch : Nat)

theorem foldl_clearTransaction (refs : List Ref) :
    (refs.foldl (clearTransaction heap epoch) (transactionMap, [])).2 =
      refs.filter (fun tr => (heap tr).epoch = epoch) ∧
    ∀ key, key ≠ epoch → (refs.foldl (clearTransaction heap epoch) (transactionMap, [])).1 key =
      transactionMap key ++ refs.filter fun tr => (heap tr).epoch = key := by
  induction refs using List.reverseRecOn with
  | nil => simp
  | append_singleton refs tr ih =>
    obtain ⟨deleted, moved⟩ := ih
    rw [List.foldl_append, List.foldl_cons, List.foldl_nil, clearTransaction]
    split
    · next same =>
      refine ⟨by simp [deleted, same], fun key other => ?_⟩
      rw [moved key other]
      simp [same, Ne.symm other]
    · next differs =>
      refine ⟨by simp [deleted, differs], fun key other => ?_⟩
      dsimp only
      rw [push_apply, moved key other]
      by_cases here : (heap tr).epoch = key <;> simp [here]

theorem clearTransactionForEpoch_spec :
    (clearTransactionForEpoch heap transactionMap epoch).2 =
      (transactionMap epoch).filter (fun tr => (heap tr).epoch = epoch) ∧
    (clearTransactionForEpoch heap transactionMap epoch).1 epoch = [] ∧
    ∀ key, key ≠ epoch → (clearTransactionForEpoch heap transactionMap epoch).1 key =
      transactionMap key ++ (transactionMap epoch).filter fun tr => (heap tr).epoch = key := by
  obtain ⟨deleted, moved⟩ := foldl_clearTransaction heap transactionMap epoch (transactionMap epoch)
  refine ⟨deleted, Function.update_self .., fun key other => ?_⟩
  rw [← moved key other]
  exact Function.update_of_ne other ..

end TransactionMap

end Blockchain
