import Mathlib.Data.List.TakeWhile
import MyBlockchain.Coordinator.Blocking

namespace Blockchain

/-- How a call of `getWorkload` goes: it waits on `consume`, evaluates `front()` on an empty queue, or returns what is
in the workload and what stays in the buffer. -/
inductive WorkloadOutcome
  | waiting
  | frontOfEmpty
  | returned (isCurrentEpochEmpty : Bool) (transactionList transactionBuffer : List Ref)
  deriving DecidableEq, Repr

/-- The loop of `getWorkload`: push, `pop()`, `front()`, and only then the test for an empty queue. -/
def fillWorkload (heap : Heap) (epochChan : Nat) (transactionList : List Ref) (transaction : Ref) :
    List Ref → WorkloadOutcome
  | [] | [_] => .frontOfEmpty
  | _ :: front :: rest =>
    let transactionList := transactionList ++ [transaction]
    if (heap front).epoch = epochChan ∧ transactionList.length < coordinatorMaxTransactionPerWorkload then
      fillWorkload heap epochChan transactionList front (front :: rest)
    else .returned false transactionList (front :: rest)

def checkedWorkload (heap : Heap) (epochChan : Nat) (transactionBuffer : List Ref) : WorkloadOutcome :=
  if hasWorkload heap epochChan transactionBuffer then
    match transactionBuffer with
    | [] => .frontOfEmpty
    | front :: rest =>
      if epochChan < (heap front).epoch then .returned true [] (front :: rest)
      else fillWorkload heap epochChan [] front (front :: rest)
  else .waiting

/-- The longest prefix of the current epoch, as far as there is room. -/
def currentPrefix (heap : Heap) (epochChan room : Nat) (transactionBuffer : List Ref) : List Ref :=
  (transactionBuffer.takeWhile fun r => (heap r).epoch = epochChan).take room

variable {heap : Heap} {epochChan : Nat}

theorem takeTransactions_eq (room : Nat) (transactionBuffer : List Ref) :
    takeTransactions heap epochChan room transactionBuffer =
      (currentPrefix heap epochChan room transactionBuffer,
        transactionBuffer.drop (currentPrefix heap epochChan room transactionBuffer).length) := by
  fun_induction takeTransactions with
  | case1 => simp [currentPrefix]
  | case2 => simp [currentPrefix]
  | case3 room transaction rest same transactionList left taken ih =>
    rw [taken, Prod.mk.injEq] at ih
    rw [ih.1, ih.2]
    simp [currentPrefix, same]
  | case4 room transaction rest other => simp [currentPrefix, other]

/-- The loop reaches `front()` with an empty queue if it takes all that there is. -/
theorem fillWorkload_eq (transactionList : List Ref) (transaction : Ref) {room : Nat} (rest : List Ref)
    (fits : transactionList.length + 1 + room = coordinatorMaxTransactionPerWorkload) :
    fillWorkload heap epochChan transactionList transaction (transaction :: rest) =
      if (takeTransactions heap epochChan room rest).2 = [] then .frontOfEmpty
      else .returned false (transactionList ++ transaction :: (takeTransactions heap epochChan room rest).1)
        (takeTransactions heap epochChan room rest).2 := by
  induction rest generalizing transactionList transaction room with
  | nil => cases room <;> rfl
  | cons front rest ih =>
    have length : (transactionList ++ [transaction]).length = transactionList.length + 1 := List.length_append
    rw [fillWorkload, length]
    cases room with
    | zero =>
      have full : ¬ ((heap front).epoch = epochChan ∧
          transactionList.length + 1 < coordinatorMaxTransactionPerWorkload) := by omega
      rw [if_neg full]
      rfl
    | succ room =>
      by_cases same : (heap front).epoch = epochChan
      · have left : (transactionList ++ [transaction]).length + 1 + room = coordinatorMaxTransactionPerWorkload := by
          omega
        have more : transactionList.length + 1 < coordinatorMaxTransactionPerWorkload := by omega
        rw [if_pos ⟨same, more⟩, ih _ _ left, takeTransactions, if_pos same]
        simp only [List.append_assoc, List.singleton_append]
      · rw [if_neg fun both => same both.1, takeTransactions, if_neg same]
        rfl

theorem hasWorkload_cons {transactionBuffer : List Ref}
    (predicate : hasWorkload heap epochChan transactionBuffer = true) :
    ∃ front rest, transactionBuffer = front :: rest := by
  cases transactionBuffer with
  | nil => cases predicate
  | cons front rest => exact ⟨front, rest, rfl⟩

theorem checkedWorkload_later {front : Ref} {rest : List Ref}
    (predicate : hasWorkload heap epochChan (front :: rest) = true) (later : epochChan < (heap front).epoch) :
    checkedWorkload heap epochChan (front :: rest) = .returned true [] (front :: rest) := by
  rw [checkedWorkload, if_pos predicate]
  exact if_pos later

theorem checkedWorkload_now {front : Ref} {rest : List Ref}
    (predicate : hasWorkload heap epochChan (front :: rest) = true) (now : ¬ epochChan < (heap front).epoch) :
    checkedWorkload heap epochChan (front :: rest) =
      if (takeTransactions heap epochChan (coordinatorMaxTransactionPerWorkload - 1) rest).2 = [] then .frontOfEmpty
      else .returned false (front :: (takeTransactions heap epochChan (coordinatorMaxTransactionPerWorkload - 1) rest).1)
        (takeTransactions heap epochChan (coordinatorMaxTransactionPerWorkload - 1) rest).2 := by
  rw [checkedWorkload, if_pos predicate]
  exact (if_neg now).trans (fillWorkload_eq [] front rest (by decide))

theorem getWorkload_cons {front : Ref} {rest : List Ref}
    (predicate : hasWorkload heap epochChan (front :: rest) = true) :
    getWorkload heap epochChan (front :: rest) =
      if epochChan < (heap front).epoch then some ([], front :: rest)
      else
        let (transactionList, transactionBuffer) :=
          takeTransactions heap epochChan (coordinatorMaxTransactionPerWorkload - 1) rest
        some (front :: transactionList, transactionBuffer) := by
  unfold hasWorkload at predicate
  unfold getWorkload
  cases last : (front :: rest).getLast? with
  | none =>
    rw [last] at predicate
    cases predicate
  | some back =>
    rw [last, Bool.or_eq_true, decide_eq_true_eq, decide_eq_true_eq] at predicate
    exact if_pos predicate

/-- Whatever `front()` gives for an empty queue, the loop ends there. -/
theorem getWorkload_eq_checked (heap : Heap) (epochChan : Nat) (transactionBuffer : List Ref) :
    getWorkload heap epochChan transactionBuffer =
      match checkedWorkload heap epochChan transactionBuffer with
      | .waiting => none
      | .frontOfEmpty => some (transactionBuffer, [])
      | .returned _ transactionList transactionBuffer => some (transactionList, transactionBuffer) := by
  by_cases predicate : hasWorkload heap epochChan transactionBuffer = true
  · obtain ⟨front, rest, rfl⟩ := hasWorkload_cons predicate
    rw [getWorkload_cons predicate]
    by_cases later : epochChan < (heap front).epoch
    · rw [checkedWorkload_later predicate later, if_pos later]
    · have split := (takeTransactions_spec heap epochChan (coordinatorMaxTransactionPerWorkload - 1) rest).1
      rw [checkedWorkload_now predicate later, if_neg later]
      by_cases all : (takeTransactions heap epochChan (coordinatorMaxTransactionPerWorkload - 1) rest).2 = []
      · rw [all, List.append_nil] at split
        rw [if_pos all]
        dsimp only
        rw [all, ← split]
      · rw [if_neg all]
  · have waits := getWorkload_isSome heap epochChan transactionBuffer
    rw [Bool.not_eq_true] at predicate
    rw [predicate, Option.isSome_eq_false_iff, Option.isNone_iff_eq_none] at waits
    unfold checkedWorkload
    rw [predicate, waits]
    rfl

theorem drop_currentPrefix_eq_nil_iff (heap : Heap) (epochChan room : Nat) (transactionBuffer : List Ref) :
    transactionBuffer.drop (currentPrefix heap epochChan room transactionBuffer).length = [] ↔
      transactionBuffer.length ≤ room ∧ ∀ r ∈ transactionBuffer, (heap r).epoch = epochChan := by
  have whole : transactionBuffer.length ≤ (transactionBuffer.takeWhile fun r => (heap r).epoch = epochChan).length ↔
      ∀ r ∈ transactionBuffer, (heap r).epoch = epochChan := by
    constructor
    · intro long
      have same := (List.takeWhile_prefix _).eq_of_length_le long
      simpa using List.takeWhile_eq_self_iff.mp same
    · intro all
      have same : (transactionBuffer.takeWhile fun r => decide ((heap r).epoch = epochChan)) = transactionBuffer :=
        List.takeWhile_eq_self_iff.mpr (by simpa using all)
      rw [same]
  rw [List.drop_eq_nil_iff, currentPrefix, List.length_take, ← whole]
  omega

theorem checkedWorkload_frontOfEmpty {heap : Heap} {epochChan : Nat} {transactionBuffer : List Ref}
    (predicate : hasWorkload heap epochChan transactionBuffer = true)
    (short : transactionBuffer.length ≤ coordinatorMaxTransactionPerWorkload)
    (all : ∀ r ∈ transactionBuffer, (heap r).epoch = epochChan) :
    checkedWorkload heap epochChan transactionBuffer = .frontOfEmpty := by
  obtain ⟨front, rest, rfl⟩ := hasWorkload_cons predicate
  have now := all front (.head _)
  have room : rest.length ≤ coordinatorMaxTransactionPerWorkload - 1 := Nat.le_sub_one_of_lt short
  have empties := (drop_currentPrefix_eq_nil_iff heap epochChan _ rest).mpr
    ⟨room, fun r member => all r (.tail _ member)⟩
  rw [checkedWorkload_now predicate (Nat.not_lt.mpr (Nat.le_of_eq now)), takeTransactions_eq]
  exact if_pos empties

/-- The workload is the prefix, and no `front()` comes too late, if and only if the buffer does not begin with a
transaction of an earlier epoch and the workload does not empty it. -/
theorem workload_is_prefix_iff (heap : Heap) (epochChan : Nat) (transactionBuffer : List Ref)
    (predicate : hasWorkload heap epochChan transactionBuffer = true) :
    (∃ isCurrentEpochEmpty, checkedWorkload heap epochChan transactionBuffer =
      .returned isCurrentEpochEmpty
        (currentPrefix heap epochChan coordinatorMaxTransactionPerWorkload transactionBuffer)
        (transactionBuffer.drop
          (currentPrefix heap epochChan coordinatorMaxTransactionPerWorkload transactionBuffer).length)) ↔
      (∀ front ∈ transactionBuffer.head?, epochChan ≤ (heap front).epoch) ∧
        (coordinatorMaxTransactionPerWorkload < transactionBuffer.length ∨
          ∃ r ∈ transactionBuffer, (heap r).epoch ≠ epochChan) := by
  obtain ⟨front, rest, rfl⟩ := hasWorkload_cons predicate
  rcases Nat.lt_trichotomy epochChan (heap front).epoch with later | now | earlier
  · have none : currentPrefix heap epochChan coordinatorMaxTransactionPerWorkload (front :: rest) = [] := by
      simp [currentPrefix, Nat.ne_of_gt later]
    rw [checkedWorkload_later predicate later, none]
    refine iff_of_true ⟨true, rfl⟩ ⟨?_, .inr ⟨front, .head _, Nat.ne_of_gt later⟩⟩
    rintro _ ⟨⟩
    exact Nat.le_of_lt later
  · have own : currentPrefix heap epochChan coordinatorMaxTransactionPerWorkload (front :: rest) =
        front :: currentPrefix heap epochChan (coordinatorMaxTransactionPerWorkload - 1) rest := by
      simp [currentPrefix, now, coordinatorMaxTransactionPerWorkload]
    rw [checkedWorkload_now predicate (by omega), takeTransactions_eq, own, List.length_cons, List.drop_succ_cons]
    dsimp only
    have drained := drop_currentPrefix_eq_nil_iff heap epochChan (coordinatorMaxTransactionPerWorkload - 1) rest
    split
    · next empties =>
      obtain ⟨short, all⟩ := drained.mp empties
      refine iff_of_false nofun ?_
      rintro ⟨-, long | ⟨r, member, other⟩⟩
      · have room : 1 ≤ coordinatorMaxTransactionPerWorkload := by decide
        rw [List.length_cons] at long
        omega
      · rcases List.mem_cons.mp member with rfl | member
        · exact other now.symm
        · exact other (all r member)
    · next leaves =>
      refine iff_of_true ⟨false, rfl⟩ ⟨?_, ?_⟩
      · rintro _ ⟨⟩
        exact Nat.le_of_eq now
      · by_contra neither
        push Not at neither
        obtain ⟨short, all⟩ := neither
        rw [List.length_cons] at short
        exact leaves (drained.mpr ⟨by omega, fun r member => all r (.tail _ member)⟩)
  · have none : currentPrefix heap epochChan coordinatorMaxTransactionPerWorkload (front :: rest) = [] := by
      simp [currentPrefix, Nat.ne_of_lt earlier]
    rw [checkedWorkload_now predicate (by omega), none]
    refine iff_of_false ?_ fun both => ?_
    · rintro ⟨_, same⟩
      split at same <;> cases same
    · have first := both.1 front rfl
      omega

section AllOfOneEpoch

/-- Transaction 0 is of epoch 2, all others are of epoch 1. -/
def twoEpochs : Heap := fun r => { MockTransaction.new with epoch := if r = 0 then 2 else 1 }

theorem workload_is_prefix_iff_two_epochs :
    (∃ isCurrentEpochEmpty, checkedWorkload twoEpochs 1 [1, 2, 0] =
      .returned isCurrentEpochEmpty (currentPrefix twoEpochs 1 coordinatorMaxTransactionPerWorkload [1, 2, 0])
        ([1, 2, 0].drop (currentPrefix twoEpochs 1 coordinatorMaxTransactionPerWorkload [1, 2, 0]).length)) ↔
      (∀ front ∈ [1, 2, 0].head?, 1 ≤ (twoEpochs front).epoch) ∧
        (coordinatorMaxTransactionPerWorkload < [1, 2, 0].length ∨ ∃ r ∈ [1, 2, 0], (twoEpochs r).epoch ≠ 1) :=
  workload_is_prefix_iff twoEpochs 1 [1, 2, 0] (by decide)

/-- Enough transactions of the current epoch for a workload, and nothing behind them. -/
theorem front_of_emptied_queue :
    hasWorkload twoEpochs 1 (List.range' 1 500) = true ∧
      checkedWorkload twoEpochs 1 (List.range' 1 500) = .frontOfEmpty := by
  have enough : hasWorkload twoEpochs 1 (List.range' 1 500) = true :=
    hasWorkload_of_length (Nat.le_of_eq List.length_range'.symm)
  have short : (List.range' 1 500).length ≤ coordinatorMaxTransactionPerWorkload := by
    rw [List.length_range']
    decide
  refine ⟨enough, checkedWorkload_frontOfEmpty enough short fun r member => ?_⟩
  have positive : r ≠ 0 := by
    rintro rfl
    exact absurd (List.mem_range'_1.mp member).1 (by decide)
  exact if_neg positive

end AllOfOneEpoch

end Blockchain
