import Mathlib.Data.Prod.Lex
import MyBlockchain.Comm.EpochOrder
import MyBlockchain.Library.Inevitable
import MyBlockchain.Library.PriorityQueue
import MyBlockchain.Transaction.FinishEpoch

namespace Blockchain

open Inevitable (Reaches)

def trMgrGetBatchMinSize : Nat := 5 * 100

namespace TransactionTransfer

variable {heap : Heap} {request : GetRequest} {entry state next : TransactionTransfer} {r : Ref}

theorem exists_isTop (heap : Heap) {queue : List Ref} (some_ : queue ≠ []) : ∃ r, isTop heap queue r = true := by
  let key (r : Ref) : (Nat ×ₗ Nat)ᵒᵈ := OrderDual.toDual (toLex ((heap r).epoch, (heap r).tid))
  cases found : PriorityQueue.top key queue with
  | none => exact absurd (PriorityQueue.top_eq_none_iff.mp found) some_
  | some r =>
    obtain ⟨member, first⟩ := PriorityQueue.top_spec found
    refine ⟨r, ?_⟩
    rw [isTop, Bool.and_eq_true, decide_eq_true_eq, List.all_eq_true]
    refine ⟨member, fun other listed => ?_⟩
    have before := Prod.Lex.toLex_le_toLex.mp (OrderDual.toDual_le_toDual.mp (first other listed))
    unfold comesAfter
    split
    · next same => simp only [same] at before; simp; omega
    · next differs => simp; omega

def held (state : TransactionTransfer) : List Ref := state.processedTransaction ++ state.broadcastTransactions

/-- The queues hold a full batch of the requested epoch, and nothing of an earlier one. -/
structure Ample (heap : Heap) (request : GetRequest) (held : List Ref) : Prop where
  positive : 1 ≤ request.maxSize
  enough : request.maxSize ≤ held.countP fun r => (heap r).epoch = request.epoch
  none_earlier : ∀ r ∈ held, request.epoch ≤ (heap r).epoch

/-- A call of `getTransaction` before it is through: what it has collected and what the queues hold was in the queues
when it began. -/
inductive Filling (heap : Heap) (request : GetRequest) (entry state : TransactionTransfer) : Prop
  | transfer (pc : state.pc = .transfer request none) (answers : state.answers = entry.answers)
      (queues : state.held.Perm entry.held)
  | transferLoop (pc : state.pc = .transferLoop request none) (answers : state.answers = entry.answers)
      (queues : state.held.Perm entry.held) (some_ : state.processedTransaction ≠ [])
  | collect (trWrapper : TransactionWrapper) (pc : state.pc = .collect request trWrapper)
      (answers : state.answers = entry.answers) (drained : state.broadcastTransactions = [])
      (queues : (trWrapper.transactionList ++ state.processedTransaction).Perm entry.held)
      (wrapper : Answers heap request trWrapper) (some_ : state.processedTransaction ≠ [])
      (now : trWrapper.transactionList ≠ [] → state.currentEpoch ≤ request.epoch)

def Filled (heap : Heap) (request : GetRequest) (entry state : TransactionTransfer) : Prop :=
  state.pc = .returned ∧ ∃ trWrapper, state.answers = entry.answers ++ [(request, some trWrapper)] ∧
    trWrapper.size = request.maxSize ∧ (∀ r ∈ trWrapper.transactionList, (heap r).epoch = request.epoch) ∧
    (trWrapper.transactionList ++ state.held).Perm entry.held

/-- A failed CHECK, or a thread that waits in `transferTransaction` on an empty queue. -/
def Stuck (state : TransactionTransfer) : Prop :=
  state.pc = .failed ∨
    (∃ request trWrapper, state.pc = .transfer request trWrapper) ∧ state.held = []

def Unhindered (request : GetRequest) (held : List Ref) (state : TransactionTransfer) : Prop :=
  state.currentEpoch ≤ request.epoch ∧ (request.minSize < request.maxSize ∨ request.maxSize < held.length)

def callMeasure (state : TransactionTransfer) : Nat :=
  match state.pc with
  | .transfer request _ => state.broadcastTransactions.length + request.maxSize + 3
  | .transferLoop request _ => state.broadcastTransactions.length + request.maxSize + 2
  | .collect request trWrapper => request.maxSize - trWrapper.size + 1
  | .returned | .failed => 0

section Ample

variable {held collected queue : List Ref}

theorem Ample.top_epoch (ample : Ample heap request held) (queues : (collected ++ queue).Perm held)
    (short : collected.length < request.maxSize) (top : isTop heap queue r = true) :
    (heap r).epoch = request.epoch := by
  obtain ⟨listed, first⟩ := isTop_spec top
  have early := ample.none_earlier r (queues.subset (List.mem_append_right _ listed))
  have counted := ample.enough
  rw [← queues.countP_eq, List.countP_append] at counted
  have most := @List.countP_le_length Ref (fun r => decide ((heap r).epoch = request.epoch)) collected
  have open_ : 0 < queue.countP fun r => decide ((heap r).epoch = request.epoch) := by omega
  obtain ⟨other, member, same⟩ := List.countP_pos_iff.mp open_
  have late := first other member
  rw [of_decide_eq_true same] at late
  omega

theorem Ample.maxSize_le_length (ample : Ample heap request held) : request.maxSize ≤ held.length :=
  Nat.le_trans ample.enough List.countP_le_length

end Ample

inductive Advances (heap : Heap) (request : GetRequest) (entry state next : TransactionTransfer) : Prop
  | on (call : Filling heap request entry next) (less : callMeasure next < callMeasure state)
      (same : Unhindered request entry.held next ↔ Unhindered request entry.held state)
  | filled (full : Filled heap request entry next) (unhindered : Unhindered request entry.held state)
  | stuck (waits : Stuck next) (hindered : ¬ Unhindered request entry.held state)

theorem take_spec (taken : state.take r = some next) :
    next.held.Perm state.held ∧ next.pc = state.pc ∧ next.answers = state.answers ∧
      next.processedTransaction ≠ [] ∧ next.currentEpoch = state.currentEpoch ∧
      next.broadcastTransactions.length < state.broadcastTransactions.length := by
  unfold TransactionTransfer.take at taken
  split at taken
  · next member =>
    cases taken
    refine ⟨?_, rfl, rfl, List.append_ne_nil_of_right_ne_nil _ (List.cons_ne_nil r []), rfl, ?_⟩
    · have back : (r :: state.broadcastTransactions.erase r).Perm state.broadcastTransactions :=
        (List.perm_cons_erase member).symm
      rw [held, held, List.append_assoc]
      exact back.append_left _
    · have shorter := List.length_erase_of_mem member
      have positive := List.length_pos_of_mem member
      show (state.broadcastTransactions.erase r).length < _
      omega
  · cases taken

theorem callMeasure_transfer (pc : state.pc = .transfer request none) :
    callMeasure state = state.broadcastTransactions.length + request.maxSize + 3 := by
  rw [callMeasure, pc]

theorem callMeasure_transferLoop (pc : state.pc = .transferLoop request none) :
    callMeasure state = state.broadcastTransactions.length + request.maxSize + 2 := by
  rw [callMeasure, pc]

theorem Advances.take (pc : state.pc = .transferLoop request none) (answers : state.answers = entry.answers)
    (queues : state.held.Perm entry.held) (taken : state.take r = some next) :
    Advances heap request entry state next := by
  obtain ⟨moved, samePc, sameAnswers, some_, sameEpoch, shorter⟩ := take_spec taken
  have nextPc := samePc.trans pc
  apply Advances.on
  · exact .transferLoop nextPc (sameAnswers.trans answers) (moved.trans queues) some_
  · rw [callMeasure_transferLoop pc, callMeasure_transferLoop nextPc]
    omega
  · rw [Unhindered, Unhindered, sameEpoch]

theorem Advances.transfer (pc : state.pc = .transfer request none) (answers : state.answers = entry.answers)
    (queues : state.held.Perm entry.held) (advanced : state.advance heap r = some next) :
    Advances heap request entry state next := by
  let inLoop : TransactionTransfer := { state with pc := .transferLoop request none }
  have less : callMeasure inLoop < callMeasure state := by
    rw [callMeasure_transfer pc]
    exact Nat.lt_succ_self _
  unfold TransactionTransfer.advance at advanced
  rw [pc] at advanced
  dsimp only at advanced
  split at advanced
  · have step : Advances heap request entry inLoop next := .take rfl answers queues advanced
    cases step with
    | on call shorter same => exact .on call (Nat.lt_trans shorter less) same
    | filled full unhindered => exact .filled full unhindered
    | stuck waits hindered => exact .stuck waits hindered
  · next some_ =>
    cases advanced
    exact .on (.transferLoop rfl answers queues some_) less Iff.rfl

theorem Advances.transferLoop (ample : Ample heap request entry.held) (pc : state.pc = .transferLoop request none)
    (answers : state.answers = entry.answers) (queues : state.held.Perm entry.held)
    (some_ : state.processedTransaction ≠ []) (advanced : state.advance heap r = some next) :
    Advances heap request entry state next := by
  unfold TransactionTransfer.advance at advanced
  rw [pc] at advanced
  dsimp only at advanced
  split at advanced
  · next drained =>
    have whole : ([] ++ state.processedTransaction).Perm entry.held := by
      rw [held, drained, List.append_nil] at queues
      exact queues
    unfold TransactionTransfer.transferred at advanced
    dsimp only at advanced
    split at advanced
    · next top =>
      have epoch := ample.top_epoch whole ample.positive top
      rw [if_neg (not_not.mpr epoch)] at advanced
      cases advanced
      have empty : Answers heap request (TransactionWrapper.new request.epoch) := ⟨rfl, Nat.zero_le _, nofun⟩
      apply Advances.on
      · exact .collect _ rfl answers drained whole empty some_ fun filled => absurd rfl filled
      · rw [callMeasure_transferLoop pc]
        show request.maxSize - 0 + 1 < _
        omega
      · exact Iff.rfl
    · cases advanced
  · exact .take pc answers queues advanced

theorem Filled.answer {trWrapper : TransactionWrapper} (answers : state.answers = entry.answers)
    (drained : state.broadcastTransactions = [])
    (queues : (trWrapper.transactionList ++ state.processedTransaction).Perm entry.held)
    (wrapper : Answers heap request trWrapper) (full : request.maxSize ≤ trWrapper.size) :
    Filled heap request entry (state.answer request (some trWrapper)) := by
  refine ⟨rfl, trWrapper, ?_, Nat.le_antisymm wrapper.size full, wrapper.transactions, ?_⟩
  · show state.answers ++ _ = _
    rw [answers]
  · have kept : (state.answer request (some trWrapper)).held = state.processedTransaction := by
      show state.processedTransaction ++ state.broadcastTransactions = _
      rw [drained, List.append_nil]
    rw [kept]
    exact queues

theorem Answers.push {trWrapper : TransactionWrapper} (wrapper : Answers heap request trWrapper)
    (short : trWrapper.size < request.maxSize) (epoch : (heap r).epoch = request.epoch) :
    Answers heap request { trWrapper with transactionList := trWrapper.transactionList ++ [r] } where
  epoch := wrapper.epoch
  size := by
    rw [TransactionWrapper.size, List.length_append]
    exact short
  transactions other listed := by
    rcases List.mem_append.mp listed with old | new
    · exact wrapper.transactions other old
    · rw [List.mem_singleton.mp new]
      exact epoch

section Collect

variable (ample : Ample heap request entry.held) {trWrapper : TransactionWrapper}
  (answers : state.answers = entry.answers) (drained : state.broadcastTransactions = [])
include ample answers drained

/-- The end of the loop's body: `state` is without the transaction that `trWrapper` has got last. -/
theorem Advances.popped (queues : (trWrapper.transactionList ++ state.processedTransaction).Perm entry.held)
    (wrapper : Answers heap request trWrapper) (now : state.currentEpoch = request.epoch) {before : TransactionTransfer}
    (inTime : before.currentEpoch ≤ request.epoch) (measure : request.maxSize - trWrapper.size + 1 < callMeasure before)
    (advanced : (if state.processedTransaction = [] then
        if request.minSize < trWrapper.size then some (state.answer request (some trWrapper))
        else some { state with pc := .transfer request (some trWrapper) }
      else some { state with pc := .collect request trWrapper }) = some next) :
    Advances heap request entry before next := by
  have total := queues.length_eq
  have most := ample.maxSize_le_length
  have bound : trWrapper.transactionList.length ≤ request.maxSize := wrapper.size
  rw [List.length_append] at total
  split at advanced
  · next dry =>
    -- the queues run dry: everything that they held is in the wrapper
    rw [dry, List.length_nil, Nat.add_zero] at total
    split at advanced
    · next above =>
      cases advanced
      have full : request.maxSize ≤ trWrapper.size := Nat.le_trans most (Nat.le_of_eq total.symm)
      exact .filled (.answer answers drained queues wrapper full) ⟨inTime, .inl (Nat.lt_of_lt_of_le above bound)⟩
    · next below =>
      cases advanced
      rw [TransactionWrapper.size] at below
      apply Advances.stuck
      · refine .inr ⟨⟨request, trWrapper, rfl⟩, ?_⟩
        show state.processedTransaction ++ state.broadcastTransactions = []
        rw [dry, drained, List.append_nil]
      · rintro ⟨-, room | more⟩ <;> omega
  · next wet =>
    cases advanced
    apply Advances.on
    · exact .collect trWrapper rfl answers drained queues wrapper wet fun _ => Nat.le_of_eq now
    · exact measure
    · have started : state.currentEpoch ≤ request.epoch ↔ before.currentEpoch ≤ request.epoch :=
        iff_of_true (Nat.le_of_eq now) inTime
      exact and_congr_left' started

theorem Advances.collect (pc : state.pc = .collect request trWrapper)
    (queues : (trWrapper.transactionList ++ state.processedTransaction).Perm entry.held)
    (wrapper : Answers heap request trWrapper) (some_ : state.processedTransaction ≠ [])
    (now : trWrapper.transactionList ≠ [] → state.currentEpoch ≤ request.epoch)
    (advanced : state.advance heap r = some next) : Advances heap request entry state next := by
  unfold TransactionTransfer.advance at advanced
  rw [pc] at advanced
  dsimp only at advanced
  unfold TransactionTransfer.collect at advanced
  split at advanced
  · next short =>
    split at advanced
    · next top =>
      have epoch := ample.top_epoch queues short top
      rw [if_neg (not_not.mpr epoch)] at advanced
      split at advanced
      · next overtaken =>
        cases advanced
        rw [epoch] at overtaken
        exact .stuck (.inl rfl) fun unhindered => absurd unhindered.1 (Nat.not_le.mpr overtaken)
      · next inTime =>
        rw [epoch, Nat.not_lt] at inTime
        have pushed := TransactionWrapper.pushTransaction_of_epoch (epoch.trans wrapper.epoch.symm)
        rw [pushed] at advanced
        have moved : (trWrapper.transactionList ++ [r] ++ state.processedTransaction.erase r).Perm entry.held := by
          rw [List.append_assoc]
          exact ((List.perm_cons_erase (isTop_spec top).1).symm.append_left _).trans queues
        have measure : request.maxSize - (trWrapper.transactionList ++ [r]).length + 1 < callMeasure state := by
          have whole : callMeasure state = request.maxSize - trWrapper.transactionList.length + 1 := by
            rw [callMeasure, pc]
            rfl
          have room : trWrapper.transactionList.length < request.maxSize := short
          rw [whole, List.length_append, List.length_singleton]
          omega
        let popped : TransactionTransfer :=
          { state with
            currentEpoch := (heap r).epoch
            processedTransaction := state.processedTransaction.erase r }
        exact @Advances.popped heap request entry popped next ample _ answers drained moved (wrapper.push short epoch)
          epoch state inTime measure advanced
    · cases advanced
  · next full =>
    cases advanced
    have total := queues.length_eq
    rw [List.length_append] at total
    have left := List.length_pos_iff.mpr some_
    have sizes : request.maxSize ≤ trWrapper.transactionList.length := Nat.le_of_not_lt full
    have bound : trWrapper.transactionList.length ≤ request.maxSize := wrapper.size
    have positive := ample.positive
    have collected : trWrapper.transactionList ≠ [] := List.length_pos_iff.mp (by omega)
    have more : request.maxSize < entry.held.length := by omega
    exact .filled (.answer answers drained queues wrapper sizes) ⟨now collected, .inr more⟩

end Collect

theorem Filling.advance (ample : Ample heap request entry.held) (call : Filling heap request entry state)
    (advanced : state.advance heap r = some next) : Advances heap request entry state next := by
  cases call with
  | transfer pc answers queues => exact .transfer pc answers queues advanced
  | transferLoop pc answers queues some_ => exact .transferLoop ample pc answers queues some_ advanced
  | collect trWrapper pc answers drained queues wrapper some_ now =>
    exact .collect ample answers drained pc queues wrapper some_ now advanced

theorem Filling.moves (ample : Ample heap request entry.held) (call : Filling heap request entry state) :
    ∃ r next, state.advance heap r = some next := by
  have positive : entry.held ≠ [] := by
    have most := ample.maxSize_le_length
    have positive := ample.positive
    exact List.length_pos_iff.mp (by omega)
  unfold TransactionTransfer.advance
  cases call with
  | transfer pc answers queues =>
    rw [pc]
    dsimp only
    by_cases empty : state.processedTransaction = []
    · have some_ : state.broadcastTransactions ≠ [] := by
        intro drained
        rw [held, empty, drained] at queues
        exact positive queues.symm.eq_nil
      obtain ⟨r, member⟩ := List.exists_mem_of_ne_nil _ some_
      exact ⟨r, _, (if_pos empty).trans (if_pos member)⟩
    · exact ⟨0, _, if_neg empty⟩
  | transferLoop pc answers queues some_ =>
    rw [pc]
    dsimp only
    by_cases drained : state.broadcastTransactions = []
    · obtain ⟨r, top⟩ := exists_isTop heap some_
      refine ⟨r, Option.isSome_iff_exists.mp ?_⟩
      rw [if_pos drained, transferred, if_pos top]
      split <;> rfl
    · obtain ⟨r, member⟩ := List.exists_mem_of_ne_nil _ drained
      exact ⟨r, _, (if_neg drained).trans (if_pos member)⟩
  | collect trWrapper pc answers drained queues wrapper some_ now =>
    rw [pc]
    dsimp only
    obtain ⟨r, top⟩ := exists_isTop heap some_
    refine ⟨r, Option.isSome_iff_exists.mp ?_⟩
    rw [TransactionTransfer.collect, if_pos top]
    split
    · next short =>
      have epoch := ample.top_epoch queues short top
      have pushed := TransactionWrapper.pushTransaction_of_epoch (epoch.trans wrapper.epoch.symm)
      rw [if_neg (not_not.mpr epoch), pushed]
      split
      · rfl
      · dsimp only
        split
        · split <;> rfl
        · rfl
    · rfl

theorem Filling.callMeasure_pos (call : Filling heap request entry state) : 0 < callMeasure state := by
  unfold callMeasure
  cases call with
  | transfer pc | transferLoop pc | collect _ pc =>
    rw [pc]
    exact Nat.succ_pos _

theorem Filled.not_filling (full : Filled heap request entry state) : ¬ Filling heap request entry state := by
  intro call
  have pc := full.1
  cases call with
  | transfer pc' | transferLoop pc' | collect _ pc' =>
    rw [pc'] at pc
    cases pc

theorem Filled.not_advance (full : Filled heap request entry state) : state.advance heap r = none := by
  unfold TransactionTransfer.advance
  rw [full.1]

theorem Stuck.not_filled (stuck : Stuck state) : ¬ Filled heap request entry state := by
  intro full
  have pc := full.1
  rcases stuck with failed | ⟨⟨asked, trWrapper, waiting⟩, -⟩
  · rw [failed] at pc
    cases pc
  · rw [waiting] at pc
    cases pc

theorem Stuck.not_advance (stuck : Stuck state) : state.advance heap r = none := by
  unfold TransactionTransfer.advance
  rcases stuck with failed | ⟨⟨request, trWrapper, pc⟩, dry⟩
  · rw [failed]
  · obtain ⟨empty, drained⟩ := List.append_eq_nil_iff.mp dry
    rw [pc]
    dsimp only
    rw [if_pos empty, TransactionTransfer.take, if_neg]
    rw [drained]
    exact List.not_mem_nil

section Call

variable (ample : Ample heap request entry.held)
include ample

theorem Filling.reaches (call : Filling heap request entry state) :
    Reaches (TransactionTransfer.advance heap) (Filled heap request entry) state ↔
      Unhindered request entry.held state := by
  constructor
  · intro reaches
    by_contra hindered
    refine Reaches.not_of_trap
      (fun state => (Filling heap request entry state ∧ ¬ Unhindered request entry.held state) ∨ Stuck state)
      ?_ ?_ (.inl ⟨call, hindered⟩) reaches
    · rintro state (⟨call, -⟩ | stuck) full
      · exact full.not_filling call
      · exact stuck.not_filled full
    · rintro state r next (⟨call, hindered⟩ | stuck) advanced
      · cases call.advance ample advanced with
        | on call less same => exact .inl ⟨call, fun unhindered => hindered (same.mp unhindered)⟩
        | filled full unhindered => exact absurd unhindered hindered
        | stuck stuck hindered => exact .inr stuck
      · rw [stuck.not_advance] at advanced
        cases advanced
  · intro unhindered
    refine Reaches.of_measure
      (fun state => (Filling heap request entry state ∧ Unhindered request entry.held state) ∨
        Filled heap request entry state) callMeasure ?_ ?_ (.inl ⟨call, unhindered⟩)
    · rintro state (⟨call, -⟩ | full)
      · exact .inr (call.moves ample)
      · exact .inl full
    · rintro state r next (⟨call, unhindered⟩ | full) advanced
      · cases call.advance ample advanced with
        | on call less same => exact ⟨.inl ⟨call, same.mpr unhindered⟩, less⟩
        | filled full =>
          have done : callMeasure next = 0 := by rw [callMeasure, full.1]
          rw [done]
          exact ⟨.inr full, call.callMeasure_pos⟩
        | stuck _ hindered => exact absurd unhindered hindered
      · rw [full.not_advance] at advanced
        cases advanced

end Call

theorem getTransaction_eq (idle : state.pc = .returned)
    (asked : request.epoch = state.epoch ∨ state.complete = true ∧ request.epoch = state.epoch + 1)
    (onTop : state.processedTransaction = [] ∨
      ∃ r, isTop heap state.processedTransaction r = true ∧ (heap r).epoch = request.epoch) :
    (∃ r next, state.getTransaction heap request r = some next) ∧
      ∀ {r next}, state.getTransaction heap request r = some next →
        next = { state with pc := .transfer request none } := by
  unfold TransactionTransfer.getTransaction
  simp only [if_pos (And.intro idle asked)]
  rcases onTop with empty | ⟨top, isTop, epoch⟩
  · refine ⟨⟨0, _, if_pos empty⟩, fun called => ?_⟩
    rw [if_pos empty] at called
    exact (Option.some.inj called).symm
  · have some_ : state.processedTransaction ≠ [] := List.ne_nil_of_mem (isTop_spec isTop).1
    refine ⟨⟨top, { state with pc := .transfer request none }, ?_⟩, fun {r next} called => ?_⟩
    · rw [if_neg some_, if_pos isTop, if_neg (not_not.mpr epoch)]
    · rw [if_neg some_] at called
      split at called
      · next isTop' =>
        have same : (heap r).epoch = request.epoch := by
          have before := (isTop_spec isTop).2 r (isTop_spec isTop').1
          have after := (isTop_spec isTop').2 top (isTop_spec isTop).1
          omega
        rw [if_neg (not_not.mpr same)] at called
        exact (Option.some.inj called).symm
      · cases called

/-- A full batch is returned, whatever the bag gives up first, if and only if no transaction of a later epoch was
handed out before and the limit is not reached just when the queues run dry. -/
theorem full_batch_iff (idle : state.pc = .returned)
    (asked : request.epoch = state.epoch ∨ state.complete = true ∧ request.epoch = state.epoch + 1)
    (onTop : state.processedTransaction = [] ∨
      ∃ r, isTop heap state.processedTransaction r = true ∧ (heap r).epoch = request.epoch)
    (ample : Ample heap request state.held) :
    ((∃ r next, state.getTransaction heap request r = some next) ∧
      ∀ r next, state.getTransaction heap request r = some next →
        Reaches (TransactionTransfer.advance heap) (Filled heap request state) next) ↔
      state.currentEpoch ≤ request.epoch ∧
        (request.minSize < request.maxSize ∨ request.maxSize < state.held.length) := by
  obtain ⟨⟨r, next, called⟩, same⟩ := @getTransaction_eq heap request state idle asked onTop
  have call : Filling heap request state { state with pc := .transfer request none } := .transfer rfl rfl (.refl _)
  have reaches := call.reaches ample
  constructor
  · rintro ⟨-, all⟩
    have full := all r next called
    rw [same called] at full
    exact reaches.mp full
  · refine fun unhindered => ⟨⟨r, next, called⟩, fun r next called => ?_⟩
    rw [same called]
    exact reaches.mpr unhindered

section EqualLimits

def firstEpoch : Heap := fun _ => { MockTransaction.new with epoch := 1 }

def receivedInFirstEpoch (broadcastTransactions : List Ref) : TransactionTransfer :=
  { start 1 with broadcastTransactions, arrived := broadcastTransactions }

theorem ample_of_length {maxSize minSize : Nat} {broadcastTransactions : List Ref} (positive : 1 ≤ maxSize)
    (enough : maxSize ≤ broadcastTransactions.length) :
    Ample firstEpoch ⟨1, maxSize, minSize⟩ (receivedInFirstEpoch broadcastTransactions).held := by
  refine ⟨positive, ?_, fun r _ => Nat.le_refl 1⟩
  have all : (broadcastTransactions.countP fun r => decide ((firstEpoch r).epoch = 1)) = broadcastTransactions.length :=
    List.countP_eq_length.mpr fun r _ => decide_eq_true rfl
  show maxSize ≤ ([] ++ broadcastTransactions).countP fun r => decide ((firstEpoch r).epoch = 1)
  rw [List.nil_append, all]
  exact enough

theorem full_batch_iff_three_transactions :
    ((∃ r next, (receivedInFirstEpoch [0, 1, 2]).getTransaction firstEpoch ⟨1, 2, 2⟩ r = some next) ∧
      ∀ r next, (receivedInFirstEpoch [0, 1, 2]).getTransaction firstEpoch ⟨1, 2, 2⟩ r = some next →
        Reaches (TransactionTransfer.advance firstEpoch)
          (Filled firstEpoch ⟨1, 2, 2⟩ (receivedInFirstEpoch [0, 1, 2])) next) ↔ 0 ≤ 1 ∧ (2 < 2 ∨ 2 < 3) :=
  full_batch_iff rfl (.inl rfl) (.inl rfl) (ample_of_length (by decide) (by decide))

theorem waits_at_the_limit {size : Nat} {broadcastTransactions : List Ref} (positive : 1 ≤ size)
    (length : broadcastTransactions.length = size) :
    ∃ r next, (receivedInFirstEpoch broadcastTransactions).getTransaction firstEpoch ⟨1, size, size⟩ r = some next ∧
      ¬ Reaches (TransactionTransfer.advance firstEpoch)
        (Filled firstEpoch ⟨1, size, size⟩ (receivedInFirstEpoch broadcastTransactions)) next := by
  obtain ⟨⟨r, next, called⟩, same⟩ :=
    @getTransaction_eq firstEpoch ⟨1, size, size⟩ (receivedInFirstEpoch broadcastTransactions) rfl (.inl rfl) (.inl rfl)
  refine ⟨r, next, called, fun full => ?_⟩
  rw [same called] at full
  have call : Filling firstEpoch ⟨1, size, size⟩ (receivedInFirstEpoch broadcastTransactions)
      { receivedInFirstEpoch broadcastTransactions with pc := .transfer ⟨1, size, size⟩ none } :=
    .transfer rfl rfl (.refl _)
  have reaches := call.reaches (ample_of_length positive (Nat.le_of_eq length.symm))
  rcases (reaches.mp full).2 with room | more
  · exact absurd room (Nat.lt_irrefl size)
  · have held : (receivedInFirstEpoch broadcastTransactions).held.length = size := length
    rw [held] at more
    exact absurd more (Nat.lt_irrefl size)

/-- The manager's limits, and as many transactions as they ask for. -/
theorem manager_waits_for_another_transaction :
    Ample firstEpoch ⟨1, trMgrGetBatchMaxSize, trMgrGetBatchMinSize⟩
        (receivedInFirstEpoch (List.range' 0 trMgrGetBatchMaxSize)).held ∧
      ∃ r next,
        (receivedInFirstEpoch (List.range' 0 trMgrGetBatchMaxSize)).getTransaction firstEpoch
          ⟨1, trMgrGetBatchMaxSize, trMgrGetBatchMinSize⟩ r = some next ∧
        ¬ Reaches (TransactionTransfer.advance firstEpoch)
          (Filled firstEpoch ⟨1, trMgrGetBatchMaxSize, trMgrGetBatchMinSize⟩
            (receivedInFirstEpoch (List.range' 0 trMgrGetBatchMaxSize))) next :=
  ⟨ample_of_length (by decide) (Nat.le_of_eq List.length_range'.symm),
    waits_at_the_limit (by decide) List.length_range'⟩

end EqualLimits

end TransactionTransfer

end Blockchain
