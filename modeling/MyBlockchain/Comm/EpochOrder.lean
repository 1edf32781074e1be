import Mathlib.Data.List.Perm.Basic
import MyBlockchain.Comm.TransactionTransfer
import MyBlockchain.Library.Runs

namespace Blockchain

namespace TransactionTransfer

variable {heap : Heap} {first : Nat}

structure Answers (heap : Heap) (request : GetRequest) (trWrapper : TransactionWrapper) : Prop where
  epoch : trWrapper.epoch = request.epoch
  size : trWrapper.size ≤ request.maxSize
  transactions : ∀ r ∈ trWrapper.transactionList, (heap r).epoch = request.epoch

/-- What is not yet handed out, and what may still arrive, has at least this epoch. -/
structure FromEpoch (heap : Heap) (first : Nat) (state : TransactionTransfer) (epoch : Nat) : Prop where
  bag : ∀ r ∈ state.broadcastTransactions, epoch ≤ (heap r).epoch
  queue : ∀ r ∈ state.processedTransaction, epoch ≤ (heap r).epoch
  later : epoch ≤ first ∨ ∃ r ∈ state.arrived, epoch ≤ (heap r).epoch

def openEpoch (state : TransactionTransfer) : Nat := if state.complete then state.epoch + 1 else state.epoch

def PcSound (heap : Heap) (state : TransactionTransfer) : Prop :=
  match state.pc with
  | .returned => True
  | .transfer request trWrapper | .transferLoop request trWrapper =>
    request.epoch ≤ state.openEpoch ∧ state.epoch ≤ request.epoch ∧ ∀ w, trWrapper = some w → Answers heap request w
  | .collect request trWrapper =>
    request.epoch ≤ state.openEpoch ∧ state.epoch ≤ request.epoch ∧ Answers heap request trWrapper
  | .failed => False

def InTransferLoop (state : TransactionTransfer) : Prop :=
  ∃ request trWrapper, state.pc = .transferLoop request trWrapper

structure Invariant (heap : Heap) (first : Nat) (state : TransactionTransfer) : Prop where
  placed : state.arrived.Perm
    (state.broadcastTransactions ++ state.processedTransaction ++ state.inHand ++ state.delivered)
  ordered : ¬ state.InTransferLoop → ∀ r ∈ state.processedTransaction, ∀ b ∈ state.broadcastTransactions,
    (heap r).epoch ≤ (heap b).epoch
  openEpoch : FromEpoch heap first state state.openEpoch
  current : FromEpoch heap first state state.currentEpoch
  pc : PcSound heap state
  wrappers : ∀ request w, (request, some w) ∈ state.answers → Answers heap request w
  nulls : ∀ request, (request, none) ∈ state.answers →
    FromEpoch heap first state (request.epoch + 1) ∧ ∀ r ∈ state.inHand, (heap r).epoch ≠ request.epoch

theorem isTop_spec {queue : List Ref} {r : Ref} (top : isTop heap queue r = true) :
    r ∈ queue ∧ ∀ other ∈ queue, (heap r).epoch ≤ (heap other).epoch := by
  have parts : r ∈ queue ∧ ∀ other ∈ queue, comesAfter heap r other = false := by simpa [isTop] using top
  refine ⟨parts.1, fun other member => ?_⟩
  have before := parts.2 other member
  unfold comesAfter at before
  split at before
  · next same => exact Nat.le_of_eq same
  · exact Nat.le_of_not_lt (of_decide_eq_false before)

variable {state next : TransactionTransfer} {epoch : Nat}

theorem FromEpoch.move (bound : FromEpoch heap first state epoch)
    (bag : ∀ r ∈ next.broadcastTransactions, r ∈ state.broadcastTransactions)
    (queue : ∀ r ∈ next.processedTransaction, r ∈ state.broadcastTransactions ∨ r ∈ state.processedTransaction)
    (arrived : next.arrived = state.arrived) : FromEpoch heap first next epoch where
  bag r member := bound.bag r (bag r member)
  queue r member := (queue r member).elim (bound.bag r) (bound.queue r)
  later := by rw [arrived]; exact bound.later

theorem FromEpoch.enqueue {transaction : Ref} (bound : FromEpoch heap first state epoch)
    (enqueued : state.enqueue heap first transaction = some next) : FromEpoch heap first next epoch := by
  unfold TransactionTransfer.enqueue at enqueued
  split at enqueued
  · next inOrder =>
    cases enqueued
    have late : epoch ≤ (heap transaction).epoch := by
      rcases bound.later with start | ⟨r, member, reached⟩
      · exact Nat.le_trans start inOrder.1
      · exact Nat.le_trans reached (inOrder.2 r member)
    refine ⟨fun r member => ?_, bound.queue, ?_⟩
    · rcases List.mem_append.mp member with old | new
      · exact bound.bag r old
      · rw [List.mem_singleton.mp new]
        exact late
    · exact bound.later.imp_right fun ⟨r, member, reached⟩ => ⟨r, List.mem_append_left _ member, reached⟩
  · cases enqueued

theorem Invariant.enqueue {transaction : Ref} (invariant : Invariant heap first state)
    (enqueued : state.enqueue heap first transaction = some next) : Invariant heap first next := by
  have bounds (epoch : Nat) (bound : FromEpoch heap first state epoch) : FromEpoch heap first next epoch :=
    bound.enqueue enqueued
  unfold TransactionTransfer.enqueue at enqueued
  split at enqueued
  · next inOrder =>
    cases enqueued
    refine ⟨?_, ?_, bounds _ invariant.openEpoch, bounds _ invariant.current, invariant.pc, invariant.wrappers,
      fun request given => ⟨bounds _ (invariant.nulls request given).1, (invariant.nulls request given).2⟩⟩
    · have moved := (invariant.placed.append_right [transaction]).trans List.perm_append_comm
      refine moved.trans ?_
      simp only [List.append_assoc, List.singleton_append]
      exact List.perm_middle.symm
    · intro settled r queued b member
      rcases List.mem_append.mp member with old | new
      · exact invariant.ordered settled r queued b old
      · rw [List.mem_singleton.mp new]
        have there : r ∈ state.arrived := invariant.placed.mem_iff.mpr (by simp [queued])
        exact inOrder.2 r there
  · cases enqueued

theorem Invariant.goto {pc : GetPc} (invariant : Invariant heap first state)
    (hand : { state with pc }.inHand = state.inHand) (sound : PcSound heap { state with pc })
    (ordered : ¬ { state with pc }.InTransferLoop → ∀ r ∈ state.processedTransaction,
      ∀ b ∈ state.broadcastTransactions, (heap r).epoch ≤ (heap b).epoch) :
    Invariant heap first { state with pc } where
  placed := by
    rw [hand]
    exact invariant.placed
  ordered := ordered
  openEpoch := ⟨invariant.openEpoch.bag, invariant.openEpoch.queue, invariant.openEpoch.later⟩
  current := ⟨invariant.current.bag, invariant.current.queue, invariant.current.later⟩
  pc := sound
  wrappers := invariant.wrappers
  nulls request given := by
    have closed := invariant.nulls request given
    refine ⟨⟨closed.1.bag, closed.1.queue, closed.1.later⟩, ?_⟩
    rw [hand]
    exact closed.2

/-- Null is right: with another epoch on top, nothing of the requested one is left or to come. -/
theorem Invariant.null {transaction : Ref} (invariant : Invariant heap first state)
    (ordered : ∀ r ∈ state.processedTransaction, ∀ b ∈ state.broadcastTransactions, (heap r).epoch ≤ (heap b).epoch)
    (low : epoch ≤ state.openEpoch) (top : isTop heap state.processedTransaction transaction = true)
    (other : (heap transaction).epoch ≠ epoch) : FromEpoch heap first state (epoch + 1) := by
  obtain ⟨member, least⟩ := isTop_spec top
  have above : epoch + 1 ≤ (heap transaction).epoch := by
    have bound := invariant.openEpoch.queue transaction member
    omega
  refine ⟨fun b inside => ?_, fun r inside => ?_, .inr ⟨transaction, ?_, above⟩⟩
  · exact Nat.le_trans above (ordered transaction member b inside)
  · exact Nat.le_trans above (least r inside)
  · exact invariant.placed.mem_iff.mpr (by simp [member])

theorem Invariant.answer {request : GetRequest} {trWrapper : Option TransactionWrapper}
    (invariant : Invariant heap first state)
    (ordered : ∀ r ∈ state.processedTransaction, ∀ b ∈ state.broadcastTransactions, (heap r).epoch ≤ (heap b).epoch)
    (hand : state.inHand = (trWrapper.map TransactionWrapper.transactionList).getD [])
    (sound : ∀ w, trWrapper = some w → Answers heap request w)
    (null : trWrapper = none → FromEpoch heap first state (request.epoch + 1)) :
    Invariant heap first (state.answer request trWrapper) where
  placed := by
    have out : (state.answer request trWrapper).delivered = state.delivered ++ state.inHand := by
      simp [delivered, TransactionTransfer.answer, hand]
    have empty : (state.answer request trWrapper).inHand = [] := rfl
    rw [out, empty, List.append_nil]
    refine invariant.placed.trans ?_
    rw [List.append_assoc (state.broadcastTransactions ++ state.processedTransaction)]
    exact List.perm_append_comm.append_left _
  ordered _ := ordered
  openEpoch := by
    have old := invariant.openEpoch
    have closed : (state.answer request trWrapper).complete =
        (state.complete || (trWrapper = none && request.epoch = state.epoch)) := rfl
    unfold TransactionTransfer.openEpoch at old ⊢
    rw [closed]
    by_cases complete : state.complete = true
    · simp only [complete, Bool.true_or, if_true] at old ⊢
      exact ⟨old.bag, old.queue, old.later⟩
    · by_cases now : trWrapper = none ∧ request.epoch = state.epoch
      · have given := null now.1
        rw [now.2] at given
        simp only [now, decide_true, Bool.and_self, Bool.or_true, if_true]
        exact ⟨given.bag, given.queue, given.later⟩
      · have still : (state.complete || (decide (trWrapper = none) && decide (request.epoch = state.epoch))) = false := by
          simp only [Bool.or_eq_false_iff, Bool.and_eq_false_iff, decide_eq_false_iff_not]
          exact ⟨Bool.eq_false_iff.mpr complete, not_and_or.mp now⟩
        rw [still]
        rw [if_neg complete] at old
        exact ⟨old.bag, old.queue, old.later⟩
  current := ⟨invariant.current.bag, invariant.current.queue, invariant.current.later⟩
  pc := trivial
  wrappers asked w given := by
    rcases List.mem_append.mp given with old | new
    · exact invariant.wrappers asked w old
    · obtain ⟨rfl, rfl⟩ := Prod.mk.inj (List.mem_singleton.mp new)
      exact sound w rfl
  nulls asked given := by
    rcases List.mem_append.mp given with old | new
    · have closed := (invariant.nulls asked old).1
      exact ⟨⟨closed.bag, closed.queue, closed.later⟩, by simp [inHand, TransactionTransfer.answer]⟩
    · obtain ⟨rfl, rfl⟩ := Prod.mk.inj (List.mem_singleton.mp new)
      have closed := null rfl
      exact ⟨⟨closed.bag, closed.queue, closed.later⟩, by simp [inHand, TransactionTransfer.answer]⟩

theorem Invariant.getTransaction {request : GetRequest} {transaction : Ref} (invariant : Invariant heap first state)
    (called : state.getTransaction heap request transaction = some next) : Invariant heap first next := by
  unfold TransactionTransfer.getTransaction at called
  split at called
  · next call =>
    obtain ⟨returned, which⟩ := call
    have settled : ¬ state.InTransferLoop := by
      rintro ⟨asked, w, inside⟩
      rw [returned] at inside
      cases inside
    have hand : state.inHand = [] := by
      unfold inHand
      rw [returned]
    have low : request.epoch ≤ state.openEpoch ∧ state.epoch ≤ request.epoch := by
      unfold TransactionTransfer.openEpoch
      rcases which with same | ⟨complete, following⟩
      · split <;> omega
      · rw [if_pos complete]
        omega
    have transfer : Invariant heap first { state with pc := .transfer request none } :=
      invariant.goto hand.symm ⟨low.1, low.2, fun _ none => (by cases none)⟩ fun _ => invariant.ordered settled
    split at called
    · cases called
      exact transfer
    · split at called
      · next top =>
        split at called
        · next other =>
          cases called
          exact invariant.answer (invariant.ordered settled) hand (fun _ none => by cases none)
            fun _ => invariant.null (invariant.ordered settled) low.1 top other
        · cases called
          exact transfer
      · cases called
  · cases called

theorem Invariant.take {transaction : Ref} (invariant : Invariant heap first state)
    (inside : state.InTransferLoop) (taken : state.take transaction = some next) : Invariant heap first next := by
  unfold TransactionTransfer.take at taken
  split at taken
  · next member =>
    cases taken
    have bounds (epoch : Nat) (bound : FromEpoch heap first state epoch) : FromEpoch heap first
        { state with
          broadcastTransactions := state.broadcastTransactions.erase transaction
          processedTransaction := state.processedTransaction ++ [transaction] } epoch := by
      refine bound.move (fun r left => List.mem_of_mem_erase left) (fun r there => ?_) rfl
      rcases List.mem_append.mp there with old | new
      · exact .inr old
      · exact .inl (List.mem_singleton.mp new ▸ member)
    refine ⟨?_, fun settled => absurd inside settled, bounds _ invariant.openEpoch, bounds _ invariant.current,
      invariant.pc, invariant.wrappers,
      fun request given => ⟨bounds _ (invariant.nulls request given).1, (invariant.nulls request given).2⟩⟩
    refine invariant.placed.trans ?_
    have moved : (state.broadcastTransactions ++ state.processedTransaction).Perm
        (state.broadcastTransactions.erase transaction ++ (state.processedTransaction ++ [transaction])) := by
      refine ((List.perm_cons_erase member).append_right _).trans ?_
      rw [← List.append_assoc]
      exact @List.perm_append_comm _ [transaction] _
    exact (moved.append_right _).append_right _
  · cases taken

theorem Invariant.transferred {request : GetRequest} {trWrapper : Option TransactionWrapper} {transaction : Ref}
    (invariant : Invariant heap first state) (pc : state.pc = .transferLoop request trWrapper)
    (empty : state.broadcastTransactions = [])
    (done : state.transferred heap request trWrapper transaction = some next) : Invariant heap first next := by
  have sound := invariant.pc
  unfold PcSound at sound
  rw [pc] at sound
  obtain ⟨low, high, wrapper⟩ := sound
  have ordered : ∀ r ∈ state.processedTransaction, ∀ b ∈ state.broadcastTransactions,
      (heap r).epoch ≤ (heap b).epoch := by
    intro r _ b inside
    rw [empty] at inside
    cases inside
  unfold TransactionTransfer.transferred at done
  split at done
  · next w =>
    cases done
    refine invariant.goto ?_ ⟨low, high, wrapper w rfl⟩ fun _ => ordered
    simp [inHand, pc]
  · have hand : state.inHand = [] := by simp [inHand, pc]
    split at done
    · next top =>
      split at done
      · next other =>
        cases done
        exact invariant.answer ordered hand (fun _ none => by cases none) fun _ => invariant.null ordered low top other
      · cases done
        refine invariant.goto hand.symm ⟨low, high, rfl, Nat.zero_le _, fun r inside => ?_⟩ fun _ => ordered
        cases inside
    · cases done

theorem Invariant.pop {request : GetRequest} {trWrapper : TransactionWrapper} {transaction : Ref}
    (invariant : Invariant heap first state) (pc : state.pc = .collect request trWrapper)
    (room : trWrapper.size < request.maxSize) (top : isTop heap state.processedTransaction transaction = true)
    (same : (heap transaction).epoch = request.epoch) :
    Invariant heap first
      { state with
        currentEpoch := (heap transaction).epoch
        processedTransaction := state.processedTransaction.erase transaction
        pc := .collect request
          { trWrapper with transactionList := trWrapper.transactionList ++ [transaction] } } := by
  have sound := invariant.pc
  unfold PcSound at sound
  rw [pc] at sound
  obtain ⟨low, high, wrapper⟩ := sound
  have settled : ¬ state.InTransferLoop := by
    rintro ⟨asked, w, inside⟩
    rw [pc] at inside
    cases inside
  obtain ⟨member, least⟩ := isTop_spec top
  have there : transaction ∈ state.arrived := invariant.placed.mem_iff.mpr (by simp [member])
  have hand : state.inHand = trWrapper.transactionList := by simp [inHand, pc]
  have smaller (r : Ref) (left : r ∈ state.processedTransaction.erase transaction) : r ∈ state.processedTransaction :=
    List.mem_of_mem_erase left
  refine {
    placed := ?placed, ordered := ?ordered, openEpoch := ?openEpoch, current := ?current, pc := ?pc
    wrappers := invariant.wrappers, nulls := ?nulls }
  case placed =>
    refine invariant.placed.trans ?_
    show (state.broadcastTransactions ++ state.processedTransaction ++ state.inHand ++ state.delivered).Perm
      (state.broadcastTransactions ++ state.processedTransaction.erase transaction ++
        (trWrapper.transactionList ++ [transaction]) ++ state.delivered)
    rw [hand]
    refine List.Perm.append_right _ ?_
    rw [List.append_assoc, List.append_assoc]
    refine List.Perm.append_left _ (((List.perm_cons_erase member).append_right _).trans ?_)
    rw [← List.append_assoc]
    exact @List.perm_append_comm _ [transaction] _
  case ordered =>
    exact fun _ r left b inside => invariant.ordered settled r (smaller r left) b inside
  case openEpoch =>
    exact ⟨invariant.openEpoch.bag, fun r left => invariant.openEpoch.queue r (smaller r left),
      invariant.openEpoch.later⟩
  case current =>
    exact ⟨fun b inside => invariant.ordered settled transaction member b inside,
      fun r left => least r (smaller r left), .inr ⟨transaction, there, Nat.le_refl _⟩⟩
  case pc =>
    refine ⟨low, high, wrapper.epoch, ?_, fun r inside => ?_⟩
    · show (trWrapper.transactionList ++ [transaction]).length ≤ request.maxSize
      rw [List.length_append, List.length_singleton]
      exact room
    · rcases List.mem_append.mp inside with old | new
      · exact wrapper.transactions r old
      · rw [List.mem_singleton.mp new]
        exact same
  case nulls =>
    intro asked given
    obtain ⟨closed, clean⟩ := invariant.nulls asked given
    refine ⟨⟨closed.bag, fun r left => closed.queue r (smaller r left), closed.later⟩, fun r inside => ?_⟩
    rcases List.mem_append.mp inside with old | new
    · exact clean r (hand ▸ old)
    · have bound := closed.queue transaction member
      rw [List.mem_singleton.mp new]
      omega

/-- The two CHECKs of the loop hold: no transaction is older than the one before, and the wrapper takes it. -/
theorem Invariant.collect {request : GetRequest} {trWrapper : TransactionWrapper} {transaction : Ref}
    (invariant : Invariant heap first state) (pc : state.pc = .collect request trWrapper)
    (done : state.collect heap request trWrapper transaction = some next) : Invariant heap first next := by
  have sound := invariant.pc
  unfold PcSound at sound
  rw [pc] at sound
  obtain ⟨low, high, wrapper⟩ := sound
  have settled : ¬ state.InTransferLoop := by
    rintro ⟨asked, w, inside⟩
    rw [pc] at inside
    cases inside
  have full : Invariant heap first (state.answer request (some trWrapper)) := by
    refine invariant.answer (invariant.ordered settled) (by simp [inHand, pc]) (fun w same => ?_)
      fun none => by cases none
    cases same
    exact wrapper
  unfold TransactionTransfer.collect at done
  split at done
  · next room =>
    split at done
    · next top =>
      split at done
      · cases done
        exact full
      · next other =>
        have same : (heap transaction).epoch = request.epoch := not_not.mp other
        have newest : ¬ (heap transaction).epoch < state.currentEpoch :=
          Nat.not_lt.mpr (invariant.current.queue transaction (isTop_spec top).1)
        have popped := invariant.pop pc room top same
        rw [if_neg newest, TransactionWrapper.pushTransaction_of_epoch (same.trans wrapper.epoch.symm)] at done
        dsimp only at done
        have sound := popped.pc.2.2
        split at done
        · next empty =>
          have ordered : ∀ r ∈ state.processedTransaction.erase transaction, ∀ b ∈ state.broadcastTransactions,
              (heap r).epoch ≤ (heap b).epoch := fun r left => by
            rw [empty] at left
            cases left
          split at done
          · cases done
            refine popped.answer ordered rfl (fun w is => ?_) fun none => by cases none
            cases is
            exact sound
          · cases done
            refine popped.goto rfl ⟨low, high, fun w is => ?_⟩ fun _ => ordered
            cases is
            exact sound
        · cases done
          exact popped
    · cases done
  · cases done
    exact full

theorem Invariant.advance {transaction : Ref} (invariant : Invariant heap first state)
    (done : state.advance heap transaction = some next) : Invariant heap first next := by
  have sound := invariant.pc
  unfold PcSound at sound
  unfold TransactionTransfer.advance at done
  cases pc : state.pc with
  | returned => simp [pc] at done
  | failed => simp [pc] at done
  | transfer request trWrapper =>
    rw [pc] at done sound
    dsimp only at done sound
    have hand : { state with pc := .transferLoop request trWrapper }.inHand = state.inHand := by
      cases trWrapper <;> simp [inHand, pc]
    have begun : Invariant heap first { state with pc := .transferLoop request trWrapper } :=
      invariant.goto hand sound fun settled => absurd ⟨request, trWrapper, rfl⟩ settled
    split at done
    · exact begun.take ⟨request, trWrapper, rfl⟩ done
    · cases done
      exact begun
  | transferLoop request trWrapper =>
    rw [pc] at done
    dsimp only at done
    split at done
    · next empty => exact invariant.transferred pc empty done
    · exact invariant.take ⟨request, trWrapper, pc⟩ done
  | collect request trWrapper =>
    rw [pc] at done
    exact invariant.collect pc done

theorem Invariant.step {move : TransferMove} (invariant : Invariant heap first state)
    (done : state.step heap first move = some next) : Invariant heap first next := by
  cases move with
  | enqueue transaction => exact invariant.enqueue done
  | getTransaction request transaction => exact invariant.getTransaction done
  | advance transaction => exact invariant.advance done
  | nextEpoch =>
    unfold TransactionTransfer.step at done
    dsimp only at done
    split at done
    · next turn =>
      cases done
      have bound := invariant.openEpoch
      have hand : { state with epoch := state.epoch + 1, complete := false }.inHand = state.inHand := rfl
      unfold TransactionTransfer.openEpoch at bound
      rw [if_pos turn.2] at bound
      refine { invariant with
        ordered := invariant.ordered, openEpoch := ⟨bound.bag, bound.queue, bound.later⟩,
        current := ⟨invariant.current.bag, invariant.current.queue, invariant.current.later⟩, pc := ?_,
        nulls := fun request given => ?_ }
      · unfold PcSound
        rw [turn.1]
        trivial
      · have closed := invariant.nulls request given
        exact ⟨⟨closed.1.bag, closed.1.queue, closed.1.later⟩, closed.2⟩
    · cases done

theorem start_invariant (heap : Heap) (first : Nat) : Invariant heap first (start first) where
  placed := .refl _
  ordered _ _ member := by cases member
  openEpoch := ⟨fun _ member => (by cases member), fun _ member => (by cases member), .inl (Nat.le_refl _)⟩
  current := ⟨fun _ member => (by cases member), fun _ member => (by cases member), .inl (Nat.zero_le _)⟩
  pc := trivial
  wrappers _ _ given := by cases given
  nulls _ given := by cases given

theorem run_invariant {moves : List TransferMove} (invariant : Invariant heap first state)
    (completed : state.run heap first moves = some next) : Invariant heap first next :=
  Runs.invariant _ (fun done invariant => invariant.step done) completed invariant

structure Frame (state next : TransactionTransfer) : Prop where
  arrived : next.arrived = state.arrived
  answers : state.answers ⊆ next.answers

theorem Frame.same (arrived : next.arrived = state.arrived) (answers : next.answers = state.answers) :
    Frame state next :=
  ⟨arrived, fun _ given => answers ▸ given⟩

theorem answer_frame (state : TransactionTransfer) (request : GetRequest) (trWrapper : Option TransactionWrapper) :
    Frame state (state.answer request trWrapper) :=
  ⟨rfl, List.subset_append_left _ _⟩

theorem take_frame {transaction : Ref} (taken : state.take transaction = some next) : Frame state next := by
  unfold take at taken
  split at taken
  · cases taken
    exact .same rfl rfl
  · cases taken

theorem transferred_frame {request : GetRequest} {trWrapper : Option TransactionWrapper} {transaction : Ref}
    (done : state.transferred heap request trWrapper transaction = some next) : Frame state next := by
  unfold transferred at done
  split at done
  · cases done
    exact .same rfl rfl
  · split at done
    · split at done
      · cases done
        exact answer_frame _ _ _
      · cases done
        exact .same rfl rfl
    · cases done

theorem collect_frame {request : GetRequest} {trWrapper : TransactionWrapper} {transaction : Ref}
    (done : state.collect heap request trWrapper transaction = some next) : Frame state next := by
  unfold collect at done
  split at done
  · split at done
    · split at done
      · cases done
        exact answer_frame _ _ _
      · split at done
        · cases done
          exact .same rfl rfl
        · dsimp only at done
          split at done
          · cases done
            exact .same rfl rfl
          · split at done
            · split at done
              · cases done
                exact ⟨rfl, List.subset_append_left _ _⟩
              · cases done
                exact .same rfl rfl
            · cases done
              exact .same rfl rfl
    · cases done
  · cases done
    exact answer_frame _ _ _

theorem advance_frame {transaction : Ref} (done : state.advance heap transaction = some next) :
    Frame state next := by
  unfold advance at done
  split at done
  · split at done
    · have moved := take_frame done
      exact ⟨moved.arrived, moved.answers⟩
    · cases done
      exact .same rfl rfl
  · split at done
    · exact transferred_frame done
    · exact take_frame done
  · exact collect_frame done
  · cases done

theorem getTransaction_frame {request : GetRequest} {transaction : Ref}
    (called : state.getTransaction heap request transaction = some next) : Frame state next := by
  unfold getTransaction at called
  split at called
  · split at called
    · cases called
      exact .same rfl rfl
    · split at called
      · split at called
        · cases called
          exact answer_frame _ _ _
        · cases called
          exact .same rfl rfl
      · cases called
  · cases called

def ofEpoch (heap : Heap) (epoch : Nat) (transactions : List Ref) : List Ref :=
  transactions.filter fun r => (heap r).epoch = epoch

/-- Once an epoch was answered with null, its arrivals are over, and the null stays on record. -/
theorem step_closed {move : TransferMove} (invariant : Invariant heap first state)
    (done : state.step heap first move = some next) {request : GetRequest} (null : (request, none) ∈ state.answers) :
    ofEpoch heap request.epoch next.arrived = ofEpoch heap request.epoch state.arrived ∧
      (request, none) ∈ next.answers := by
  cases move with
  | enqueue transaction =>
    have bound := (invariant.nulls request null).1.enqueue done
    change state.enqueue heap first transaction = some next at done
    unfold enqueue at done
    split at done
    · cases done
      have late : request.epoch + 1 ≤ (heap transaction).epoch := bound.bag transaction (by simp)
      have other : ¬ (heap transaction).epoch = request.epoch := by omega
      refine ⟨?_, null⟩
      simp [ofEpoch, other]
    · cases done
  | getTransaction asked transaction =>
    have frame := getTransaction_frame done
    exact ⟨congrArg _ frame.arrived, frame.answers null⟩
  | advance transaction =>
    have frame := advance_frame done
    exact ⟨congrArg _ frame.arrived, frame.answers null⟩
  | nextEpoch =>
    unfold step at done
    dsimp only at done
    split at done
    · cases done
      exact ⟨rfl, null⟩
    · cases done

theorem run_closed {moves : List TransferMove} (invariant : Invariant heap first state)
    (completed : state.run heap first moves = some next) {request : GetRequest}
    (null : (request, none) ∈ state.answers) :
    ofEpoch heap request.epoch next.arrived = ofEpoch heap request.epoch state.arrived ∧
      (request, none) ∈ next.answers := by
  induction moves generalizing state with
  | nil =>
    cases completed
    exact ⟨rfl, null⟩
  | cons move rest ih =>
    obtain ⟨middle, done, onward⟩ := Option.bind_eq_some_iff.mp completed
    obtain ⟨same, given⟩ := step_closed invariant done null
    obtain ⟨same', given'⟩ := ih (invariant.step done) onward given
    exact ⟨same'.trans same, given'⟩

theorem Invariant.delivered_closed (invariant : Invariant heap first state) {request : GetRequest}
    (null : (request, none) ∈ state.answers) :
    (ofEpoch heap request.epoch state.delivered).Perm (ofEpoch heap request.epoch state.arrived) := by
  obtain ⟨bound, clean⟩ := invariant.nulls request null
  have nothing (list : List Ref) (other : ∀ r ∈ list, (heap r).epoch ≠ request.epoch) :
      ofEpoch heap request.epoch list = [] := by
    apply List.filter_eq_nil_iff.mpr
    intro r member
    simpa using other r member
  have parts := invariant.placed.filter fun r => decide ((heap r).epoch = request.epoch)
  rw [List.filter_append, List.filter_append, List.filter_append] at parts
  have bag := nothing state.broadcastTransactions fun r member => by
    have low := bound.bag r member
    omega
  have queue := nothing state.processedTransaction fun r member => by
    have low := bound.queue r member
    omega
  have hand := nothing state.inHand clean
  unfold ofEpoch at bag queue hand ⊢
  rw [bag, queue, hand, List.nil_append, List.nil_append, List.nil_append] at parts
  exact parts.symm

end TransactionTransfer

open TransactionTransfer in
/-- The transactions come out once, in wrappers of the epoch and size asked for, and null closes an epoch. -/
theorem comm_delivers_in_epoch_order (heap : Heap) (first : Nat) {moves : List TransferMove}
    {state : TransactionTransfer} (completed : (start first).run heap first moves = some state) :
    (∀ request w, (request, some w) ∈ state.answers →
      w.size ≤ request.maxSize ∧ ∀ r ∈ w.transactionList, (heap r).epoch = request.epoch) ∧
    state.arrived.Perm
      (state.broadcastTransactions ++ state.processedTransaction ++ state.inHand ++ state.delivered) ∧
    (∀ request, (request, none) ∈ state.answers → ∀ more later, state.run heap first more = some later →
      ofEpoch heap request.epoch later.arrived = ofEpoch heap request.epoch state.arrived ∧
      (ofEpoch heap request.epoch state.delivered).Perm (ofEpoch heap request.epoch state.arrived) ∧
      (ofEpoch heap request.epoch later.delivered).Perm (ofEpoch heap request.epoch later.arrived)) ∧
    state.pc ≠ .failed := by
  have invariant := run_invariant (start_invariant heap first) completed
  refine ⟨fun request w given => ?_, invariant.placed, fun request null more later onward => ?_, fun failed => ?_⟩
  · have sound := invariant.wrappers request w given
    exact ⟨sound.size, sound.transactions⟩
  · obtain ⟨same, given⟩ := run_closed invariant onward null
    exact ⟨same, invariant.delivered_closed null, (run_invariant invariant onward).delivered_closed given⟩
  · have sound := invariant.pc
    unfold PcSound at sound
    rw [failed] at sound
    exact sound

def threeTransactions : Heap := fun r => { MockTransaction.new with epoch := if r < 3 then 1 else 2, tid := r }

def fetchEpochOne : List TransferMove :=
  [.enqueue 2, .enqueue 1, .getTransaction ⟨1, 5, 5⟩ 0, .advance 2, .advance 1, .advance 1, .advance 1, .advance 2,
    .enqueue 3, .advance 3, .advance 0, .advance 3, .getTransaction ⟨1, 5, 5⟩ 3, .nextEpoch]

open TransactionTransfer in
theorem comm_delivers_in_epoch_order_three :
    ∃ state, (start 1).run threeTransactions 1 fetchEpochOne = some state ∧
      state.answers = [(⟨1, 5, 5⟩, some ⟨1, [1, 2]⟩), (⟨1, 5, 5⟩, none)] ∧
      state.arrived.Perm
        (state.broadcastTransactions ++ state.processedTransaction ++ state.inHand ++ state.delivered) ∧
      state.pc ≠ .failed :=
  have completed := comm_delivers_in_epoch_order threeTransactions 1
    (show (start 1).run threeTransactions 1 fetchEpochOne = some _ from rfl)
  ⟨_, rfl, rfl, completed.2.1, completed.2.2.2⟩

end Blockchain
