import Mathlib.Data.Fintype.Card
import Mathlib.Data.Finset.Card
import Mathlib.Logic.Function.Basic
import MyBlockchain.Library.Runs

namespace Blockchain

/-- Where a receiver thread is: at its transactions of an epoch, or in `await`: in the wait set of the condition
variable, out of it but not yet returned, or, as the last one, between the unlock and `notify_all`. -/
inductive ReceiverPc
  | receiving
  | waiting
  | notified
  | notifying
  deriving DecidableEq, Repr

/-- The receiver threads of a server, thread 0 for the local server and one for each other server, with the state of
the barrier they share. `broadcastTransactions` holds the epochs of the transactions put in. Ghosts: how often a thread
has called `wait` and how often it has come back. -/
structure Receivers (others : Nat) where
  epoch : Nat
  currentWaits : Nat
  pc : Fin (others + 1) → ReceiverPc
  called : Fin (others + 1) → Nat
  returned : Fin (others + 1) → Nat
  broadcastTransactions : List Nat
  failed : Bool

/-- `wake` is the return of a notified thread, `spurious` that of a thread that nobody notified. -/
inductive ReceiverMove (others : Nat)
  | enqueue (thread : Fin (others + 1))
  | await (thread : Fin (others + 1))
  | notifyAll (thread : Fin (others + 1))
  | wake (thread : Fin (others + 1))
  | spurious (thread : Fin (others + 1))

namespace Receivers

variable {others : Nat} (first : Nat)

def start : Receivers others :=
  { epoch := first, currentWaits := 0, pc := fun _ => .receiving, called := fun _ => 0, returned := fun _ => 0,
    broadcastTransactions := [], failed := false }

/-- The messages of a server come in the order of their epochs, one between two calls of `wait`: the CHECK compares
the epoch of the message with the shared one. -/
def enqueue (receivers : Receivers others) (thread : Fin (others + 1)) : Receivers others :=
  if first + receivers.returned thread ≠ receivers.epoch then { receivers with failed := true }
  else { receivers with
    broadcastTransactions := receivers.broadcastTransactions ++ [first + receivers.returned thread] }

/-- `CyclicBarrier::await` up to its `notify_all` or its `cv.wait`, under the lock. -/
def await (receivers : Receivers others) (thread : Fin (others + 1)) : Receivers others :=
  let called := Function.update receivers.called thread (receivers.called thread + 1)
  let currentWaits :=
    if receivers.currentWaits < others + 1 then receivers.currentWaits + 1 else receivers.currentWaits
  if others + 1 ≤ currentWaits then
    { receivers with
      epoch := receivers.epoch + 1, currentWaits := 0, called,
      pc := Function.update receivers.pc thread .notifying }
  else { receivers with currentWaits, called, pc := Function.update receivers.pc thread .waiting }

def return_ (receivers : Receivers others) (thread : Fin (others + 1)) : Receivers others :=
  { receivers with
    pc := Function.update receivers.pc thread .receiving
    returned := Function.update receivers.returned thread (receivers.returned thread + 1) }

def notifyAll (receivers : Receivers others) : Receivers others :=
  { receivers with pc := fun thread => if receivers.pc thread = .waiting then .notified else receivers.pc thread }

def step (receivers : Receivers others) : ReceiverMove others → Option (Receivers others)
  | .enqueue thread => if receivers.pc thread = .receiving then some (receivers.enqueue first thread) else none
  | .await thread => if receivers.pc thread = .receiving then some (receivers.await thread) else none
  | .notifyAll thread =>
    if receivers.pc thread = .notifying then some (receivers.notifyAll.return_ thread) else none
  | .wake thread => if receivers.pc thread = .notified then some (receivers.return_ thread) else none
  -- there is no loop around `cv.wait`
  | .spurious thread => if receivers.pc thread = .waiting then some (receivers.return_ thread) else none

def run (receivers : Receivers others) (moves : List (ReceiverMove others)) : Option (Receivers others) :=
  moves.foldlM (step first) receivers

/-- Nobody is past a round that somebody has not called, the epoch counts the rounds that all have called, threads
with transactions to enqueue have them of one epoch, and the transactions are in the order of the epochs. -/
structure Separated (receivers : Receivers others) : Prop where
  together : ∀ t u, receivers.returned t ≤ receivers.called u
  counted : (∀ t, receivers.epoch ≤ first + receivers.called t) ∧ ∃ t, receivers.epoch = first + receivers.called t
  sameEpoch : ∀ t u, receivers.pc t = .receiving → receivers.pc u = .receiving →
    receivers.returned t = receivers.returned u
  ordered : receivers.broadcastTransactions.Pairwise (· ≤ ·)
  checked : receivers.failed = false

def InRound (receivers : Receivers others) (t : Fin (others + 1)) : Prop :=
  match receivers.pc t with
  | .receiving => first + receivers.called t = receivers.epoch ∧ receivers.returned t = receivers.called t
  | .waiting => receivers.called t = receivers.returned t + 1
  | .notified | .notifying =>
    first + receivers.called t = receivers.epoch ∧ receivers.called t = receivers.returned t + 1

/-- While one thread is about to notify, all others wait for it; else those that wait wait for the round that the
counter counts. -/
structure Invariant (receivers : Receivers others) : Prop where
  inRound : ∀ t, receivers.InRound first t
  opening : ∀ t, receivers.pc t = .notifying → receivers.currentWaits = 0 ∧
    ∀ u, u ≠ t → receivers.pc u = .waiting ∧ first + receivers.called u = receivers.epoch
  gathering : (∀ t, receivers.pc t ≠ .notifying) →
    receivers.currentWaits = (Finset.univ.filter fun t => receivers.pc t = .waiting).card ∧
    receivers.currentWaits ≤ others ∧
    ∀ t, receivers.pc t = .waiting → first + receivers.called t = receivers.epoch + 1
  ordered : receivers.broadcastTransactions.Pairwise (· ≤ ·)
  past : ∀ e ∈ receivers.broadcastTransactions, e ≤ receivers.epoch
  checked : receivers.failed = false

variable {first} {receivers next : Receivers others} {thread : Fin (others + 1)}

theorem start_invariant (first : Nat) : Invariant first (start first : Receivers others) where
  inRound t := ⟨rfl, rfl⟩
  opening t pc := by cases pc
  gathering _ := by
    refine ⟨?_, Nat.zero_le _, fun t pc => by cases pc⟩
    symm
    apply Finset.card_eq_zero.mpr
    exact Finset.filter_false_of_mem fun t _ pc => by cases pc
  ordered := .nil
  past _ member := by cases member
  checked := rfl

theorem Invariant.quiet (invariant : Invariant first receivers) (pc : receivers.pc thread ≠ .notifying)
    (awake : receivers.pc thread ≠ .waiting) (t : Fin (others + 1)) : receivers.pc t ≠ .notifying := by
  intro notifying
  by_cases same : thread = t
  · exact pc (same ▸ notifying)
  · exact awake ((invariant.opening t notifying).2 thread same).1

theorem Invariant.enqueue (invariant : Invariant first receivers) (pc : receivers.pc thread = .receiving) :
    Invariant first (receivers.enqueue first thread) := by
  have round := invariant.inRound thread
  unfold InRound at round
  rw [pc] at round
  have now : first + receivers.returned thread = receivers.epoch := by
    rw [round.2]
    exact round.1
  unfold Receivers.enqueue
  rw [if_neg (not_not.mpr now)]
  refine { invariant with ordered := ?_, past := ?_ }
  · refine List.pairwise_append.mpr ⟨invariant.ordered, List.pairwise_singleton _ _, fun e old f new => ?_⟩
    rw [List.mem_singleton.mp new, now]
    exact invariant.past e old
  · intro e member
    rcases List.mem_append.mp member with old | new
    · exact invariant.past e old
    · rw [List.mem_singleton.mp new]
      exact Nat.le_of_eq now

theorem Invariant.all_waiting (invariant : Invariant first receivers) (pc : receivers.pc thread = .receiving)
    (last : receivers.currentWaits = others) (u : Fin (others + 1)) (other : u ≠ thread) :
    receivers.pc u = .waiting := by
  have quiet := invariant.quiet (by rw [pc]; decide) (by rw [pc]; decide)
  obtain ⟨count, -, -⟩ := invariant.gathering quiet
  have inside : (Finset.univ.filter fun t => receivers.pc t = .waiting) ⊆ Finset.univ.erase thread := by
    intro t member
    have waiting := (Finset.mem_filter.mp member).2
    refine Finset.mem_erase.mpr ⟨?_, Finset.mem_univ t⟩
    rintro rfl
    rw [pc] at waiting
    cases waiting
  have same := Finset.eq_of_subset_of_card_le inside (by
    rw [← count, last, Finset.card_erase_of_mem (Finset.mem_univ thread), Finset.card_univ, Fintype.card_fin]
    omega)
  have member : u ∈ Finset.univ.erase thread := Finset.mem_erase.mpr ⟨other, Finset.mem_univ u⟩
  rw [← same] at member
  exact (Finset.mem_filter.mp member).2

theorem card_waiting {pc : Fin (others + 1) → ReceiverPc} (awake : pc thread ≠ .waiting) :
    (Finset.univ.filter fun t => Function.update pc thread .waiting t = .waiting).card =
      (Finset.univ.filter fun t => pc t = .waiting).card + 1 := by
  have grown : (Finset.univ.filter fun t => Function.update pc thread .waiting t = .waiting) =
      insert thread (Finset.univ.filter fun t => pc t = .waiting) := by
    ext t
    by_cases same : t = thread
    · simp [same]
    · simp [same]
  rw [grown, Finset.card_insert_of_notMem (by simp [awake])]

theorem Invariant.opens (invariant : Invariant first receivers) (pc : receivers.pc thread = .receiving)
    (full : receivers.currentWaits = others) :
    Invariant first { receivers with
      epoch := receivers.epoch + 1
      currentWaits := 0
      pc := Function.update receivers.pc thread .notifying
      called := Function.update receivers.called thread (receivers.called thread + 1) } := by
  have round := invariant.inRound thread
  unfold InRound at round
  rw [pc] at round
  have quiet := invariant.quiet (by rw [pc]; decide) (by rw [pc]; decide)
  obtain ⟨-, -, gathered⟩ := invariant.gathering quiet
  have waiting := invariant.all_waiting pc full
  refine { invariant with
    inRound := ?inRound, opening := ?opening, gathering := ?gathering, past := ?past }
  case inRound =>
    intro t
    unfold InRound
    by_cases same : t = thread
    · subst same
      simp only [Function.update_self]
      omega
    · have old := invariant.inRound t
      unfold InRound at old
      rw [waiting t same] at old
      simp only [Function.update_of_ne same, waiting t same]
      exact old
  case opening =>
    intro t notifying
    refine ⟨rfl, fun u other => ?_⟩
    have same : t = thread := by
      by_contra different
      dsimp only at notifying
      rw [Function.update_of_ne different] at notifying
      exact quiet t notifying
    rw [same] at other
    have gather := gathered u (waiting u other)
    simp only [Function.update_of_ne other, waiting u other, true_and]
    omega
  case gathering =>
    exact fun none => absurd (Function.update_self thread ReceiverPc.notifying receivers.pc) (none thread)
  case past => exact fun e member => Nat.le_succ_of_le (invariant.past e member)

theorem Invariant.waits (invariant : Invariant first receivers) (pc : receivers.pc thread = .receiving)
    (room : receivers.currentWaits + 1 ≤ others) :
    Invariant first { receivers with
      currentWaits := receivers.currentWaits + 1
      pc := Function.update receivers.pc thread .waiting
      called := Function.update receivers.called thread (receivers.called thread + 1) } := by
  have round := invariant.inRound thread
  unfold InRound at round
  rw [pc] at round
  have quiet := invariant.quiet (by rw [pc]; decide) (by rw [pc]; decide)
  obtain ⟨count, -, gathered⟩ := invariant.gathering quiet
  refine { invariant with inRound := ?inRound, opening := ?opening, gathering := ?gathering }
  case inRound =>
    intro t
    unfold InRound
    by_cases same : t = thread
    · subst same
      simp only [Function.update_self]
      omega
    · have old := invariant.inRound t
      unfold InRound at old
      simp only [Function.update_of_ne same]
      exact old
  case opening =>
    intro t notifying
    by_cases same : t = thread
    · subst same
      simp at notifying
    · dsimp only at notifying
      rw [Function.update_of_ne same] at notifying
      exact absurd notifying (quiet t)
  case gathering =>
    intro none
    refine ⟨?_, room, fun t waiting => ?_⟩
    · show receivers.currentWaits + 1 = _
      rw [card_waiting (by rw [pc]; decide), count]
    · by_cases same : t = thread
      · subst same
        simp only [Function.update_self]
        omega
      · dsimp only at waiting ⊢
        rw [Function.update_of_ne same] at waiting ⊢
        exact gathered t waiting

theorem Invariant.await (invariant : Invariant first receivers) (pc : receivers.pc thread = .receiving) :
    Invariant first (receivers.await thread) := by
  have quiet := invariant.quiet (by rw [pc]; decide) (by rw [pc]; decide)
  obtain ⟨-, limit, -⟩ := invariant.gathering quiet
  unfold Receivers.await
  rw [if_pos (Nat.lt_succ_of_le limit)]
  dsimp only
  split
  · next full => exact invariant.opens pc (by omega)
  · next open_ => exact invariant.waits pc (by omega)

theorem Invariant.notifyAll (invariant : Invariant first receivers) (pc : receivers.pc thread = .notifying) :
    Invariant first (receivers.notifyAll.return_ thread) := by
  obtain ⟨zero, waiting⟩ := invariant.opening thread pc
  have round := invariant.inRound thread
  unfold InRound at round
  rw [pc] at round
  have after (t : Fin (others + 1)) (other : t ≠ thread) : (receivers.notifyAll.return_ thread).pc t = .notified := by
    show Function.update (receivers.notifyAll).pc thread .receiving t = _
    rw [Function.update_of_ne other]
    simp [Receivers.notifyAll, (waiting t other).1]
  have back : (receivers.notifyAll.return_ thread).pc thread = .receiving := Function.update_self _ _ _
  refine { invariant with inRound := fun t => ?_, opening := fun t notifying => ?_,
                          gathering := fun _ => ⟨?_, ?_, fun t still => ?_⟩ }
  · unfold InRound
    by_cases same : t = thread
    · subst same
      rw [back]
      have up : (receivers.notifyAll.return_ t).returned t = receivers.returned t + 1 := Function.update_self _ _ _
      exact ⟨round.1, by rw [up]; exact round.2.symm⟩
    · rw [after t same]
      have old := invariant.inRound t
      unfold InRound at old
      rw [(waiting t same).1] at old
      have keep : (receivers.notifyAll.return_ thread).returned t = receivers.returned t :=
        Function.update_of_ne same _ _
      exact ⟨(waiting t same).2, by rw [keep]; exact old⟩
  · by_cases same : t = thread
    · rw [same, back] at notifying
      cases notifying
    · rw [after t same] at notifying
      cases notifying
  · show receivers.currentWaits = _
    rw [zero]
    symm
    apply Finset.card_eq_zero.mpr
    refine Finset.filter_false_of_mem fun t _ still => ?_
    by_cases same : t = thread
    · rw [same, back] at still
      cases still
    · rw [after t same] at still
      cases still
  · show receivers.currentWaits ≤ others
    omega
  · by_cases same : t = thread
    · rw [same, back] at still
      cases still
    · rw [after t same] at still
      cases still

theorem Invariant.wake (invariant : Invariant first receivers) (pc : receivers.pc thread = .notified) :
    Invariant first (receivers.return_ thread) := by
  have round := invariant.inRound thread
  unfold InRound at round
  rw [pc] at round
  have quiet := invariant.quiet (by rw [pc]; decide) (by rw [pc]; decide)
  obtain ⟨count, limit, gathered⟩ := invariant.gathering quiet
  have back : (receivers.return_ thread).pc thread = .receiving := Function.update_self _ _ _
  have keep (t : Fin (others + 1)) (other : t ≠ thread) : (receivers.return_ thread).pc t = receivers.pc t :=
    Function.update_of_ne other _ _
  have still (t : Fin (others + 1)) : (receivers.return_ thread).pc t = .waiting ↔ receivers.pc t = .waiting := by
    by_cases same : t = thread
    · subst same
      rw [back, pc]
      exact iff_of_false (by decide) (by decide)
    · rw [keep t same]
  refine { invariant with inRound := fun t => ?_, opening := fun t notifying => ?_,
                          gathering := fun _ => ⟨?_, limit, fun t waiting => ?_⟩ }
  · unfold InRound
    by_cases same : t = thread
    · subst same
      rw [back]
      have up : (receivers.return_ t).returned t = receivers.returned t + 1 := Function.update_self _ _ _
      exact ⟨round.1, by rw [up]; exact round.2.symm⟩
    · rw [keep t same]
      have old := invariant.inRound t
      unfold InRound at old
      have same' : (receivers.return_ thread).returned t = receivers.returned t := Function.update_of_ne same _ _
      rw [same']
      exact old
  · by_cases same : t = thread
    · rw [same, back] at notifying
      cases notifying
    · rw [keep t same] at notifying
      exact absurd notifying (quiet t)
  · show receivers.currentWaits = _
    rw [count]
    simp only [still]
  · exact gathered t ((still t).mp waiting)

theorem Invariant.step {move : ReceiverMove others} (invariant : Invariant first receivers)
    (woken : ∀ thread, move ≠ .spurious thread) (done : receivers.step first move = some next) :
    Invariant first next := by
  cases move with
  | enqueue thread =>
    obtain ⟨pc, same⟩ := Option.ite_none_right_eq_some.mp done
    cases same
    exact invariant.enqueue pc
  | await thread =>
    obtain ⟨pc, same⟩ := Option.ite_none_right_eq_some.mp done
    cases same
    exact invariant.await pc
  | notifyAll thread =>
    obtain ⟨pc, same⟩ := Option.ite_none_right_eq_some.mp done
    cases same
    exact invariant.notifyAll pc
  | wake thread =>
    obtain ⟨pc, same⟩ := Option.ite_none_right_eq_some.mp done
    cases same
    exact invariant.wake pc
  | spurious thread => exact absurd rfl (woken thread)

theorem run_invariant {moves : List (ReceiverMove others)} (invariant : Invariant first receivers)
    (woken : ∀ thread, .spurious thread ∉ moves) (completed : receivers.run first moves = some next) :
    Invariant first next := by
  have along : Runs.Along (Receivers.step first) (fun _ move => ∀ thread, move ≠ .spurious thread) receivers
      moves := by
    apply Runs.along_of_forall
    rintro move member _ thread rfl
    exact woken thread member
  exact Runs.invariant_along _ (fun done woken invariant => invariant.step woken done) completed along invariant

theorem Invariant.bounds (invariant : Invariant first receivers) (t : Fin (others + 1)) :
    first + receivers.returned t ≤ receivers.epoch ∧ receivers.epoch ≤ first + receivers.called t := by
  have round := invariant.inRound t
  unfold InRound at round
  cases pc : receivers.pc t with
  | receiving =>
    rw [pc] at round
    dsimp only at round
    omega
  | waiting =>
    rw [pc] at round
    dsimp only at round
    by_cases opening : ∃ u, receivers.pc u = .notifying
    · obtain ⟨u, notifying⟩ := opening
      have other : t ≠ u := by
        rintro rfl
        rw [pc] at notifying
        cases notifying
      have open_ := ((invariant.opening u notifying).2 t other).2
      omega
    · have gather := (invariant.gathering fun u notifying => opening ⟨u, notifying⟩).2.2 t pc
      omega
  | notified =>
    rw [pc] at round
    dsimp only at round
    omega
  | notifying =>
    rw [pc] at round
    dsimp only at round
    omega

theorem Invariant.separated (invariant : Invariant first receivers) : Separated first receivers where
  together t u := by
    have low := (invariant.bounds t).1
    have high := (invariant.bounds u).2
    omega
  counted := by
    refine ⟨fun t => (invariant.bounds t).2, ?_⟩
    have behind : ∃ t, receivers.pc t ≠ .waiting := by
      by_contra none
      have all : ∀ t, receivers.pc t = .waiting := fun t => not_not.mp fun awake => none ⟨t, awake⟩
      obtain ⟨count, limit, -⟩ := invariant.gathering fun t notifying => by
        rw [all t] at notifying
        cases notifying
      rw [Finset.filter_true_of_mem fun t _ => all t, Finset.card_univ, Fintype.card_fin] at count
      omega
    obtain ⟨t, awake⟩ := behind
    have round := invariant.inRound t
    unfold InRound at round
    refine ⟨t, ?_⟩
    cases pc : receivers.pc t with
    | waiting => exact absurd pc awake
    | receiving =>
      rw [pc] at round
      exact round.1.symm
    | notified =>
      rw [pc] at round
      exact round.1.symm
    | notifying =>
      rw [pc] at round
      exact round.1.symm
  sameEpoch t u one two := by
    have first := invariant.inRound t
    have second := invariant.inRound u
    unfold InRound at first second
    rw [one] at first
    rw [two] at second
    dsimp only at first second
    omega
  ordered := invariant.ordered
  checked := invariant.checked

end Receivers

open Receivers in
/-- Without spurious returns the rounds of the barrier separate the epochs. -/
theorem barrier_separates_epochs {others : Nat} (first : Nat) {moves : List (ReceiverMove others)}
    (woken : ∀ thread, .spurious thread ∉ moves) {receivers : Receivers others}
    (completed : (start first).run first moves = some receivers) : Separated first receivers :=
  (run_invariant (start_invariant first) woken completed).separated

theorem barrier_separates_epochs_round :
    ∃ receivers, (Receivers.start 1 : Receivers 1).run 1 [.enqueue 0, .await 0, .enqueue 1, .await 1, .notifyAll 1,
        .enqueue 1, .wake 0] = some receivers ∧
      receivers.epoch = 2 ∧ Receivers.Separated 1 receivers :=
  ⟨_, rfl, rfl, barrier_separates_epochs 1 (by simp)
    (show (Receivers.start 1 : Receivers 1).run 1 [.enqueue 0, .await 0, .enqueue 1, .await 1, .notifyAll 1,
      .enqueue 1, .wake 0] = some _ from rfl)⟩

theorem spurious_return_passes_barrier :
    ∃ receivers, (Receivers.start 1 : Receivers 1).run 1 [.await 0, .spurious 0] = some receivers ∧
      receivers.returned 0 = 1 ∧ receivers.called 1 = 0 ∧ ¬ Receivers.Separated 1 receivers :=
  ⟨_, rfl, rfl, rfl, fun separated => absurd (separated.together 0 1) (by decide)⟩

end Blockchain
