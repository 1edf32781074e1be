import MyBlockchain.Common.BlockingQueueSteps

namespace Blockchain.BlockingConcurrentQueue

open ThreadSum (total total_update)

section Stuck

variable {Thread α : Type*} {maxSpins : Nat} {queue : BlockingConcurrentQueue Thread α} {thread : Thread}

/-- Between two calls, or in a wait without a timeout. -/
def Rests (queue : BlockingConcurrentQueue Thread α) (thread : Thread) : Prop :=
  queue.stage thread = .idle ∨
    ∃ call demand timeout_usecs wanted waits,
      queue.stage thread = .acquire call (.sleep demand timeout_usecs wanted waits) ∧ timeout_usecs < 0

theorem Rests.owns (rests : queue.Rests thread) : (queue.stage thread).owns = 0 ∧ (queue.stage thread).got = [] := by
  rcases rests with idle | ⟨_, _, _, _, _, asleep, _⟩
  · rw [idle]
    exact ⟨rfl, rfl⟩
  · rw [asleep]
    exact ⟨rfl, rfl⟩

theorem Rests.posting (rests : queue.Rests thread) : (queue.stage thread).sema.posting = 0 := by
  rcases rests with idle | ⟨_, _, _, _, _, asleep, _⟩
  · rw [idle]
    rfl
  · rw [asleep]
    rfl

variable [DecidableEq Thread]

/-- Nothing goes on unless a thread makes a new call. -/
def Stuck (maxSpins : Nat) (queue : BlockingConcurrentQueue Thread α) : Prop :=
  ∀ move after, queue.step maxSpins move = some after → ∃ thread call, move = .call thread call

theorem Stuck.blocks (stuck : Stuck maxSpins queue) (move : QueueMove Thread α)
    (other : ∀ thread call, move ≠ .call thread call) : queue.step maxSpins move = none := by
  by_contra possible
  obtain ⟨after, stepped⟩ := Option.ne_none_iff_exists'.mp possible
  obtain ⟨thread, call, same⟩ := stuck move after stepped
  exact other thread call same

theorem Stuck.own (stuck : Stuck maxSpins queue) {call : QueueCall α}
    {stage : LightweightSemaphore.Stage} (here : queue.stage thread = .acquire call stage)
    (choice : LightweightSemaphore.Choice) : LightweightSemaphore.step maxSpins stage choice queue.sema = none := by
  have blocked := stuck.blocks (.sema thread choice) fun _ _ same => by cases same
  simp only [step, here] at blocked
  exact Option.map_eq_none_iff.mp blocked

theorem stuck_of_rests (rests : ∀ thread, queue.Rests thread) (empty : queue.sema.sema = 0) :
    Stuck maxSpins queue := by
  intro move after stepped
  cases move with
  | call thread call => exact ⟨thread, call, rfl⟩
  | sema thread choice =>
    exfalso
    rcases rests thread with idle | ⟨call, demand, timeout_usecs, wanted, waits, asleep, long⟩
    · simp only [step, idle, reduceCtorEq] at stepped
    · have late : ¬ 0 < timeout_usecs := by omega
      cases choice <;>
        simp [step, asleep, LightweightSemaphore.step, empty, late] at stepped
  | refuse thread | put thread | take thread index | miss thread | next thread =>
    exfalso
    rcases rests thread with idle | ⟨_, _, _, _, _, asleep, _⟩
    · simp only [step, next, idle, reduceCtorEq] at stepped
    · simp only [step, next, asleep, reduceCtorEq] at stepped

end Stuck

variable {Thread α : Type*} [Fintype Thread] {maxSpins : Nat} {queue after : BlockingConcurrentQueue Thread α}
  {thread : Thread} {stage : QueueStage α} {moves : List (QueueMove Thread α)}

def hands (queue : BlockingConcurrentQueue Thread α) : Multiset α :=
  total (fun stage => (stage.got : Multiset α)) queue.stage

/-- Every item is a permit, of the semaphore or of a thread. -/
structure Sound (queue : BlockingConcurrentQueue Thread α) : Prop where
  semaphore : LightweightSemaphore.Sound queue.sema fun thread => (queue.stage thread).sema
  supply : queue.inner.length =
    LightweightSemaphore.available queue.sema (fun thread => (queue.stage thread).sema) +
      total QueueStage.owns queue.stage
  items : (queue.entered : Multiset α) = queue.inner + queue.hands + queue.delivered
  valid : ∀ thread, (queue.stage thread).Valid
  answers : ∀ answer ∈ queue.returned, answer.1.sema.Admits (.done answer.2.length)

theorem Sound.start : Sound (start : BlockingConcurrentQueue Thread α) where
  semaphore := LightweightSemaphore.Sound.start 0
  supply := by
    have waiting : total LightweightSemaphore.Stage.waiting (fun _ : Thread => .done 0) = 0 :=
      ThreadSum.total_const_zero fun _ => rfl
    have owns : total QueueStage.owns (fun _ : Thread => (.idle : QueueStage α)) = 0 :=
      ThreadSum.total_const_zero fun _ => rfl
    simp [BlockingConcurrentQueue.start, LightweightSemaphore.available, QueueStage.sema, waiting, owns]
  items := by
    have nothing : total (fun stage => (stage.got : Multiset α)) (fun _ : Thread => (.idle : QueueStage α)) = 0 :=
      ThreadSum.total_const_zero fun _ => rfl
    simp [BlockingConcurrentQueue.start, hands, delivered, nothing]
  valid _ := trivial
  answers _ member := by cases member

theorem Sound.sizeApprox_le (sound : Sound queue) : queue.sizeApprox ≤ queue.inner.length := by
  rw [sound.supply, sound.semaphore.available_eq, sizeApprox, LightweightSemaphore.availableApprox]
  split <;> omega

theorem Sound.rest_items (sound : Sound queue) (rest : ∀ thread, queue.Rests thread) :
    queue.entered.Perm (queue.inner ++ queue.delivered) := by
  have nothing : queue.hands = 0 := ThreadSum.total_const_zero fun thread => by rw [(rest thread).owns.2]; rfl
  have items := sound.items
  rwa [nothing, add_zero, Multiset.coe_add, Multiset.coe_eq_coe] at items

theorem Sound.rest_supply (sound : Sound queue) (rest : ∀ thread, queue.Rests thread) :
    queue.inner.length =
      LightweightSemaphore.available queue.sema (fun thread => (queue.stage thread).sema) := by
  have nothing : total QueueStage.owns queue.stage = 0 :=
    ThreadSum.total_const_zero fun thread => (rest thread).owns.1
  rw [sound.supply, nothing, Nat.add_zero]

variable [DecidableEq Thread]

theorem Sound.advance (sound : Sound queue) (advance : Advance queue thread after stage) : Sound after := by
  have waiting := total_update (fun stage : QueueStage α => stage.sema.waiting) queue.stage thread stage
  have posting := total_update (fun stage : QueueStage α => stage.sema.posting) queue.stage thread stage
  have owns := total_update QueueStage.owns queue.stage thread stage
  have got := total_update (fun stage : QueueStage α => (stage.got : Multiset α)) queue.stage thread stage
  have debt := advance.debt
  rw [← advance.set] at waiting posting owns got
  have semaphore : LightweightSemaphore.Sound after.sema fun thread => (after.stage thread).sema := by
    have before := sound.semaphore
    unfold LightweightSemaphore.Sound at before ⊢
    change total (fun stage : QueueStage α => stage.sema.waiting) after.stage =
      _ + total (fun stage : QueueStage α => stage.sema.posting) after.stage
    change total (fun stage : QueueStage α => stage.sema.waiting) queue.stage =
      _ + total (fun stage : QueueStage α => stage.sema.posting) queue.stage at before
    omega
  refine ⟨semaphore, ?_, ?_, ?_, ?_⟩
  · have here := sound.semaphore.available
    have there := semaphore.available
    have supply := advance.supply
    have before := sound.supply
    change (_ : Int) = _ + total (fun stage : QueueStage α => stage.sema.waiting) queue.stage at here
    change (_ : Int) = _ + total (fun stage : QueueStage α => stage.sema.waiting) after.stage at there
    omega
  · have items := advance.items
    rw [sound.items] at items
    have same : (after.entered : Multiset α) + (queue.inner + (queue.stage thread).got + queue.delivered) =
        after.inner + after.hands + after.delivered +
          (queue.inner + (queue.stage thread).got + queue.delivered) := by
      rw [items]
      calc (queue.inner + queue.hands + queue.delivered + (after.inner + stage.got + after.delivered) : Multiset α)
          = after.inner + after.delivered + queue.inner + queue.delivered + (queue.hands + stage.got) := by abel
        _ = after.inner + after.delivered + queue.inner + queue.delivered +
            (after.hands + (queue.stage thread).got) := by rw [hands, hands, got]
        _ = _ := by abel
    exact add_right_cancel same
  · intro other
    rw [advance.set]
    by_cases same : other = thread
    · subst same
      rw [Function.update_self]
      exact advance.valid
    · rw [Function.update_of_ne same]
      exact sound.valid other
  · intro answer member
    rcases advance.answers answer member with old | new
    · exact sound.answers answer old
    · exact new

theorem run_sound (ran : moves.foldlM (step maxSpins) start = some queue) : Sound queue := by
  refine Runs.invariant Sound (fun stepped before => ?_) ran Sound.start
  obtain ⟨thread, stage, advance⟩ := step_advance stepped before.valid
  exact before.advance advance

/-- The loop of a thread that has permits ends: there is an item for each permit, whatever the others do. -/
theorem Sound.supplies (sound : Sound queue) {call : QueueCall α} {permits : Nat} {got : List α}
    (here : queue.stage thread = .dequeue call permits got) : permits - got.length ≤ queue.inner.length := by
  have own := @ThreadSum.own_le_total _ _ _ QueueStage.owns queue.stage _ thread
  rw [here] at own
  rw [sound.supply]
  exact Nat.le_add_left_of_le own

theorem Sound.stuck_thread (sound : Sound queue) (stuck : Stuck maxSpins queue) (thread : Thread) :
    queue.Rests thread ∧ (queue.stage thread ≠ .idle → queue.sema.sema = 0) := by
  have valid := sound.valid thread
  have nexts := stuck.blocks (.next thread) fun _ _ same => by cases same
  cases here : queue.stage thread with
  | idle => exact ⟨.inl here, fun busy => absurd rfl busy⟩
  | enqueue call put =>
    rw [here] at valid
    have puts := stuck.blocks (.put thread) fun _ _ same => by cases same
    simp only [step, next, here, Option.map_eq_none_iff, List.getElem?_eq_none_iff] at puts nexts
    rw [if_pos (Nat.le_antisymm valid.2 puts)] at nexts
    cases nexts
  | acquire call stage =>
    rcases LightweightSemaphore.stuck_cases (stuck.own here) with ⟨result, rfl⟩ | ⟨empty, asleep⟩
    · simp only [step, next, here, reduceCtorEq] at nexts
    · obtain ⟨demand, timeout_usecs, wanted, waits, rfl, long⟩ := asleep
      exact ⟨.inr ⟨call, demand, timeout_usecs, wanted, waits, here, long⟩, fun _ => empty⟩
  | dequeue call permits got =>
    rw [here] at valid
    have supplied := sound.supplies here
    have takes := stuck.blocks (.take thread 0) fun _ _ same => by cases same
    simp only [step, next, here] at takes nexts
    by_cases full : got.length = permits
    · rw [if_pos full] at nexts
      cases nexts
    · have less : got.length < permits := Nat.lt_of_le_of_ne valid.1 full
      rw [if_pos less, Option.map_eq_none_iff, List.getElem?_eq_none_iff] at takes
      omega

/-- A thread that waits when nothing goes on has nothing to wait for in the queue. -/
theorem Sound.stuck_empty (sound : Sound queue) (stuck : Stuck maxSpins queue) (busy : queue.stage thread ≠ .idle) :
    queue.inner = [] := by
  have rest := fun thread => (sound.stuck_thread stuck thread).1
  have empty := (sound.stuck_thread stuck thread).2 busy
  have waits : (queue.stage thread).sema.waiting = 1 := by
    rcases rest thread with idle | ⟨_, _, _, _, _, asleep, _⟩
    · exact absurd idle busy
    · rw [asleep]
      rfl
  refine List.eq_nil_of_length_eq_zero ?_
  rw [sound.rest_supply rest]
  exact sound.semaphore.none_available waits empty fun thread => (rest thread).posting

/-- Every item that went in is in the queue or in the hands of one thread, or has been returned by one call. A call
returns no more than it may, and at least one if it waits as long as it takes. -/
theorem queue_delivers (ran : moves.foldlM (step maxSpins) start = some queue) :
    (queue.entered : Multiset α) = queue.inner + queue.hands + queue.delivered ∧
      ∀ call items, (call, items) ∈ queue.returned →
        items.length ≤ call.sema.max ∧ (call.sema.patient = true → items ≠ []) := by
  have sound := run_sound ran
  refine ⟨sound.items, fun call items member => ?_⟩
  obtain ⟨most, least⟩ := sound.answers _ member
  exact ⟨most, fun patient => List.ne_nil_of_length_pos (least patient)⟩

/-- A consumer falls asleep before the producer comes. -/
def sleeperMoves : List (QueueMove Bool Nat) :=
  [.call false (.wait_dequeue_bulk 3), .sema false .go, .sema false .go, .call true (.enqueue_bulk [7, 8]), .put true,
    .put true, .next true, .sema true .go, .sema true .go, .sema true .go, .next true, .sema false .go, .sema false .go,
    .sema false .go, .next false, .take false 1, .miss false, .take false 0, .next false]

theorem queue_delivers_sleeper :
    ∃ queue : BlockingConcurrentQueue Bool Nat, sleeperMoves.foldlM (step 0) start = some queue ∧
      queue.returned = [(.wait_dequeue_bulk 3, [8, 7])] ∧
      (queue.entered : Multiset Nat) = queue.inner + queue.hands + queue.delivered :=
  ⟨_, rfl, rfl, (@queue_delivers Bool Nat _ 0 _ sleeperMoves _ rfl).1⟩

/-- A thread that has permits finds an item for each in `inner`, whatever the others do, so that its loop ends; and there
are always as many items as the queue says it has. -/
theorem queue_supplies (ran : moves.foldlM (step maxSpins) start = some queue) :
    (∀ thread call permits got, queue.stage thread = .dequeue call permits got →
      permits - got.length ≤ queue.inner.length) ∧ queue.sizeApprox ≤ queue.inner.length :=
  ⟨fun _ _ _ _ here => (run_sound ran).supplies here, (run_sound ran).sizeApprox_le⟩

theorem queue_supplies_sleeper :
    ∃ queue : BlockingConcurrentQueue Bool Nat, (sleeperMoves.take 16).foldlM (step 0) start = some queue ∧
      queue.stage false = .dequeue (.wait_dequeue_bulk 3) 2 [8] ∧ 1 ≤ queue.inner.length :=
  ⟨_, rfl, rfl, (@queue_supplies Bool Nat _ 0 _ (sleeperMoves.take 16) _ rfl).1 false _ _ _ rfl⟩

/-- When nothing goes on without a new call, the threads are between two calls or in a wait without a timeout. If one
waits, the queue is empty and all items have been returned; if none does, `size_approx` is the number of items. -/
theorem queue_stuck (ran : moves.foldlM (step maxSpins) start = some queue) (stuck : Stuck maxSpins queue) :
    (∀ thread, queue.Rests thread) ∧ queue.entered.Perm (queue.inner ++ queue.delivered) ∧
      ((∃ thread, queue.stage thread ≠ .idle) → queue.inner = []) ∧
      ((∀ thread, queue.stage thread = .idle) → queue.sizeApprox = queue.inner.length) := by
  have sound := run_sound ran
  have rest := fun thread => (sound.stuck_thread stuck thread).1
  refine ⟨rest, sound.rest_items rest, ?_, fun all => ?_⟩
  · rintro ⟨thread, busy⟩
    exact sound.stuck_empty stuck busy
  · have waiting : total LightweightSemaphore.Stage.waiting (fun thread => (queue.stage thread).sema) = 0 :=
      ThreadSum.total_const_zero fun thread => by rw [all thread]; rfl
    have supply := sound.rest_supply rest
    have available := sound.semaphore.available
    rw [waiting] at available
    rw [sizeApprox, LightweightSemaphore.availableApprox]
    split <;> omega

theorem queue_stuck_sleeper :
    ∃ queue : BlockingConcurrentQueue Bool Nat, (sleeperMoves.take 3).foldlM (step 0) start = some queue ∧
      queue.sema.count = -1 ∧ queue.inner = [] := by
  have asleep : ∃ queue : BlockingConcurrentQueue Bool Nat,
      (sleeperMoves.take 3).foldlM (step 0) start = some queue ∧ queue.sema = ⟨-1, 0⟩ ∧ queue.stage true = .idle ∧
        queue.stage false = .acquire (.wait_dequeue_bulk 3) (.sleep (.many 3) (-1) (by decide) (by decide)) :=
    ⟨_, rfl, rfl, rfl, rfl⟩
  obtain ⟨queue, ran, memory, idle, asleep⟩ := asleep
  have stuck : Stuck 0 queue := by
    refine stuck_of_rests (Bool.forall_bool.mpr ⟨.inr ⟨_, _, _, _, _, asleep, by decide⟩, .inl idle⟩) ?_
    rw [memory]
  have empty := (queue_stuck ran stuck).2.2.1 ⟨false, by rw [asleep]; exact fun same => by cases same⟩
  exact ⟨queue, ran, congrArg LightweightSemaphore.count memory, empty⟩

end Blockchain.BlockingConcurrentQueue
