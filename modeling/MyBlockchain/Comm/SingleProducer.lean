import Mathlib.Data.Fintype.Basic
import MyBlockchain.Common.BlockingQueueDelivery

namespace Blockchain

/-- The two threads of `pendingTransactions` and `pendingTransactionsProof`: one puts in, one takes out. -/
inductive Party
  | collector
  | receiver
  deriving DecidableEq, Repr

instance : Fintype Party where
  elems := {.collector, .receiver}
  complete party := by cases party <;> decide

theorem Party.total_eq {Local M : Type*} [AddCommMonoid M] (weight : Local → M) (locals : Party → Local) :
    ThreadSum.total weight locals = weight (locals .collector) + weight (locals .receiver) :=
  Finset.sum_pair (by decide)

namespace QueueStage

variable {α : Type*}

def pending : QueueStage α → List α
  | .enqueue call put => call.items.drop put
  | _ => []

@[simp] theorem pending_idle : (idle : QueueStage α).pending = [] := rfl

def call : QueueStage α → Option (QueueCall α)
  | .idle => none
  | .enqueue call _ | .acquire call _ | .dequeue call _ _ => some call

theorem idle_of_call {stage : QueueStage α} (none : stage.call = none) : stage = .idle := by
  cases stage with
  | idle => rfl
  | enqueue | acquire | dequeue => cases none

def Sends : QueueStage α → Prop
  | .idle | .enqueue (.enqueue _) _ | .acquire (.enqueue _) (.add 1) | .acquire (.enqueue _) (.post _)
  | .acquire (.enqueue _) (.done 0) => True
  | _ => False

def Takes : QueueStage α → Prop
  | .idle => True
  | .enqueue .. => False
  | .acquire call _ | .dequeue call _ _ => call.enqueues = false

theorem Sends.waiting {stage : QueueStage α} (sends : stage.Sends) : stage.sema.waiting = 0 := by
  unfold Sends at sends
  split at sends <;> first | rfl | cases sends

theorem Sends.enqueues {call : QueueCall α} {own : LightweightSemaphore.Stage}
    (sends : (acquire call own).Sends) : call.enqueues = true := by
  cases call with
  | enqueue item => rfl
  | _ => cases sends

theorem Sends.signals {call : QueueCall α} {own next : LightweightSemaphore.Stage}
    {choice : LightweightSemaphore.Choice} {sema after : LightweightSemaphore} {maxSpins : Nat}
    (sends : (acquire call own).Sends)
    (went : LightweightSemaphore.step maxSpins own choice sema = some (after, next)) :
    (acquire call next).Sends ∧ next.status.permits ≤ own.status.permits ∧ sema.count ≤ after.count := by
  unfold Sends at sends
  split at sends
  · rename_i same; cases same
  · rename_i same; cases same
  · rename_i same
    cases same
    cases choice <;> simp only [LightweightSemaphore.step, reduceCtorEq] at went
    cases went
    refine ⟨?_, ?_, by simp⟩
    · split <;> split <;> trivial
    · split <;> split <;> exact Nat.zero_le _
  · rename_i same
    cases same
    rename_i left
    cases left with
    | zero =>
      cases choice <;> simp only [LightweightSemaphore.step, reduceCtorEq] at went
      cases went
      exact ⟨trivial, Nat.zero_le _, Int.le_refl _⟩
    | succ left =>
      cases choice <;> simp only [LightweightSemaphore.step, reduceCtorEq] at went
      cases went
      exact ⟨trivial, Nat.zero_le _, Int.le_refl _⟩
  · rename_i same
    cases same
    cases choice <;> simp only [LightweightSemaphore.step, reduceCtorEq] at went
  · cases sends

end QueueStage

namespace QueueMove

/-- The steps inside a call, without an `enqueue` that gets no memory. What one producer puts in comes out in its
order. -/
def inOrder {Thread α : Type*} : QueueMove Thread α → Bool
  | .put _ | .sema .. | .take _ 0 | .miss _ | .next _ => true
  | .call .. | .refuse _ | .take .. => false

end QueueMove

namespace BlockingConcurrentQueue

section Inside

variable {Thread α : Type*} [DecidableEq Thread]

inductive Inside (maxSpins : Nat) (queue : BlockingConcurrentQueue Thread α) (thread : Thread) :
    BlockingConcurrentQueue Thread α → Prop
  | put (call : QueueCall α) (put : Nat) (item : α) (here : queue.stage thread = .enqueue call put)
      (found : call.items[put]? = some item) :
      Inside maxSpins queue thread { queue.set thread (.enqueue call (put + 1)) with
        inner := queue.inner ++ [item], entered := queue.entered ++ [item] }
  | signal (call : QueueCall α) (here : queue.stage thread = .enqueue call call.items.length) :
      Inside maxSpins queue thread (queue.set thread (.acquire call call.sema.begin))
  | sema (call : QueueCall α) (own next : LightweightSemaphore.Stage) (choice : LightweightSemaphore.Choice)
      (sema : LightweightSemaphore) (here : queue.stage thread = .acquire call own)
      (went : LightweightSemaphore.step maxSpins own choice queue.sema = some (sema, next)) :
      Inside maxSpins queue thread { queue.set thread (.acquire call next) with sema }
  | return (call : QueueCall α) (result : Nat) (here : queue.stage thread = .acquire call (.done result))
      (enqueues : call.enqueues = true) : Inside maxSpins queue thread (queue.set thread .idle)
  | again (call : QueueCall α) (here : queue.stage thread = .acquire call (.done 0))
      (dequeues : call.enqueues = false) (repeats : call.repeats = true) :
      Inside maxSpins queue thread (queue.set thread (.acquire call call.sema.begin))
  | loop (call : QueueCall α) (result : Nat) (here : queue.stage thread = .acquire call (.done result))
      (dequeues : call.enqueues = false) : Inside maxSpins queue thread (queue.set thread (.dequeue call result []))
  | take (call : QueueCall α) (permits : Nat) (got : List α) (item : α) (rest : List α)
      (here : queue.stage thread = .dequeue call permits got) (less : got.length < permits)
      (first : queue.inner = item :: rest) :
      Inside maxSpins queue thread { queue.set thread (.dequeue call permits (got ++ [item])) with inner := rest }
  | miss (call : QueueCall α) (permits : Nat) (got : List α) (here : queue.stage thread = .dequeue call permits got) :
      Inside maxSpins queue thread queue
  | answer (call : QueueCall α) (got : List α) (here : queue.stage thread = .dequeue call got.length got) :
      Inside maxSpins queue thread { queue.set thread .idle with returned := queue.returned ++ [(call, got)] }

variable {maxSpins : Nat} {queue after : BlockingConcurrentQueue Thread α} {thread : Thread} {move : QueueMove Thread α}

theorem next_inside (stepped : queue.next thread = some after) : Inside maxSpins queue thread after := by
  unfold next at stepped
  split at stepped
  · cases stepped
  · rename_i call put here
    split at stepped <;> cases stepped
    rename_i all
    exact .signal call (all ▸ here)
  · rename_i call result here
    cases stepped
    cases kind : call.enqueues with
    | true => exact .return call result here kind
    | false =>
      by_cases again : call.repeats = true ∧ result = 0
      · obtain ⟨repeats, rfl⟩ := again
        rw [if_neg (by simp), if_pos ⟨repeats, rfl⟩]
        exact .again call here kind repeats
      · rw [if_neg (by simp), if_neg again]
        exact .loop call result here kind
  · cases stepped
  · rename_i call permits got here
    split at stepped <;> cases stepped
    rename_i full
    exact .answer call got (full ▸ here)

theorem step_inside (stepped : queue.step maxSpins move = some after) (inOrder : move.inOrder = true) :
    ∃ thread, Inside maxSpins queue thread after := by
  cases move with
  | call | refuse => cases inOrder
  | put thread =>
    simp only [step] at stepped
    split at stepped
    · rename_i call put here
      obtain ⟨item, found, rfl⟩ := Option.map_eq_some_iff.mp stepped
      exact ⟨thread, .put call put item here found⟩
    · cases stepped
  | sema thread choice =>
    simp only [step] at stepped
    split at stepped
    · rename_i call own here
      obtain ⟨⟨sema, next⟩, went, rfl⟩ := Option.map_eq_some_iff.mp stepped
      exact ⟨thread, .sema call own next choice sema here went⟩
    · cases stepped
  | take thread index =>
    cases index with
    | succ index => cases inOrder
    | zero =>
      simp only [step] at stepped
      split at stepped
      · rename_i call permits got here
        split at stepped
        · rename_i less
          obtain ⟨item, found, rfl⟩ := Option.map_eq_some_iff.mp stepped
          obtain ⟨rest, first⟩ := List.head?_eq_some_iff.mp (List.head?_eq_getElem?.trans found)
          refine ⟨thread, ?_⟩
          rw [first]
          exact .take call permits got item rest here less first
        · cases stepped
      · cases stepped
  | miss thread =>
    simp only [step] at stepped
    split at stepped
    · rename_i call permits got here
      split at stepped <;> cases stepped
      exact ⟨thread, .miss call permits got here⟩
    · cases stepped
  | next thread => exact ⟨thread, next_inside stepped⟩

/-- A queue in which nothing goes on in order is stuck: a thread that can take any item can take the first. -/
theorem stuck_of_inOrder (none : ∀ move : QueueMove Thread α, move.inOrder = true → queue.step maxSpins move = none) :
    Stuck maxSpins queue := by
  intro move after stepped
  cases move with
  | call thread call => exact ⟨thread, call, rfl⟩
  | put | sema | miss | next => rw [none _ rfl] at stepped; cases stepped
  | refuse thread =>
    exfalso
    simp only [step] at stepped
    split at stepped <;> cases stepped
    rename_i call here
    have puts := none (.put thread) rfl
    have nexts := none (.next thread) rfl
    simp only [step, next, here] at puts nexts
    cases items : call.items with
    | nil =>
      rw [items] at nexts
      cases nexts
    | cons item rest =>
      rw [items] at puts
      cases puts
  | take thread index =>
    exfalso
    have takes := none (.take thread 0) rfl
    simp only [step] at stepped takes
    split at stepped
    · rename_i call permits got here
      rw [here] at takes
      dsimp only at takes
      split at stepped
      · rename_i less
        obtain ⟨item, found, -⟩ := Option.map_eq_some_iff.mp stepped
        rw [if_pos less, Option.map_eq_none_iff, List.getElem?_eq_none_iff] at takes
        obtain ⟨within, -⟩ := List.getElem?_eq_some_iff.mp found
        omega
      · cases stepped
    · cases stepped

end Inside

variable {α : Type*} {maxSpins : Nat} {queue after : BlockingConcurrentQueue Party α} {move : QueueMove Party α}

def signalled (queue : BlockingConcurrentQueue Party α) : Nat :=
  queue.entered.length - (queue.stage .collector).owns

structure Channel (queue : BlockingConcurrentQueue Party α) : Prop where
  sound : queue.Sound
  order : queue.entered = queue.delivered ++ (queue.stage .receiver).got ++ queue.inner
  sends : (queue.stage .collector).Sends
  takes : (queue.stage .receiver).Takes

structure Proceeds (queue after : BlockingConcurrentQueue Party α) : Prop where
  channel : after.Channel
  put : after.entered ++ (after.stage .collector).pending = queue.entered ++ (queue.stage .collector).pending
  signalled : queue.signalled ≤ after.signalled
  idle : queue.stage .collector = .idle → after.stage .collector = .idle
  returned : after.returned = queue.returned ∧ (after.stage .receiver).call = (queue.stage .receiver).call ∨
    ∃ call got, queue.stage .receiver = .dequeue call got.length got ∧
      after.returned = queue.returned ++ [(call, got)] ∧ after.stage .receiver = .idle

theorem Channel.start : (start : BlockingConcurrentQueue Party α).Channel := ⟨.start, rfl, trivial, trivial⟩

theorem Channel.sender (channel : queue.Channel) (sound : after.Sound) {stage : QueueStage α} {items : List α}
    (set : after.stage = Function.update queue.stage .collector stage) (sends : stage.Sends)
    (entered : after.entered = queue.entered ++ items) (inner : after.inner = queue.inner ++ items)
    (put : items ++ stage.pending = (queue.stage .collector).pending)
    (owns : stage.owns ≤ (queue.stage .collector).owns + items.length)
    (returned : after.returned = queue.returned) (busy : (queue.stage .collector).call.isSome = true) :
    Proceeds queue after := by
  have own : after.stage .collector = stage := by rw [set, Function.update_self]
  have other : after.stage .receiver = queue.stage .receiver := by rw [set, Function.update_of_ne (by decide)]
  refine ⟨⟨sound, ?_, own ▸ sends, other ▸ channel.takes⟩, ?_, ?_, ?_,
    .inl ⟨returned, by rw [other]⟩⟩
  · rw [entered, inner, other, channel.order, delivered, delivered, returned, List.append_assoc _ queue.inner]
  · rw [entered, own, List.append_assoc, put]
  · rw [signalled, signalled, own, entered, List.length_append]
    omega
  · intro idle
    rw [idle] at busy
    cases busy

theorem Channel.taker (channel : queue.Channel) (sound : after.Sound) {stage : QueueStage α}
    (set : after.stage = Function.update queue.stage .receiver stage) (takes : stage.Takes)
    (entered : after.entered = queue.entered)
    (order : after.delivered ++ stage.got ++ after.inner =
      queue.delivered ++ (queue.stage .receiver).got ++ queue.inner)
    (returned : after.returned = queue.returned ∧ stage.call = (queue.stage .receiver).call ∨
      ∃ call got, queue.stage .receiver = .dequeue call got.length got ∧
        after.returned = queue.returned ++ [(call, got)] ∧ stage = .idle) : Proceeds queue after := by
  have own : after.stage .receiver = stage := by rw [set, Function.update_self]
  have other : after.stage .collector = queue.stage .collector := by rw [set, Function.update_of_ne (by decide)]
  refine ⟨⟨sound, ?_, other ▸ channel.sends, own ▸ takes⟩, ?_, ?_, fun idle => other.trans idle, own ▸ returned⟩
  · rw [entered, own, order]
    exact channel.order
  · rw [entered, other]
  · rw [signalled, signalled, entered, other]

theorem Channel.collector_proceeds (channel : queue.Channel) (inside : Inside maxSpins queue .collector after)
    (sound : after.Sound) : Proceeds queue after := by
  have sends := channel.sends
  cases inside with
  | put call put item here found =>
    rw [here] at sends
    cases call with
    | enqueue first =>
      cases put with
      | zero =>
        cases found
        exact channel.sender sound rfl trivial rfl rfl (by rw [here]; rfl) (by rw [here]; exact Nat.le_refl 1) rfl
          (by rw [here]; rfl)
      | succ put => cases found
    | _ => cases sends
  | signal call here =>
    rw [here] at sends
    cases call with
    | enqueue item =>
      exact channel.sender sound rfl trivial (List.append_nil _).symm (List.append_nil _).symm (by rw [here]; rfl)
        (by rw [here]; exact Nat.le_refl 1) rfl (by rw [here]; rfl)
    | _ => cases sends
  | sema call own next choice sema here went =>
    rw [here] at sends
    have signals := sends.signals went
    exact channel.sender sound rfl signals.1 (List.append_nil _).symm (List.append_nil _).symm (by rw [here]; rfl)
      (by rw [here]; exact signals.2.1) rfl (by rw [here]; rfl)
  | «return» call result here enqueues =>
    exact channel.sender sound rfl trivial (List.append_nil _).symm (List.append_nil _).symm (by rw [here]; rfl)
        (Nat.zero_le _) rfl (by rw [here]; rfl)
  | again call here dequeues repeats =>
    rw [here] at sends
    exact absurd (sends.enqueues.symm.trans dequeues) (by decide)
  | loop call result here dequeues =>
    rw [here] at sends
    exact absurd (sends.enqueues.symm.trans dequeues) (by decide)
  | take call permits got item rest here less first =>
    rw [here] at sends
    cases sends
  | miss call permits got here =>
    rw [here] at sends
    cases sends
  | answer call got here =>
    rw [here] at sends
    cases sends

theorem Channel.receiver_proceeds (channel : queue.Channel) (inside : Inside maxSpins queue .receiver after)
    (sound : after.Sound) : Proceeds queue after := by
  have takes := channel.takes
  cases inside with
  | put call put item here found =>
    rw [here] at takes
    cases takes
  | signal call here =>
    rw [here] at takes
    cases takes
  | sema call own next choice sema here went =>
    rw [here] at takes
    exact channel.taker sound rfl takes rfl (by rw [here]; rfl) (.inl ⟨rfl, by rw [here]; rfl⟩)
  | «return» call result here enqueues =>
    rw [here] at takes
    exact absurd (takes.symm.trans enqueues) (by decide)
  | again call here dequeues repeats =>
    exact channel.taker sound rfl dequeues rfl (by rw [here]; rfl) (.inl ⟨rfl, by rw [here]; rfl⟩)
  | loop call result here dequeues =>
    exact channel.taker sound rfl dequeues rfl (by rw [here]; rfl) (.inl ⟨rfl, by rw [here]; rfl⟩)
  | take call permits got item rest here less first =>
    rw [here] at takes
    exact channel.taker sound rfl takes rfl (by rw [here, first]; simp [QueueStage.got, set, delivered])
      (.inl ⟨rfl, by rw [here]; rfl⟩)
  | miss call permits got here =>
    exact channel.taker sound (Function.update_eq_self ..).symm takes rfl rfl (.inl ⟨rfl, rfl⟩)
  | answer call got here =>
    exact channel.taker sound rfl trivial rfl (by rw [here]; simp [QueueStage.got, set, delivered])
      (.inr ⟨call, got, here, rfl, rfl⟩)

theorem Channel.proceeds (channel : queue.Channel) (stepped : queue.step maxSpins move = some after)
    (inOrder : move.inOrder = true) : Proceeds queue after := by
  obtain ⟨_, _, advance⟩ := step_advance stepped channel.sound.valid
  have sound := channel.sound.advance advance
  obtain ⟨thread, inside⟩ := step_inside stepped inOrder
  cases thread with
  | collector => exact channel.collector_proceeds inside sound
  | receiver => exact channel.receiver_proceeds inside sound

theorem call_cases {thread : Party} {call : QueueCall α}
    (stepped : queue.step maxSpins (.call thread call) = some after) :
    queue.stage thread = .idle ∧
      after = queue.set thread (if call.enqueues then .enqueue call 0 else .acquire call call.sema.begin) := by
  simp only [step] at stepped
  split at stepped <;> cases stepped
  rename_i idle
  exact ⟨idle, rfl⟩

theorem Channel.send (channel : queue.Channel) {item : α}
    (stepped : queue.step maxSpins (.call .collector (.enqueue item)) = some after) :
    after.Channel ∧ after.signalled = queue.signalled := by
  obtain ⟨_, _, advance⟩ := step_advance stepped channel.sound.valid
  obtain ⟨idle, rfl⟩ := call_cases stepped
  refine ⟨⟨channel.sound.advance advance, channel.order, trivial, channel.takes⟩, ?_⟩
  rw [signalled, signalled, idle]
  rfl

theorem Channel.take (channel : queue.Channel) {call : QueueCall α} (dequeues : call.enqueues = false)
    (stepped : queue.step maxSpins (.call .receiver call) = some after) :
    after.Channel ∧ after.signalled = queue.signalled := by
  obtain ⟨_, _, advance⟩ := step_advance stepped channel.sound.valid
  obtain ⟨idle, rfl⟩ := call_cases stepped
  have order := channel.order
  rw [idle] at order
  rw [dequeues] at advance ⊢
  exact ⟨⟨channel.sound.advance advance, order, channel.sends, dequeues⟩, rfl⟩

theorem Channel.collector_idle (channel : queue.Channel) (rests : queue.Rests .collector) :
    queue.stage .collector = .idle := by
  have sends := channel.sends
  rcases rests with idle | ⟨call, _, _, _, _, asleep, _⟩
  · exact idle
  · rw [asleep] at sends
    cases call <;> cases sends

theorem Channel.count_eq (channel : queue.Channel) (idle : queue.stage .receiver = .idle) :
    queue.sema.count + queue.delivered.length = queue.signalled := by
  have available := channel.sound.semaphore.available
  have supply := channel.sound.supply
  have order := congrArg List.length channel.order
  rw [Party.total_eq, channel.sends.waiting, idle] at available
  rw [Party.total_eq, idle] at supply
  rw [idle, List.length_append, List.length_append] at order
  have waiting : (QueueStage.idle : QueueStage α).sema.waiting = 0 := rfl
  have owns : (QueueStage.idle : QueueStage α).owns = 0 := rfl
  have got : (QueueStage.idle : QueueStage α).got.length = 0 := rfl
  rw [signalled]
  omega

/-- The consumer is in `wait_dequeue_bulk(max)`, and there have been `max` permits since it called. -/
inductive Supplied (max : Nat) (count : Int) : QueueStage α → Prop
  | load (enough : max ≤ count) :
      Supplied max count (.acquire (.wait_dequeue_bulk max) (.load (.wait (-1)) (.many max)))
  | exchange (oldCount : Int) (positive : 0 < oldCount) (enough : max ≤ count) (read : max ≤ oldCount) :
      Supplied max count (.acquire (.wait_dequeue_bulk max) (.exchange (.wait (-1)) (.many max) oldCount positive))
  | done : Supplied max count (.acquire (.wait_dequeue_bulk max) (.done max))
  | dequeue (got : List α) : Supplied max count (.dequeue (.wait_dequeue_bulk max) max got)

theorem Supplied.mono {max : Nat} {count count' : Int} {stage : QueueStage α} (supplied : Supplied max count stage)
    (more : count ≤ count') : Supplied max count' stage := by
  cases supplied with
  | load enough => exact .load (Int.le_trans enough more)
  | exchange oldCount positive enough read => exact .exchange oldCount positive (Int.le_trans enough more) read
  | done => exact .done
  | dequeue got => exact .dequeue got

theorem Supplied.dequeued {max permits : Nat} {count : Int} {call : QueueCall α} {got : List α}
    (supplied : Supplied max count (.dequeue call permits got)) : permits = max := by
  cases supplied
  rfl

theorem Supplied.idle {max : Nat} {count : Int} (supplied : Supplied max count (queue.stage .receiver))
    (rests : queue.Rests .receiver) : queue.stage .receiver = .idle := by
  rcases rests with idle | ⟨_, _, _, _, _, asleep, _⟩
  · exact idle
  · rw [asleep] at supplied
    cases supplied

theorem Supplied.tryLoop {max : Nat} {count : Int} (enough : max ≤ count) :
    Supplied max count (.acquire (.wait_dequeue_bulk max)
      (LightweightSemaphore.tryLoop maxSpins (.wait (-1)) (.many max) count) : QueueStage α) := by
  unfold LightweightSemaphore.tryLoop
  split
  · rename_i positive
    exact .exchange count positive enough enough
  · have nothing : max = 0 := by omega
    subst nothing
    exact .done

theorem Supplied.acquires {max : Nat} {call : QueueCall α} {own next : LightweightSemaphore.Stage}
    {choice : LightweightSemaphore.Choice} {sema sema' : LightweightSemaphore}
    (supplied : Supplied max sema.count (.acquire call own))
    (went : LightweightSemaphore.step maxSpins own choice sema = some (sema', next)) :
    Supplied max sema'.count (.acquire call next) := by
  cases supplied with
  | load enough =>
    cases choice <;> simp only [LightweightSemaphore.step, reduceCtorEq] at went
    cases went
    exact .tryLoop enough
  | exchange oldCount positive enough read =>
    cases choice with
    | go =>
      simp only [LightweightSemaphore.step] at went
      split at went
      · cases went
        have all : 0 + (oldCount - (LightweightSemaphore.Demand.many max).newCount oldCount).toNat = max := by
          simp only [LightweightSemaphore.Demand.newCount]
          split <;> omega
        dsimp only [LightweightSemaphore.Purpose.held]
        rw [all]
        exact .done
      · cases went
        exact .tryLoop enough
    | weak =>
      cases went
      exact .tryLoop enough
    | timeOut => cases went
  | done => cases choice <;> cases went

theorem Channel.supplied (channel : queue.Channel) (stepped : queue.step maxSpins move = some after)
    (inOrder : move.inOrder = true) {max : Nat} (supplied : Supplied max queue.sema.count (queue.stage .receiver)) :
    after.stage .receiver = .idle ∨ Supplied max after.sema.count (after.stage .receiver) := by
  obtain ⟨thread, inside⟩ := step_inside stepped inOrder
  cases thread with
  | collector =>
    right
    have sends := channel.sends
    cases inside with
    | put | signal | «return» | again | loop | miss | answer | take => exact supplied
    | sema call own next choice sema here went =>
      rw [here] at sends
      exact supplied.mono (sends.signals went).2.2
  | receiver =>
    cases inside with
    | put call put item here found =>
      rw [here] at supplied
      cases supplied
    | signal call here =>
      rw [here] at supplied
      cases supplied
    | «return» call result here enqueues => exact .inl rfl
    | answer call got here => exact .inl rfl
    | miss => exact .inr supplied
    | sema call own next choice sema here went =>
      rw [here] at supplied
      exact .inr (supplied.acquires went)
    | again call here dequeues repeats =>
      rw [here] at supplied
      cases supplied
      cases repeats
    | loop call result here dequeues =>
      rw [here] at supplied
      cases supplied
      exact .inr (.dequeue [])
    | take call permits got item rest here less first =>
      rw [here] at supplied
      cases supplied
      exact .inr (.dequeue _)

end BlockingConcurrentQueue

end Blockchain
