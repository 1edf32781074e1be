import Mathlib.Algebra.Order.Group.Multiset
import Mathlib.Tactic.Abel
import MyBlockchain.Common.BlockingConcurrentQueue
import MyBlockchain.Common.SemaphoreRefinement

namespace Blockchain

open LightweightSemaphore (Effect)

namespace QueueStage

variable {α : Type*}

def sema : QueueStage α → LightweightSemaphore.Stage
  | .acquire _ stage => stage
  | _ => .done 0

/-- The items that are the thread's: it has put them in and not signalled them, or has a permit for them. -/
def owns : QueueStage α → Nat
  | .idle => 0
  | .enqueue _ put => put
  | .acquire _ stage => stage.status.permits
  | .dequeue _ permits got => permits - got.length

def got : QueueStage α → List α
  | .dequeue _ _ got => got
  | _ => []

def Valid : QueueStage α → Prop
  | .idle => True
  | .enqueue call put => call.enqueues = true ∧ put ≤ call.items.length
  | .acquire call stage => call.sema.Admits stage.status
  | .dequeue call permits got => got.length ≤ permits ∧ call.sema.Admits (.done permits)

end QueueStage

theorem QueueCall.sema_of_enqueues {α : Type*} {call : QueueCall α} (enqueues : call.enqueues = true) :
    call.sema = .signal call.items.length := by
  cases call <;> first | rfl | cases enqueues

theorem QueueCall.sema_of_repeats {α : Type*} {call : QueueCall α} (repeats : call.repeats = true) :
    call.sema = .wait (-1) := by
  cases call <;> first | rfl | cases repeats

theorem QueueCall.begin_permits {α : Type*} {call : QueueCall α} (dequeues : ¬ call.enqueues = true) :
    call.sema.begin.status.permits = 0 := by
  cases call <;> first | rfl | exact absurd rfl dequeues

namespace BlockingConcurrentQueue

variable {Thread α : Type*} [DecidableEq Thread] {maxSpins : Nat} {queue after : BlockingConcurrentQueue Thread α}
  {thread : Thread} {stage : QueueStage α} {move : QueueMove Thread α}

def delivered (queue : BlockingConcurrentQueue Thread α) : List α := queue.returned.flatMap Prod.snd

/-- What a step can do: it changes one thread, and keeps the accounts of permits and of items. -/
structure Advance (queue : BlockingConcurrentQueue Thread α) (thread : Thread)
    (after : BlockingConcurrentQueue Thread α) (stage : QueueStage α) : Prop where
  set : after.stage = Function.update queue.stage thread stage
  debt : stage.sema.waiting + queue.sema.debt + queue.sema.sema + (queue.stage thread).sema.posting =
    (queue.stage thread).sema.waiting + after.sema.debt + after.sema.sema + stage.sema.posting
  supply : (after.inner.length : Int) + (queue.sema.count + (queue.stage thread).sema.waiting +
      (queue.stage thread).owns) =
    queue.inner.length + (after.sema.count + stage.sema.waiting + stage.owns)
  items : (after.entered : Multiset α) + (queue.inner + (queue.stage thread).got + queue.delivered : Multiset α) =
    queue.entered + (after.inner + stage.got + after.delivered : Multiset α)
  valid : stage.Valid
  answers : ∀ answer ∈ after.returned, answer ∈ queue.returned ∨ answer.1.sema.Admits (.done answer.2.length)

theorem Advance.of_set (calm : (queue.stage thread).sema.Quiet) (still : stage.sema.Quiet)
    (owns : stage.owns = (queue.stage thread).owns) (got : stage.got = (queue.stage thread).got)
    (valid : stage.Valid) : Advance queue thread (queue.set thread stage) stage where
  set := rfl
  debt := by rw [calm.1, calm.2, still.1, still.2]; rfl
  supply := by rw [calm.1, still.1, owns]; rfl
  items := by rw [got]; rfl
  valid := valid
  answers _ member := .inl member

theorem next_advance (stepped : queue.next thread = some after) (valid : (queue.stage thread).Valid) :
    ∃ stage, Advance queue thread after stage := by
  unfold next at stepped
  split at stepped
  · cases stepped
  · rename_i call put here
    rw [here] at valid
    obtain ⟨enqueues, -⟩ := valid
    split at stepped <;> cases stepped
    rename_i all
    refine ⟨_, .of_set (by rw [here]; exact ⟨rfl, rfl⟩) (LightweightSemaphore.Call.begin_quiet _) ?_ ?_
      (LightweightSemaphore.Call.begin_admits _)⟩
    · rw [here, all]
      simp only [QueueStage.owns, QueueCall.sema_of_enqueues enqueues]
      rfl
    · rw [here]
      rfl
  · rename_i call result here
    cases stepped
    rw [here] at valid
    have most := valid.1
    refine ⟨_, .of_set (by rw [here]; exact ⟨rfl, rfl⟩) ?_ ?_ ?_ ?_⟩
    · split
      · exact ⟨rfl, rfl⟩
      · split
        · exact LightweightSemaphore.Call.begin_quiet _
        · exact ⟨rfl, rfl⟩
    · rw [here]
      split
      · rename_i enqueues
        rw [QueueCall.sema_of_enqueues enqueues] at most
        exact (Nat.le_zero.mp most).symm
      · split
        · rename_i again
          rw [QueueCall.sema_of_repeats again.1, again.2]
          rfl
        · rfl
    · rw [here]
      split
      · rfl
      · split <;> rfl
    · split
      · trivial
      · split
        · exact LightweightSemaphore.Call.begin_admits _
        · exact ⟨Nat.zero_le _, valid⟩
  · cases stepped
  · rename_i call permits got here
    rw [here] at valid
    split at stepped <;> cases stepped
    rename_i full
    refine ⟨.idle, rfl, ?_, ?_, ?_, trivial, ?_⟩
    · rw [here]
      rfl
    · rw [here]
      simp only [set, QueueStage.owns, full, Nat.sub_self]
      rfl
    · rw [here]
      simp only [set, delivered, List.flatMap_append, List.flatMap_singleton, QueueStage.got, ← Multiset.coe_add,
        Multiset.coe_nil, add_zero]
      abel
    · intro answer member
      rcases List.mem_append.mp member with old | new
      · exact .inl old
      · rw [List.mem_singleton.mp new]
        right
        rw [full]
        exact valid.2

theorem put_advance {call : QueueCall α} {put : Nat} {item : α} (here : queue.stage thread = .enqueue call put)
    (found : call.items[put]? = some item) (valid : (queue.stage thread).Valid) :
    Advance queue thread { queue.set thread (.enqueue call (put + 1)) with
      inner := queue.inner ++ [item], entered := queue.entered ++ [item] } (.enqueue call (put + 1)) := by
  rw [here] at valid
  obtain ⟨within, -⟩ := List.getElem?_eq_some_iff.mp found
  refine ⟨rfl, by rw [here]; rfl, ?_, ?_, ⟨valid.1, within⟩, fun _ => .inl⟩
  · rw [here]
    simp only [set, QueueStage.owns, QueueStage.sema, LightweightSemaphore.Stage.waiting, List.length_append,
      List.length_singleton]
    omega
  · rw [here]
    simp only [set, delivered, QueueStage.got, ← Multiset.coe_add]
    abel

theorem take_advance {call : QueueCall α} {permits index : Nat} {got : List α} {item : α}
    (here : queue.stage thread = .dequeue call permits got) (less : got.length < permits)
    (found : queue.inner[index]? = some item) (valid : (queue.stage thread).Valid) :
    Advance queue thread { queue.set thread (.dequeue call permits (got ++ [item])) with
      inner := queue.inner.eraseIdx index } (.dequeue call permits (got ++ [item])) := by
  rw [here] at valid
  obtain ⟨within, rfl⟩ := List.getElem?_eq_some_iff.mp found
  have taken := List.getElem_cons_eraseIdx_perm within
  have size : (queue.inner.eraseIdx index).length + 1 = queue.inner.length := taken.length_eq
  refine ⟨rfl, by rw [here]; rfl, ?_, ?_, ⟨?_, valid.2⟩, fun _ => .inl⟩
  · rw [here]
    simp only [set, QueueStage.owns, QueueStage.sema, LightweightSemaphore.Stage.waiting, List.length_append,
      List.length_singleton]
    omega
  · rw [here, ← Multiset.coe_eq_coe.mpr taken]
    simp only [set, delivered, QueueStage.got, ← Multiset.coe_add, ← Multiset.singleton_add, ← Multiset.cons_coe,
      Multiset.coe_nil]
    abel
  · rw [List.length_append, List.length_singleton]
    exact less

theorem sema_advance {call : QueueCall α} {own next : LightweightSemaphore.Stage} {sema : LightweightSemaphore}
    (here : queue.stage thread = .acquire call own) (effect : Effect queue.sema own sema next)
    (valid : (queue.stage thread).Valid) :
    Advance queue thread { queue.set thread (.acquire call next) with sema } (.acquire call next) := by
  rw [here] at valid
  have balance := effect.change.balance
  refine ⟨rfl, ?_, ?_, ?_, effect.change.admits valid, fun _ => .inl⟩
  · rw [here]
    exact effect.debt
  · rw [here]
    simp only [set, QueueStage.owns, QueueStage.sema]
    omega
  · rw [here]
    rfl

theorem step_advance (stepped : queue.step maxSpins move = some after) (valid : ∀ thread, (queue.stage thread).Valid) :
    ∃ thread stage, Advance queue thread after stage := by
  cases move with
  | call thread call =>
    simp only [step] at stepped
    split at stepped <;> cases stepped
    rename_i here
    refine ⟨thread, _, .of_set (by rw [here]; exact ⟨rfl, rfl⟩) ?_ ?_ ?_ ?_⟩
    · split
      · exact ⟨rfl, rfl⟩
      · exact LightweightSemaphore.Call.begin_quiet _
    · rw [here]
      split
      · rfl
      · rename_i dequeues
        exact QueueCall.begin_permits dequeues
    · rw [here]
      split <;> rfl
    · split
      · rename_i enqueues
        exact ⟨enqueues, Nat.zero_le _⟩
      · exact LightweightSemaphore.Call.begin_admits _
  | refuse thread =>
    simp only [step] at stepped
    split at stepped <;> cases stepped
    rename_i call here
    exact ⟨thread, .idle, .of_set (by rw [here]; exact ⟨rfl, rfl⟩) ⟨rfl, rfl⟩ (by rw [here]; rfl) (by rw [here]; rfl)
      trivial⟩
  | put thread =>
    simp only [step] at stepped
    split at stepped
    · rename_i call put here
      obtain ⟨item, found, rfl⟩ := Option.map_eq_some_iff.mp stepped
      exact ⟨thread, _, put_advance here found (valid thread)⟩
    · cases stepped
  | sema thread choice =>
    simp only [step] at stepped
    split at stepped
    · rename_i call stage here
      obtain ⟨⟨sema, next⟩, went, rfl⟩ := Option.map_eq_some_iff.mp stepped
      exact ⟨thread, _, sema_advance here (LightweightSemaphore.step_effect went) (valid thread)⟩
    · cases stepped
  | take thread index =>
    simp only [step] at stepped
    split at stepped
    · rename_i call permits got here
      split at stepped
      · rename_i less
        obtain ⟨item, found, rfl⟩ := Option.map_eq_some_iff.mp stepped
        exact ⟨thread, _, take_advance here less found (valid thread)⟩
      · cases stepped
    · cases stepped
  | miss thread =>
    simp only [step] at stepped
    split at stepped
    · split at stepped <;> cases stepped
      refine ⟨thread, queue.stage thread, ?_, rfl, rfl, rfl, valid thread, fun _ => .inl⟩
      rw [Function.update_eq_self]
    · cases stepped
  | next thread =>
    obtain ⟨stage, advance⟩ := next_advance stepped (valid thread)
    exact ⟨thread, stage, advance⟩

end BlockingConcurrentQueue

end Blockchain
