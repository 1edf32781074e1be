import MyBlockchain.Common.ConcurrentHashMapCalls
import MyBlockchain.Library.Inevitable
import MyBlockchain.Library.ThreadSum

namespace Blockchain

open Inevitable (Reaches)
open ThreadSum (total total_update)
open HashMapBuckets (bucketNumber)

/-- The calls that free the node of a key. -/
def HashMapCall.frees {Key Value : Type} [DecidableEq Key] (key : Key) : HashMapCall Key Value → Bool
  | .remove other => other = key
  | .clear => true
  | _ => false

namespace HashMapStage

variable {N : Nat} {Key Value : Type}

/-- A bound on the operations left in a call, apart from those on a lock that is set. -/
def work : HashMapStage N Key Value → Nat
  | .idle => 0
  | .answer .. => 1
  | .access .. => 2
  | .put .. | .erase .. => 3
  | .unlock _ next => next.work + 1
  | .loop _ i _ => 4 * (N - i) + 2
  | .lock _ i _ => 4 * (N - i) + 1
  | .applyFunc _ i _ => 4 * (N - i)

/-- A call that frees no node of a key, and whose reference, if it has one to the key, leads to the first of them. -/
def Spares [DecidableEq Key] (key : Key) : HashMapStage N Key Value → Prop
  | .idle | .put .. => True
  | .loop call _ _ | .lock call _ _ | .applyFunc call _ _ => call.frees key = false
  | .erase other _ => other ≠ key
  | .unlock _ next => next.Spares key
  | .access _ other node => other = key → node = 0
  | .answer call result => call.key = some key → result ≠ none

end HashMapStage

namespace ConcurrentHashMap

variable {N : Nat} {Thread Key Value : Type} {world after : ConcurrentHashMap N Thread Key Value} {thread : Thread}

/-- The thread finds the lock set that it waits for. -/
def spins (world : ConcurrentHashMap N Thread Key Value) (thread : Thread) : Bool :=
  match world.stage thread with
  | .lock _ i _ => world.locks i
  | _ => false

/-- The holder of a lock does not spin. -/
theorem holder_goes {i : Fin N} (holds : (world.stage thread).holds = some i) : world.spins thread = false := by
  unfold spins
  split
  · rename_i here
    rw [here] at holds
    cases holds
  · rfl

variable [DecidableEq Thread] [DecidableEq Key] [Inhabited Value] {key : Key}

theorem apply_work (fits : N < 2 ^ 32) (i : Fin N) (finalValue : Int) (call : HashMapCall Key Value) :
    ∃ stage, (world.applyStep thread i finalValue call).stage = Function.update world.stage thread stage ∧
      stage.work < 4 * (N - i) := by
  have inside := i.isLt
  have next : (i + 1 : Nat) % 2 ^ 32 = i + 1 := Nat.mod_eq_of_lt (by omega)
  cases call with
  | insert key value =>
    refine ⟨_, rfl, ?_⟩
    split <;> simp only [HashMapStage.work] <;> omega
  | remove key =>
    refine ⟨_, rfl, ?_⟩
    split <;> simp only [HashMapStage.work] <;> omega
  | contains key | read key | assign key value =>
    refine ⟨_, rfl, ?_⟩
    simp only [HashMapStage.work]
    omega
  | size | clear =>
    refine ⟨_, rfl, ?_⟩
    simp only [HashMapStage.work]
    rw [next]
    omega

theorem apply_spares {i : Fin N} {finalValue : Int} {call : HashMapCall Key Value} (freed : world.freed key = 0)
    (spares : call.frees key = false) :
    (world.applyStep thread i finalValue call).freed key = 0 ∧
      ((world.applyStep thread i finalValue call).stage thread).Spares key := by
  cases call with
  | insert other value =>
    refine ⟨freed, ?_⟩
    simp only [applyStep, set, Function.update_self]
    split
    · exact fun _ none => by cases none
    · trivial
  | remove other =>
    refine ⟨freed, ?_⟩
    simp only [applyStep, set, Function.update_self]
    split
    · exact fun _ none => by cases none
    · exact of_decide_eq_false spares
  | contains other =>
    refine ⟨freed, ?_⟩
    simp only [applyStep, set, Function.update_self]
    exact fun _ none => by cases none
  | read other | assign other value =>
    refine ⟨freed, ?_⟩
    simp only [applyStep, set, Function.update_self]
    exact fun same => same ▸ freed
  | size =>
    refine ⟨freed, ?_⟩
    simp only [applyStep, set, Function.update_self]
    exact spares
  | clear => cases spares

variable [NeZero N] {hasher : Key → Nat} {moves : List (HashMapMove Thread Key Value)}

section Work

/-- A step of a thread that does not spin. -/
def proceed (hasher : Key → Nat) (world : ConcurrentHashMap N Thread Key Value) (thread : Thread) :
    Option (ConcurrentHashMap N Thread Key Value) :=
  if world.spins thread then none else world.step hasher (.run thread)

theorem run_work (fits : N < 2 ^ 32) (ran : world.run hasher thread = some after) (goes : world.spins thread = false) :
    ∃ stage, after.stage = Function.update world.stage thread stage ∧ stage.work < (world.stage thread).work := by
  unfold spins at goes
  unfold run at ran
  split at ran <;> cases ran <;> rename_i here <;> rw [here] at goes ⊢
  · rename_i call i finalValue
    refine ⟨_, rfl, ?_⟩
    split <;> simp only [HashMapStage.work] <;> omega
  · rw [if_neg (Bool.eq_false_iff.mp goes)]
    exact ⟨_, rfl, Nat.lt_succ_self _⟩
  · exact apply_work fits _ _ _
  · exact ⟨_, rfl, by simp [HashMapStage.work]⟩
  · exact ⟨_, rfl, by simp [HashMapStage.work]⟩
  · exact ⟨_, rfl, Nat.lt_succ_self _⟩
  · rename_i call key node
    dsimp only
    split
    · cases call <;> exact ⟨_, rfl, by simp [HashMapStage.work]⟩
    · exact ⟨_, rfl, by simp [HashMapStage.work]⟩
  · exact ⟨_, rfl, by simp [HashMapStage.work]⟩

theorem exists_run (hasher : Key → Nat) (busy : world.stage thread ≠ .idle) :
    ∃ after, world.run hasher thread = some after := by
  unfold run
  split
  · rename_i here
    exact absurd here busy
  all_goals exact ⟨_, rfl⟩

/-- Where a thread is in a call, that thread or the one it waits for can go on. -/
theorem exists_proceed (sound : Sound hasher world) (busy : world.stage thread ≠ .idle) :
    ∃ thread next, world.proceed hasher thread = some next := by
  have goes {thread : Thread} (still : world.spins thread = false) (busy : world.stage thread ≠ .idle) :
      ∃ thread next, world.proceed hasher thread = some next := by
    obtain ⟨next, ran⟩ := exists_run hasher busy
    refine ⟨thread, next.observe, ?_⟩
    simp only [proceed, step, still, ran]
    rfl
  cases waits : world.spins thread with
  | false => exact goes waits busy
  | true =>
    unfold spins at waits
    split at waits
    · obtain ⟨owner, holds⟩ := sound.locks.owner waits
      refine goes (holder_goes holds) fun idle => ?_
      rw [idle] at holds
      cases holds
    · cases waits

variable [Fintype Thread]

theorem proceed_work (fits : N < 2 ^ 32) (went : world.proceed hasher thread = some after) :
    total HashMapStage.work after.stage < total HashMapStage.work world.stage := by
  unfold proceed at went
  split at went
  · cases went
  · rename_i goes
    obtain ⟨next, ran, rfl⟩ := Option.map_eq_some_iff.mp went
    obtain ⟨stage, set, less⟩ := run_work fits ran (Bool.eq_false_iff.mpr goes)
    have sum := total_update HashMapStage.work world.stage thread stage
    rw [← set] at sum
    change total HashMapStage.work next.stage < _
    omega

/-- The calls in progress all return, however the threads are scheduled: no lock is held for ever, and the threads that
do not spin go on until there is no call left. -/
theorem hash_map_returns (fits : N < 2 ^ 32) (ran : moves.foldlM (step hasher) start = some world) :
    Reaches (proceed hasher) (fun world => ∀ thread, world.stage thread = .idle) world := by
  apply Reaches.of_measure (Sound hasher) fun world => total HashMapStage.work world.stage
  · intro world sound
    by_cases idle : ∀ thread, world.stage thread = .idle
    · exact .inl idle
    · obtain ⟨thread, busy⟩ := not_forall.mp idle
      exact .inr (exists_proceed sound busy)
  · intro world thread next sound went
    refine ⟨?_, proceed_work fits went⟩
    unfold proceed at went
    split at went
    · cases went
    · exact step_sound sound went
  · exact (run_represents ran).1

theorem hash_map_returns_racing :
    ∃ world : ConcurrentHashMap 2 Bool Nat Nat, (racingMoves.take 6).foldlM (step id) start = some world ∧
      world.spins true = true ∧ Reaches (proceed id) (fun world => ∀ thread, world.stage thread = .idle) world :=
  ⟨_, rfl, rfl, @hash_map_returns 2 Bool Nat Nat _ _ _ _ _ id (racingMoves.take 6) _ (by decide) rfl⟩

end Work

section References

/-- No node of the key has been freed, nor will be by the calls in progress, and no call on it was without a result. -/
structure Spares (key : Key) (world : ConcurrentHashMap N Thread Key Value) : Prop where
  freed : world.freed key = 0
  stages : ∀ thread, (world.stage thread).Spares key
  returned : ∀ answer ∈ world.returned, answer.call.key = some key → answer.result ≠ none

theorem run_spares (sound : Sound hasher world) (spares : world.Spares key)
    (ran : world.run hasher thread = some after) :
    after.freed key = 0 ∧ (after.stage thread).Spares key := by
  have valid := sound.valid thread
  have own := spares.stages thread
  have freed := spares.freed
  unfold run at ran
  split at ran <;> cases ran <;> rename_i here <;> rw [here] at valid own
  · rename_i call i finalValue
    refine ⟨freed, ?_⟩
    simp only [set, Function.update_self]
    split
    · exact own
    · exact fun _ none => by cases none
  · split
    · rw [here]
      exact ⟨freed, own⟩
    · refine ⟨freed, ?_⟩
      simp only [set, Function.update_self]
      exact own
  · exact apply_spares freed own
  · refine ⟨freed, ?_⟩
    simp only [set, Function.update_self]
    exact fun _ none => by cases none
  · rename_i other i
    constructor
    · dsimp only
      rw [Function.update_of_ne (Ne.symm own)]
      exact freed
    · simp only [set, Function.update_self]
      exact fun _ none => by cases none
  · refine ⟨freed, ?_⟩
    simp only [set, Function.update_self]
    exact own
  · rename_i call other node
    obtain ⟨same, -, -, there⟩ := valid
    dsimp only
    split
    · rename_i live
      cases call with
      | assign =>
        refine ⟨freed, ?_⟩
        simp only [set, Function.update_self]
        exact fun _ none => by cases none
      | insert | remove | contains | read | size | clear =>
        refine ⟨freed, ?_⟩
        simp only [set, Function.update_self]
        intro _ none
        obtain ⟨value, found⟩ := Finmap.mem_iff.mp (there live)
        rw [found] at none
        cases none
    · rename_i gone
      refine ⟨freed, ?_⟩
      simp only [set, Function.update_self]
      intro named
      rw [same] at named
      cases named
      exact absurd (freed.trans (own rfl).symm) gone
  · refine ⟨freed, ?_⟩
    simp only [set, Function.update_self]
    trivial

theorem step_spares {move : HashMapMove Thread Key Value} (sound : Sound hasher world)
    (stepped : world.step hasher move = some after)
    (spared : ∀ thread call, move = .call thread call → call.frees key = false) (spares : world.Spares key) :
    after.Spares key := by
  cases move with
  | call thread call =>
    have kind := spared thread call rfl
    simp only [step] at stepped
    split at stepped <;> cases stepped
    refine ⟨spares.freed, fun other => ?_, spares.returned⟩
    by_cases same : other = thread
    · subst same
      simp only [set, Function.update_self]
      unfold begin
      split <;> exact kind
    · simp only [set, Function.update_of_ne same]
      exact spares.stages other
  | run thread =>
    obtain ⟨next, ran, rfl⟩ := Option.map_eq_some_iff.mp stepped
    obtain ⟨others, -, -, returned⟩ := run_frame ran
    obtain ⟨freed, own⟩ := run_spares sound spares ran
    refine ⟨freed, fun other => ?_, fun answer member => ?_⟩
    · by_cases same : other = thread
      · exact same ▸ own
      · change (next.stage other).Spares key
        rw [others other same]
        exact spares.stages other
    · rcases returned answer member with old | ⟨here, -, -⟩
      · exact spares.returned answer old
      · have last := spares.stages thread
        rw [here] at last
        exact last

/-- A reference stays valid, and the call that uses it has a result, where nobody removes its key or clears the map. -/
theorem hash_map_references (ran : moves.foldlM (step hasher) start = some world)
    (spared : ∀ thread call, .call thread call ∈ moves → call.frees key = false) :
    ∀ answer ∈ world.returned, answer.call.key = some key → answer.result ≠ none := by
  have both := Runs.invariant_along (fun world => Sound hasher world ∧ world.Spares key)
    (fun stepped spared before => ⟨step_sound before.1 stepped, step_spares before.1 stepped spared before.2⟩) ran
    (Runs.along_of_forall fun move member _ thread call same => spared thread call (same ▸ member))
    ⟨.start, rfl, fun _ => trivial, fun _ member => by cases member⟩
  exact both.2.returned

/-- One thread assigns to a key while the other removes another. -/
def referringMoves : List (HashMapMove Bool Nat Nat) :=
  [.call false (.assign 1 5), .call true (.remove 3), .run false, .run false, .run false, .run true, .run true, .run true,
    .run true, .run false, .run false]

theorem hash_map_references_assigned :
    ∃ world : ConcurrentHashMap 2 Bool Nat Nat, referringMoves.foldlM (step id) start = some world ∧
      (world.returned.map fun answer => answer.result) = [some (.flag false), some .done] ∧
      ∀ answer ∈ world.returned, answer.call.key = some 1 → answer.result ≠ none := by
  refine ⟨_, rfl, rfl, @hash_map_references 2 Bool Nat Nat _ _ _ _ 1 _ id referringMoves rfl ?_⟩
  intro thread call member
  simp only [referringMoves, List.mem_cons, HashMapMove.call.injEq, reduceCtorEq, List.not_mem_nil, or_false]
    at member
  rcases member with ⟨-, rfl⟩ | ⟨-, rfl⟩ <;> rfl

example : (([.call false (.assign 1 5), .call true (.remove 1), .run false, .run false, .run false, .run true, .run true,
      .run true, .run true, .run false, .run false, .run true] : List (HashMapMove Bool Nat Nat)).foldlM (step id)
        (start : ConcurrentHashMap 2 Bool Nat Nat)).map (fun world => world.returned.map fun answer => answer.result) =
    some [none, some (.flag true)] := rfl

end References

end ConcurrentHashMap

end Blockchain
