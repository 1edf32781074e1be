import MyBlockchain.Common.SemaphoreSteps
import MyBlockchain.Library.Runs
import MyBlockchain.Library.ThreadSum

namespace Blockchain.LightweightSemaphore

open CountingSemaphore (Action Status Trace)
open ThreadSum (total total_update)

section Changes

variable {Thread : Type*} [DecidableEq Thread] {maxSpins : Nat} {thread : Thread}

theorem status_update (stages : Thread → Stage) (thread : Thread) (next : Stage) :
    (fun other => (Function.update stages thread next other).status) =
      Function.update (fun other => (stages other).status) thread next.status :=
  Function.comp_update Stage.status stages thread next

theorem Change.trace {limit : Int → Prop} {here there : Int} {status final : Status}
    {world : CountingSemaphore.World Thread} (change : Change limit here status there final)
    (own : world.status thread = status) (enough : ∀ count : Nat, limit count → count ≤ world.available)
    {later : Nat} (same : (later : Int) - world.available = there - here) :
    ∃ actions : List Action, (∀ action ∈ actions, action.begins = false) ∧
      Trace world (actions.map (thread, ·)) (world.set later thread final) := by
  cases change with
  | stutter =>
    obtain rfl : later = world.available := by omega
    refine ⟨[], List.forall_mem_nil _, ?_⟩
    rw [← own, CountingSemaphore.World.set, Function.update_eq_self]
    exact .nil
  | finish permits room =>
    obtain rfl : later = world.available := by omega
    exact ⟨[.finish permits], by simp [Action.begins], .single (.finish own)⟩
  | grab permits room count patient positive fits within =>
    have fewer := enough count within
    obtain rfl : later = world.available - count := by omega
    exact ⟨[.grab count], by simp [Action.begins], .single (.grab count own positive fits fewer)⟩
  | grabFinish permits room count patient positive fits within =>
    have fewer := enough count within
    obtain rfl : later = world.available - count := by omega
    exact ⟨[.grab count, .finish (permits + count)], by simp [Action.begins],
      CountingSemaphore.grab_finish count own positive fits fewer⟩
  | signal count =>
    obtain rfl : later = world.available + count := by omega
    exact ⟨[.signal count], by simp [Action.begins], .single (.signal own)⟩

theorem Call.begin_quiet (call : Call) : call.begin.Quiet := by
  cases call <;> exact ⟨rfl, rfl⟩

theorem stuck_cases {semaphore : LightweightSemaphore} {stage : Stage}
    (stuck : ∀ choice, step maxSpins stage choice semaphore = none) :
    (∃ result, stage = .done result) ∨
      semaphore.sema = 0 ∧ ∃ demand timeout_usecs wanted waits,
        stage = .sleep demand timeout_usecs wanted waits ∧ timeout_usecs < 0 := by
  have blocked := stuck .go
  cases stage with
  | done result => exact .inl ⟨result, rfl⟩
  | sleep demand timeout_usecs wanted waits =>
    have late := stuck .timeOut
    simp only [step, ite_eq_right_iff, reduceCtorEq, imp_false] at blocked late
    exact .inr ⟨by omega, demand, timeout_usecs, wanted, waits, rfl, by omega⟩
  | spin left demand timeout_usecs wanted => cases left <;> cases blocked
  | post left => cases left <;> cases blocked
  | load | adjust | add => cases blocked
  | exchange | spinExchange | adjustTake | adjustBack =>
    simp only [step] at blocked
    split at blocked <;> cases blocked

def Call.action : Call → Action
  | .tryWait => .take 1 false
  | .wait timeout_usecs => .take 1 (timeout_usecs < 0)
  | .tryWaitMany max => .take max false
  | .waitMany max timeout_usecs => .take max (timeout_usecs < 0 && 0 < max)
  | .signal count => .raise count

theorem Call.begin_step (call : Call) {result : Nat} {world : CountingSemaphore.World Thread}
    (idle : world.status thread = .done result) :
    CountingSemaphore.Step world thread call.action (world.set world.available thread call.begin.status) := by
  cases call with
  | tryWait => exact .take 1 false idle
  | wait timeout_usecs =>
    have patient : (Purpose.wait timeout_usecs).patient .one = decide (timeout_usecs < 0) := by
      simp [Purpose.patient, Demand.max]
    rw [action, begin, Stage.status, patient]
    exact .take 1 _ idle
  | tryWaitMany max => exact .take max false idle
  | waitMany max timeout_usecs => exact .take max _ idle
  | signal count => exact .raise count idle

/-- What a move of the code comes to: a call begins the same call of the counting semaphore, and a step of a thread is
actions of that thread, inside its call. -/
def Move.Matches (move : Move Thread) (actions : List (Thread × Action)) : Prop :=
  match move with
  | .call thread made => actions = [(thread, made.action)]
  | .run thread _ => ∀ entry ∈ actions, entry.1 = thread ∧ entry.2.begins = false

variable {world after : World Thread} {move : Move Thread}

theorem move_cases (moved : world.move maxSpins move = some after) :
    (∃ (thread : Thread) (call : Call) (result : Nat), move = .call thread call ∧ world.stage thread = .done result ∧
      after.semaphore = world.semaphore ∧ after.stage = Function.update world.stage thread call.begin) ∨
    (∃ (thread : Thread) (choice : Choice) (next : Stage), move = .run thread choice ∧
      step maxSpins (world.stage thread) choice world.semaphore = some (after.semaphore, next) ∧
        after.stage = Function.update world.stage thread next) := by
  cases move with
  | call thread call =>
    simp only [World.move] at moved
    split at moved <;> cases moved
    rename_i result idle
    exact .inl ⟨thread, call, result, rfl, idle, rfl, rfl⟩
  | run thread choice =>
    obtain ⟨⟨semaphore, next⟩, stepped, same⟩ := Option.map_eq_some_iff.mp moved
    cases same
    exact .inr ⟨thread, choice, next, rfl, stepped, rfl⟩

end Changes

variable {Thread : Type*} [Fintype Thread] {maxSpins : Nat} {semaphore later : LightweightSemaphore}
  {stages : Thread → Stage} {thread : Thread} {next : Stage}

/-- Each thread that waits is in `m_count`, or has a token in `m_sema`, or is about to be posted one. -/
def Sound (semaphore : LightweightSemaphore) (stages : Thread → Stage) : Prop :=
  total Stage.waiting stages = semaphore.debt + semaphore.sema + total Stage.posting stages

/-- The permits that are there: a thread that waits has lowered the count in advance. -/
def available (semaphore : LightweightSemaphore) (stages : Thread → Stage) : Nat :=
  (semaphore.count + total Stage.waiting stages).toNat

theorem Sound.available (sound : Sound semaphore stages) :
    (available semaphore stages : Int) = semaphore.count + total Stage.waiting stages := by
  unfold Sound debt at sound
  unfold LightweightSemaphore.available
  omega

theorem Sound.available_eq (sound : Sound semaphore stages) :
    LightweightSemaphore.available semaphore stages =
      semaphore.count.toNat + semaphore.sema + total Stage.posting stages := by
  unfold Sound debt at sound
  unfold LightweightSemaphore.available
  omega

theorem Sound.covers (sound : Sound semaphore stages) {count : Nat} (covers : semaphore.Covers count) :
    count ≤ LightweightSemaphore.available semaphore stages := by
  rw [sound.available_eq]
  rcases covers with counted | posted <;> omega

theorem Sound.start (initialCount : Nat) : Sound ⟨initialCount, 0⟩ fun _ : Thread => .done 0 := by
  have waiting : total Stage.waiting (fun _ : Thread => .done 0) = 0 := ThreadSum.total_const_zero fun _ => rfl
  have posting : total Stage.posting (fun _ : Thread => .done 0) = 0 := ThreadSum.total_const_zero fun _ => rfl
  simp only [Sound, debt, waiting, posting]
  omega

def World.abstract (world : World Thread) : CountingSemaphore.World Thread where
  available := available world.semaphore world.stage
  status thread := (world.stage thread).status

theorem start_abstract (initialCount : Nat) :
    (World.start initialCount : World Thread).abstract = ⟨initialCount, fun _ => .done 0⟩ := by
  have waiting : total Stage.waiting (fun _ : Thread => .done 0) = 0 := ThreadSum.total_const_zero fun _ => rfl
  simp [World.abstract, World.start, available, waiting, Stage.status]

variable [DecidableEq Thread]

theorem Sound.effect (sound : Sound semaphore stages) (effect : Effect semaphore (stages thread) later next) :
    Sound later (Function.update stages thread next) := by
  have waiting := total_update Stage.waiting stages thread next
  have posting := total_update Stage.posting stages thread next
  have debt := effect.debt
  unfold Sound at sound ⊢
  omega

theorem Sound.quiet (sound : Sound semaphore stages) (calm : (stages thread).Quiet) (still : next.Quiet) :
    Sound semaphore (Function.update stages thread next) := by
  have waiting := total_update Stage.waiting stages thread next
  have posting := total_update Stage.posting stages thread next
  rw [calm.1, still.1] at waiting
  rw [calm.2, still.2] at posting
  unfold Sound at sound ⊢
  omega

/-- A thread waits, and there is nothing in `m_sema` for it nor will be from what goes on: nothing is left to take. -/
theorem Sound.none_available (sound : Sound semaphore stages) (waits : (stages thread).waiting = 1)
    (empty : semaphore.sema = 0) (quiet : ∀ thread, (stages thread).posting = 0) :
    LightweightSemaphore.available semaphore stages = 0 := by
  have posting : total Stage.posting stages = 0 := ThreadSum.total_const_zero quiet
  have one := @ThreadSum.own_le_total _ _ _ Stage.waiting stages _ thread
  rw [sound.available_eq]
  unfold Sound debt at sound
  omega

variable {world after : World Thread} {move : Move Thread} {moves : List (Move Thread)}

theorem move_sound (moved : world.move maxSpins move = some after) (sound : Sound world.semaphore world.stage) :
    Sound after.semaphore after.stage := by
  obtain ⟨thread, call, result, -, idle, same, stages⟩ | ⟨thread, choice, next, -, stepped, stages⟩ := move_cases moved
  · rw [same, stages]
    exact sound.quiet (by rw [idle]; exact ⟨rfl, rfl⟩) call.begin_quiet
  · rw [stages]
    exact sound.effect (step_effect stepped)

theorem run_sound {initialCount : Nat}
    (ran : moves.foldlM (World.move maxSpins) (World.start initialCount) = some world) :
    Sound world.semaphore world.stage :=
  Runs.invariant (fun world => Sound world.semaphore world.stage) move_sound ran (Sound.start initialCount)

theorem World.abstract_update (world : World Thread) {stages : Thread → Stage} {available : Nat}
    (same : world.stage = Function.update stages thread next)
    (there : LightweightSemaphore.available world.semaphore world.stage = available)
    (old : CountingSemaphore.World Thread) (own : old.status = fun thread => (stages thread).status) :
    world.abstract = old.set available thread next.status := by
  rw [CountingSemaphore.World.set, own, ← status_update, ← same, ← there]
  rfl

/-- One step of the code is one or two steps of the counting semaphore, or none. -/
theorem move_trace (moved : world.move maxSpins move = some after) (sound : Sound world.semaphore world.stage) :
    ∃ actions, move.Matches actions ∧ Trace world.abstract actions after.abstract := by
  have kept := move_sound moved sound
  obtain ⟨thread, call, result, rfl, idle, memory, stages⟩ | ⟨thread, choice, next, rfl, stepped, stages⟩ :=
    move_cases moved
  · have waiting := total_update Stage.waiting world.stage thread call.begin
    have same : available after.semaphore after.stage = available world.semaphore world.stage := by
      rw [idle, call.begin_quiet.1, ← stages] at waiting
      rw [available, available, memory, show total _ _ = total Stage.waiting world.stage from waiting]
    rw [World.abstract_update after stages same world.abstract rfl]
    exact ⟨_, rfl, .single (call.begin_step (congrArg Stage.status idle))⟩
  · have waiting := total_update Stage.waiting world.stage thread next
    have here := sound.available
    have there := kept.available
    have same : (available after.semaphore after.stage : Int) - world.abstract.available =
        after.semaphore.count + next.waiting - (world.semaphore.count + (world.stage thread).waiting) := by
      rw [← stages] at waiting
      change (available after.semaphore after.stage : Int) - available world.semaphore world.stage = _
      omega
    obtain ⟨actions, inside, trace⟩ := (step_effect stepped).change.trace rfl (fun _ => sound.covers) same
    rw [World.abstract_update after stages rfl world.abstract rfl]
    refine ⟨_, fun entry member => ?_, trace⟩
    obtain ⟨action, among, rfl⟩ := List.mem_map.mp member
    exact ⟨rfl, inside action among⟩

theorem run_trace (ran : moves.foldlM (World.move maxSpins) world = some after)
    (sound : Sound world.semaphore world.stage) :
    ∃ actions : List (List (Thread × Action)), List.Forall₂ Move.Matches moves actions ∧
      ∀ n reached, (moves.take n).foldlM (World.move maxSpins) world = some reached →
        Trace world.abstract (actions.take n).flatten reached.abstract := by
  induction moves generalizing world with
  | nil =>
    refine ⟨[], .nil, fun n reached reaches => ?_⟩
    rw [List.take_nil] at reaches ⊢
    cases reaches
    exact .nil
  | cons move rest ih =>
    obtain ⟨next, moved, ran⟩ := Option.bind_eq_some_iff.mp ran
    obtain ⟨first, matched, front⟩ := move_trace moved sound
    obtain ⟨actions, all, follows⟩ := ih ran (move_sound moved sound)
    refine ⟨first :: actions, .cons matched all, fun n reached reaches => ?_⟩
    cases n with
    | zero =>
      cases reaches
      exact .nil
    | succ n =>
      rw [List.take_succ_cons, List.foldlM_cons, moved] at reaches
      exact front.append (follows n reached reaches)

/-- Spinning, counts below zero, tokens and the way back after a timeout come to the same as atomic operations on the
number of permits, move by move. -/
theorem semaphore_refines {initialCount : Nat}
    (ran : moves.foldlM (World.move maxSpins) (World.start initialCount) = some world) :
    ∃ actions : List (List (Thread × Action)), List.Forall₂ Move.Matches moves actions ∧
      ∀ n reached, (moves.take n).foldlM (World.move maxSpins) (World.start initialCount) = some reached →
        Trace ⟨initialCount, fun _ => .done 0⟩ (actions.take n).flatten reached.abstract := by
  have traced := run_trace ran (Sound.start initialCount)
  rwa [start_abstract] at traced

def sleeperMoves : List (Move Bool) :=
  [.call false (.wait (-1)), .run false .go, .run false .go, .call true (.signal 1), .run true .go, .run true .go,
    .run true .go, .run false .go]

theorem semaphore_refines_sleeper :
    ∃ (world : World Bool) (actions : List (List (Bool × Action))),
      sleeperMoves.foldlM (World.move 0) (World.start 0) = some world ∧ world.stage false = .done 1 ∧
        List.Forall₂ Move.Matches sleeperMoves actions ∧
          Trace ⟨0, fun _ => .done 0⟩ actions.flatten world.abstract := by
  have ran : ∃ world : World Bool, sleeperMoves.foldlM (World.move 0) (World.start 0) = some world ∧
      world.stage false = .done 1 := ⟨_, rfl, rfl⟩
  obtain ⟨world, ran, taken⟩ := ran
  obtain ⟨actions, matched, traced⟩ := semaphore_refines ran
  have all := traced sleeperMoves.length world (by rwa [List.take_length])
  rw [matched.length_eq, List.take_length] at all
  exact ⟨world, actions, ran, taken, matched, all⟩

/-- No wake-up is lost: when nothing goes on unless a new call is made, the threads inside a call sleep in a wait without
a timeout, and if there are any, all permits are taken. -/
theorem semaphore_stuck {initialCount : Nat}
    (ran : moves.foldlM (World.move maxSpins) (World.start initialCount) = some world)
    (stuck : ∀ thread choice, world.move maxSpins (.run thread choice) = none) (thread : Thread) :
    (∃ result, world.stage thread = .done result) ∨
      world.abstract.available = 0 ∧ world.semaphore.sema = 0 ∧ ∃ demand timeout_usecs wanted waits,
        world.stage thread = .sleep demand timeout_usecs wanted waits ∧ timeout_usecs < 0 := by
  have own : ∀ thread choice, step maxSpins (world.stage thread) choice world.semaphore = none := fun thread choice =>
    Option.map_eq_none_iff.mp (stuck thread choice)
  rcases stuck_cases (own thread) with idle | ⟨empty, demand, timeout_usecs, wanted, waits, asleep, long⟩
  · exact .inl idle
  · refine .inr ⟨?_, empty, demand, timeout_usecs, wanted, waits, asleep, long⟩
    refine (run_sound ran).none_available (by rw [asleep]; rfl) empty fun other => ?_
    rcases stuck_cases (own other) with ⟨result, idle⟩ | ⟨-, _, _, _, _, sleeps, -⟩
    · rw [idle]
      rfl
    · rw [sleeps]
      rfl

theorem semaphore_stuck_sleeper :
    ∃ world : World Bool, (sleeperMoves.take 3).foldlM (World.move 0) (World.start 0) = some world ∧
      world.semaphore.count = -1 ∧ world.abstract.available = 0 := by
  have asleep : ∃ world : World Bool,
      (sleeperMoves.take 3).foldlM (World.move 0) (World.start 0) = some world ∧ world.semaphore = ⟨-1, 0⟩ ∧
        world.stage true = .done 0 ∧ world.stage false = .sleep .one (-1) (by decide) (by decide) := ⟨_, rfl, rfl, rfl, rfl⟩
  obtain ⟨world, ran, memory, idle, asleep⟩ := asleep
  have stuck : ∀ thread choice, world.move 0 (.run thread choice) = none := by
    refine Bool.forall_bool.mpr ⟨fun choice => ?_, fun choice => ?_⟩
    · cases choice <;> simp [World.move, asleep, memory, step]
    · cases choice <;> simp [World.move, idle, step]
  rcases semaphore_stuck ran stuck false with ⟨result, awake⟩ | ⟨none, -, -⟩
  · rw [asleep] at awake
    cases awake
  · exact ⟨world, ran, congrArg count memory, none⟩

end Blockchain.LightweightSemaphore
