import Mathlib.Logic.Function.Basic
import MyBlockchain.Library.Runs

/-- Threads that share a state. A thread tests the condition it waits for with the mutex of the variable it then
sleeps on, and each variable has one thread that waits on it and one that notifies it. -/
structure Monitor (State Action Thread Condition Mutex : Type*) where
  thread : Action → Thread
  step : Action → State → Option State
  waits : Thread → State → Option Condition
  ready : Thread → State → Bool
  uses : Thread → State → Option Mutex
  notifies : Action → State → Option Condition
  mutex : Condition → Mutex
  waiter : Condition → Thread
  notifier : Condition → Thread

namespace Monitor

/-- `tested` has found its condition false and still has the mutex; `notifying` has made its step and still has it. -/
inductive Status (Condition : Type*)
  | running
  | tested (condition : Condition)
  | blocked (condition : Condition)
  | notifying (condition : Condition)
  deriving DecidableEq

structure World (State Thread Condition Mutex : Type*) where
  state : State
  owner : Mutex → Option Thread
  status : Thread → Status Condition

inductive Move (Action Thread : Type*)
  | run (action : Action)
  | test (thread : Thread)
  | block (thread : Thread)
  | notify (thread : Thread)
  deriving DecidableEq

variable {State Action Thread Condition Mutex : Type*}

def start (state : State) : World State Thread Condition Mutex where
  state
  owner := fun _ => none
  status := fun _ => .running

section Step

variable [DecidableEq Thread] [DecidableEq Condition] [DecidableEq Mutex]

def wake (monitor : Monitor State Action Thread Condition Mutex) (status : Thread → Status Condition)
    (condition : Condition) : Thread → Status Condition :=
  let waiter := monitor.waiter condition
  if status waiter = .blocked condition then Function.update status waiter .running else status

/-- The mutex is given up when a thread falls asleep, and after a notification. -/
def move (monitor : Monitor State Action Thread Condition Mutex) (world : World State Thread Condition Mutex) :
    Move Action Thread → Option (World State Thread Condition Mutex)
  | .run action =>
    let thread := monitor.thread action
    if world.status thread = .running ∧ ∀ mutex ∈ monitor.uses thread world.state, world.owner mutex = none then
      (monitor.step action world.state).map fun state =>
        match monitor.notifies action world.state with
        | none => { world with state }
        | some condition =>
          { state
            owner := Function.update world.owner (monitor.mutex condition) (some thread)
            status := Function.update world.status thread (.notifying condition) }
    else none
  | .test thread =>
    match monitor.waits thread world.state with
    | none => none
    | some condition =>
      if world.status thread = .running ∧ world.owner (monitor.mutex condition) = none ∧
          monitor.ready thread world.state = false then
        some { world with
          owner := Function.update world.owner (monitor.mutex condition) (some thread)
          status := Function.update world.status thread (.tested condition) }
      else none
  | .block thread =>
    match world.status thread with
    | .tested condition =>
      some { world with
        owner := Function.update world.owner (monitor.mutex condition) none
        status := Function.update world.status thread (.blocked condition) }
    | _ => none
  | .notify thread =>
    match world.status thread with
    | .notifying condition =>
      some { world with
        owner := Function.update world.owner (monitor.mutex condition) none
        status := monitor.wake (Function.update world.status thread .running) condition }
    | _ => none

end Step

variable {monitor : Monitor State Action Thread Condition Mutex} {holds : State → Prop}

theorem wake_cases [DecidableEq Thread] [DecidableEq Condition] (status : Thread → Status Condition)
    (condition : Condition) (thread : Thread) :
    monitor.wake status condition thread = status thread ∨
      thread = monitor.waiter condition ∧ status thread = .blocked condition ∧
        monitor.wake status condition thread = .running := by
  unfold wake
  split
  · rename_i asleep
    by_cases same : thread = monitor.waiter condition
    · subst same
      exact .inr ⟨rfl, asleep, Function.update_self ..⟩
    · exact .inl (Function.update_of_ne same ..)
  · exact .inl rfl

theorem wake_waiter [DecidableEq Thread] [DecidableEq Condition] {status : Thread → Status Condition}
    {condition : Condition} (asleep : status (monitor.waiter condition) = .blocked condition) :
    monitor.wake status condition (monitor.waiter condition) = .running := by
  unfold wake
  rw [if_pos asleep, Function.update_self]

structure Lawful (monitor : Monitor State Action Thread Condition Mutex) (holds : State → Prop) : Prop where
  keeps : ∀ {action state after}, holds state → monitor.step action state = some after → holds after
  waiter : ∀ {thread state condition}, monitor.waits thread state = some condition → monitor.waiter condition = thread
  notifier : ∀ {action state condition}, monitor.notifies action state = some condition →
    monitor.notifier condition = monitor.thread action ∧
      monitor.uses (monitor.thread action) state = some (monitor.mutex condition)
  signals : ∀ {action state after thread condition}, holds state → monitor.step action state = some after →
    monitor.thread action ≠ thread → monitor.waits thread state = some condition →
    monitor.waits thread after = some condition ∧
      (monitor.ready thread after = true →
        monitor.ready thread state = true ∨ monitor.notifies action state = some condition)

/-- The mutex a thread has between two of its moves is that of the variable it is about to sleep on or to notify. -/
def Has (world : World State Thread Condition Mutex) (thread : Thread) (condition : Condition) : Prop :=
  world.status thread = .tested condition ∨ world.status thread = .notifying condition

/-- A thread does not sleep through its condition: somebody is about to notify it. -/
structure Sound (monitor : Monitor State Action Thread Condition Mutex) (holds : State → Prop)
    (world : World State Thread Condition Mutex) : Prop where
  state : holds world.state
  owner : ∀ thread condition, Has world thread condition → world.owner (monitor.mutex condition) = some thread
  has : ∀ mutex thread, world.owner mutex = some thread →
    ∃ condition, monitor.mutex condition = mutex ∧ Has world thread condition
  notifier : ∀ thread condition, world.status thread = .notifying condition → monitor.notifier condition = thread
  waits : ∀ thread condition, world.status thread = .tested condition ∨ world.status thread = .blocked condition →
    monitor.waits thread world.state = some condition
  tested : ∀ thread condition, world.status thread = .tested condition → monitor.ready thread world.state = false
  awake : ∀ thread condition, world.status thread = .blocked condition → monitor.ready thread world.state = true →
    world.status (monitor.notifier condition) = .notifying condition

theorem start_sound {state : State} (start : holds state) : monitor.Sound holds (Monitor.start state) where
  state := start
  owner _ _ has := by rcases has with has | has <;> cases has
  has _ _ owned := by cases owned
  notifier _ _ notifying := by cases notifying
  waits _ _ waits := by rcases waits with waits | waits <;> cases waits
  tested _ _ tested := by cases tested
  awake _ _ blocked := by cases blocked

variable {world next : World State Thread Condition Mutex}

theorem Sound.free (lawful : monitor.Lawful holds) (sound : monitor.Sound holds world) {mutex : Mutex}
    (idle : ∀ condition, monitor.mutex condition = mutex →
      world.status (monitor.waiter condition) ≠ .tested condition ∧
        world.status (monitor.notifier condition) ≠ .notifying condition) : world.owner mutex = none := by
  by_contra owned
  obtain ⟨thread, owned⟩ := Option.ne_none_iff_exists'.mp owned
  obtain ⟨condition, same, tested | notifying⟩ := sound.has mutex thread owned
  · have waiter := lawful.waiter (sound.waits thread condition (.inl tested))
    rw [← waiter] at tested
    exact (idle condition same).1 tested
  · rw [← sound.notifier thread condition notifying] at notifying
    exact (idle condition same).2 notifying

/-- A step leaves alone who waits. If it makes a condition true, or finds it so, there is a notification to come. -/
theorem Sound.signals (lawful : monitor.Lawful holds) (sound : monitor.Sound holds world) {action : Action}
    {state : State} (running : world.status (monitor.thread action) = .running)
    (stepped : monitor.step action world.state = some state) {thread : Thread} {condition : Condition}
    (waiting : world.status thread = .tested condition ∨ world.status thread = .blocked condition) :
    thread ≠ monitor.thread action ∧ monitor.waits thread state = some condition ∧
      (monitor.ready thread state = true → monitor.notifies action world.state = some condition ∨
        world.status thread = .blocked condition ∧
          world.status (monitor.notifier condition) = .notifying condition) := by
  have different : thread ≠ monitor.thread action := by
    rintro rfl
    rw [running] at waiting
    rcases waiting with tested | blocked
    · cases tested
    · cases blocked
  obtain ⟨waits, signals⟩ := lawful.signals sound.state stepped different.symm (sound.waits thread condition waiting)
  refine ⟨different, waits, fun ready => ?_⟩
  rcases signals ready with before | notified
  · rcases waiting with tested | blocked
    · rw [sound.tested thread condition tested] at before
      cases before
    · exact .inr ⟨blocked, sound.awake thread condition blocked before⟩
  · exact .inl notified

theorem Sound.quiet (lawful : monitor.Lawful holds) (sound : monitor.Sound holds world) {action : Action}
    {state : State} (running : world.status (monitor.thread action) = .running)
    (stepped : monitor.step action world.state = some state) (silent : monitor.notifies action world.state = none) :
    monitor.Sound holds { world with state } := by
  refine ⟨lawful.keeps sound.state stepped, sound.owner, sound.has, sound.notifier, ?_, ?_, ?_⟩
  · exact fun thread condition waiting => (sound.signals lawful running stepped waiting).2.1
  · intro thread condition tested
    by_contra ready
    rw [Bool.not_eq_false] at ready
    rcases (sound.signals lawful running stepped (.inl tested)).2.2 ready with notified | ⟨blocked, -⟩
    · rw [silent] at notified
      cases notified
    · exact absurd (tested.symm.trans blocked) (by simp)
  · intro thread condition blocked ready
    rcases (sound.signals lawful running stepped (.inr blocked)).2.2 ready with notified | ⟨-, notifying⟩
    · rw [silent] at notified
      cases notified
    · exact notifying

section Moves

variable [DecidableEq Mutex]

theorem Sound.takes [DecidableEq Thread] (sound : monitor.Sound holds world) {thread : Thread} {condition : Condition}
    {status : Status Condition} (running : world.status thread = .running)
    (free : world.owner (monitor.mutex condition) = none)
    (taken : status = .tested condition ∨ status = .notifying condition) (state : State) :
    let next : World State Thread Condition Mutex :=
      { state
        owner := Function.update world.owner (monitor.mutex condition) (some thread)
        status := Function.update world.status thread status }
    (∀ other there, Has next other there → next.owner (monitor.mutex there) = some other) ∧
      ∀ mutex other, next.owner mutex = some other → ∃ there, monitor.mutex there = mutex ∧ Has next other there := by
  intro next
  have self : next.status thread = status := Function.update_self ..
  have others : ∀ other, other ≠ thread → next.status other = world.status other := fun other different =>
    Function.update_of_ne different ..
  constructor
  · intro other there has
    by_cases same : other = thread
    · subst same
      obtain rfl : condition = there := by
        rcases taken with rfl | rfl <;> simpa [Has, self] using has
      exact Function.update_self ..
    · have owned := sound.owner other there (by simpa only [Has, others other same] using has)
      refine (Function.update_of_ne ?_ ..).trans owned
      intro equal
      rw [equal, free] at owned
      cases owned
  · intro mutex other owned
    by_cases same : mutex = monitor.mutex condition
    · subst same
      obtain rfl : thread = other := by simpa [next] using owned
      refine ⟨condition, rfl, ?_⟩
      rwa [Has, self]
    · obtain ⟨there, here, has⟩ := sound.has mutex other (by simpa [next, same] using owned)
      have different : other ≠ thread := by
        rintro rfl
        rcases has with has | has <;> rw [running] at has <;> cases has
      exact ⟨there, here, by rwa [Has, others other different]⟩

theorem Sound.release (sound : monitor.Sound holds world) {thread : Thread} {condition : Condition}
    (has : Has world thread condition) {status : Thread → Status Condition}
    (mine : ∀ other, status thread ≠ .tested other ∧ status thread ≠ .notifying other)
    (others : ∀ other there, other ≠ thread →
      ((status other = .tested there ↔ world.status other = .tested there) ∧
        (status other = .notifying there ↔ world.status other = .notifying there)))
    (blocked : ∀ other there, status other = .blocked there →
      monitor.waits other world.state = some there ∧
        (monitor.ready other world.state = true → status (monitor.notifier there) = .notifying there)) :
    monitor.Sound holds { world with
      owner := Function.update world.owner (monitor.mutex condition) none, status } := by
  have different : ∀ other there, status other = .tested there ∨ status other = .notifying there → other ≠ thread := by
    rintro other there busy rfl
    exact busy.elim (mine there).1 (mine there).2
  have before : ∀ other there, status other = .tested there ∨ status other = .notifying there →
      Has world other there := fun other there busy =>
    busy.imp (others other there (different other there busy)).1.mp (others other there (different other there busy)).2.mp
  constructor
  case state => exact sound.state
  case owner =>
    intro other there has'
    have owned := sound.owner other there (before other there has')
    have apart : monitor.mutex there ≠ monitor.mutex condition := by
      intro equal
      rw [equal, sound.owner thread condition has] at owned
      exact different other there has' (Option.some.inj owned).symm
    exact (Function.update_of_ne apart ..).trans owned
  case has =>
    intro mutex other owned
    have apart : mutex ≠ monitor.mutex condition := by
      rintro rfl
      simp at owned
    have owned : world.owner mutex = some other := by simpa [apart] using owned
    obtain ⟨there, here, has'⟩ := sound.has mutex other owned
    have other_ne : other ≠ thread := by
      rintro rfl
      refine apart (here.symm.trans (congrArg monitor.mutex ?_))
      rcases has with has | has <;> rcases has' with has' | has' <;> rw [has] at has' <;> cases has' <;> rfl
    exact ⟨there, here, has'.imp (others other there other_ne).1.mpr (others other there other_ne).2.mpr⟩
  case notifier =>
    intro other there notifying
    have old := (others other there (different other there (.inr notifying))).2.mp notifying
    exact sound.notifier other there old
  case waits =>
    intro other there waiting
    rcases waiting with tested | asleep
    · have old := (others other there (different other there (.inl tested))).1.mp tested
      exact sound.waits other there (.inl old)
    · exact (blocked other there asleep).1
  case tested =>
    intro other there tested
    exact sound.tested other there ((others other there (different other there (.inl tested))).1.mp tested)
  case awake => exact fun other there asleep => (blocked other there asleep).2

variable [DecidableEq Thread]

theorem Sound.notifies (lawful : monitor.Lawful holds) (sound : monitor.Sound holds world) {action : Action}
    {state : State} {condition : Condition} (running : world.status (monitor.thread action) = .running)
    (free : world.owner (monitor.mutex condition) = none)
    (stepped : monitor.step action world.state = some state)
    (notified : monitor.notifies action world.state = some condition) :
    monitor.Sound holds
      { state
        owner := Function.update world.owner (monitor.mutex condition) (some (monitor.thread action))
        status := Function.update world.status (monitor.thread action) (.notifying condition) } := by
  have mine := (lawful.notifier notified).1
  obtain ⟨owner, has⟩ := sound.takes running free (.inr rfl) state
  have signals := fun {thread other} => @Sound.signals _ _ _ _ _ _ _ _ lawful sound _ _ running stepped thread other
  have before : ∀ {thread status}, status ≠ .notifying condition →
      Function.update world.status (monitor.thread action) (.notifying condition) thread = status →
      world.status thread = status := by
    intro thread status different here
    by_cases same : thread = monitor.thread action
    · rw [same, Function.update_self] at here
      exact absurd here.symm different
    · rwa [Function.update_of_ne same] at here
  constructor
  case state => exact lawful.keeps sound.state stepped
  case owner => exact owner
  case has => exact has
  case notifier =>
    intro thread other notifying
    by_cases same : thread = monitor.thread action
    · subst same
      obtain rfl : condition = other := by simpa using notifying
      exact mine
    · exact sound.notifier thread other (by simpa [same] using notifying)
  case waits =>
    intro thread other waiting
    exact (signals (waiting.imp (before (by simp)) (before (by simp)))).2.1
  case tested =>
    intro thread other tested
    have tested := before (by simp) tested
    by_contra ready
    rw [Bool.not_eq_false] at ready
    rcases (signals (.inl tested)).2.2 ready with same | ⟨blocked, -⟩
    · -- the thread that found its condition false still has the mutex
      cases notified.symm.trans same
      rw [sound.owner thread condition (.inl tested)] at free
      cases free
    · exact absurd (tested.symm.trans blocked) (by simp)
  case awake =>
    intro thread other blocked ready
    dsimp only
    rcases (signals (.inr (before (by simp) blocked))).2.2 ready with same | ⟨-, notifying⟩
    · cases notified.symm.trans same
      rw [mine, Function.update_self]
    · refine (Function.update_of_ne ?_ ..).trans notifying
      intro same
      rw [same, running] at notifying
      cases notifying

theorem Sound.test (sound : monitor.Sound holds world) {thread : Thread} {condition : Condition}
    (waits : monitor.waits thread world.state = some condition) (running : world.status thread = .running)
    (free : world.owner (monitor.mutex condition) = none) (unready : monitor.ready thread world.state = false) :
    monitor.Sound holds { world with
      owner := Function.update world.owner (monitor.mutex condition) (some thread)
      status := Function.update world.status thread (.tested condition) } := by
  have others : ∀ other, world.status other ≠ .running → other ≠ thread := by
    rintro other busy rfl
    exact busy running
  obtain ⟨owner, has⟩ := sound.takes running free (.inl rfl) world.state
  constructor
  case state => exact sound.state
  case owner => exact owner
  case has => exact has
  case notifier =>
    intro other there notifying
    have different : other ≠ thread := by
      rintro rfl
      simp at notifying
    exact sound.notifier other there (by simpa [different] using notifying)
  case waits =>
    intro other there waiting
    by_cases same : other = thread
    · subst same
      obtain rfl : condition = there := by simpa using waiting
      exact waits
    · exact sound.waits other there (by simpa [same] using waiting)
  case tested =>
    intro other there tested
    by_cases same : other = thread
    · rw [same]
      exact unready
    · exact sound.tested other there (by simpa [same] using tested)
  case awake =>
    intro other there blocked ready
    have different : other ≠ thread := by
      rintro rfl
      simp at blocked
    have notifying := sound.awake other there (by simpa [different] using blocked) ready
    exact (Function.update_of_ne (others _ (by simp [notifying])) ..).trans notifying

theorem Sound.block (sound : monitor.Sound holds world) {thread : Thread} {condition : Condition}
    (tested : world.status thread = .tested condition) :
    monitor.Sound holds { world with
      owner := Function.update world.owner (monitor.mutex condition) none
      status := Function.update world.status thread (.blocked condition) } := by
  refine sound.release (.inl tested) (fun other => by simp) (fun other there different => by simp [different]) ?_
  intro other there blocked
  by_cases same : other = thread
  · subst same
    obtain rfl : condition = there := by simpa using blocked
    refine ⟨sound.waits other condition (.inl tested), fun ready => ?_⟩
    rw [sound.tested other condition tested] at ready
    cases ready
  · have before : world.status other = .blocked there := by simpa [same] using blocked
    refine ⟨sound.waits other there (.inr before), fun ready => ?_⟩
    have notifying := sound.awake other there before ready
    have different : monitor.notifier there ≠ thread := by
      rintro equal
      rw [equal, tested] at notifying
      cases notifying
    rw [Function.update_of_ne different, notifying]

variable [DecidableEq Condition]

theorem Sound.wake (lawful : monitor.Lawful holds) (sound : monitor.Sound holds world) {thread : Thread}
    {condition : Condition} (notifying : world.status thread = .notifying condition) :
    monitor.Sound holds { world with
      owner := Function.update world.owner (monitor.mutex condition) none
      status := monitor.wake (Function.update world.status thread .running) condition } := by
  let before := Function.update world.status thread .running
  have self : monitor.wake before condition thread = .running := by
    rcases monitor.wake_cases before condition thread with same | ⟨-, -, woken⟩
    · rw [same]
      exact Function.update_self ..
    · exact woken
  have cases : ∀ other, other ≠ thread → monitor.wake before condition other = world.status other ∨
      world.status other = .blocked condition ∧ monitor.wake before condition other = .running := by
    intro other different
    have kept : before other = world.status other := Function.update_of_ne different ..
    rw [← kept]
    exact (monitor.wake_cases before condition other).imp_right And.right
  refine sound.release (.inr notifying) (fun other => ?_) (fun other there different => ?_) fun other there asleep => ?_
  · rw [self]
    simp
  · rcases cases other different with same | ⟨slept, woken⟩
    · rw [same]
      exact ⟨Iff.rfl, Iff.rfl⟩
    · rw [slept, woken]
      simp
  · have different : other ≠ thread := by
      rintro rfl
      rw [self] at asleep
      cases asleep
    rcases cases other different with same | ⟨-, woken⟩
    · have slept : world.status other = .blocked there := same.symm.trans asleep
      have waits := sound.waits other there (.inr slept)
      refine ⟨waits, fun ready => ?_⟩
      have pending := sound.awake other there slept ready
      by_cases mine : monitor.notifier there = thread
      · -- the notification is for the thread that sleeps on the variable, which is awake now
        rw [mine, notifying] at pending
        cases pending
        have waiter := lawful.waiter waits
        subst waiter
        rw [monitor.wake_waiter ((Function.update_of_ne different ..).trans slept)] at asleep
        cases asleep
      · rcases cases _ mine with kept | ⟨blocked, -⟩
        · rw [kept, pending]
        · rw [pending] at blocked
          cases blocked
    · rw [woken] at asleep
      cases asleep

theorem Sound.move (lawful : monitor.Lawful holds) (sound : monitor.Sound holds world)
    {move : Move Action Thread} (moved : monitor.move world move = some next) : monitor.Sound holds next := by
  cases move with
  | run action =>
    obtain ⟨⟨running, free⟩, moved⟩ := Option.ite_none_right_eq_some.mp moved
    obtain ⟨state, stepped, rfl⟩ := Option.map_eq_some_iff.mp moved
    split
    · next silent => exact sound.quiet lawful running stepped silent
    · next condition notified =>
      exact sound.notifies lawful running (free _ (lawful.notifier notified).2) stepped notified
  | test thread =>
    simp only [Monitor.move] at moved
    split at moved
    · cases moved
    · next condition waits =>
      obtain ⟨⟨running, free, unready⟩, same⟩ := Option.ite_none_right_eq_some.mp moved
      cases same
      exact sound.test waits running free unready
  | block thread =>
    simp only [Monitor.move] at moved
    split at moved
    · next condition tested =>
      cases moved
      exact sound.block tested
    · cases moved
  | notify thread =>
    simp only [Monitor.move] at moved
    split at moved
    · next condition notifying =>
      cases moved
      exact sound.wake lawful notifying
    · cases moved

theorem move_run {action : Action} {state : State} (running : world.status (monitor.thread action) = .running)
    (free : ∀ mutex ∈ monitor.uses (monitor.thread action) world.state, world.owner mutex = none)
    (stepped : monitor.step action world.state = some state) : (monitor.move world (.run action)).isSome := by
  unfold Monitor.move
  dsimp only
  rw [if_pos ⟨running, free⟩, stepped]
  rfl

theorem Sound.run (lawful : monitor.Lawful holds) {state : State} (start : holds state)
    {moves : List (Move Action Thread)} (ran : moves.foldlM monitor.move (Monitor.start state) = some next) :
    monitor.Sound holds next :=
  Runs.invariant (monitor.Sound holds) (fun moved sound => sound.move lawful moved) ran (start_sound start)

end Moves

end Monitor
