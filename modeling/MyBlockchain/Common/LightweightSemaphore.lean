import Mathlib.Logic.Function.Basic

namespace Blockchain

/-- The memory its threads share: `m_count`, which goes below zero by one for each thread that waits, and the value of
the system semaphore `m_sema`. The count has no bound here: it is that of the code while fewer than `2 ^ 63` permits
are there. -/
structure LightweightSemaphore where
  count : Int
  sema : Nat
  deriving DecidableEq, Repr

namespace LightweightSemaphore

/-- A negative timeout is none. -/
inductive Call
  | tryWait
  | wait (timeout_usecs : Int)
  | tryWaitMany (max : Nat)
  | waitMany (max : Nat) (timeout_usecs : Int)
  | signal (count : Nat)
  deriving DecidableEq, Repr

/-- The functions come in two kinds, for one permit and for up to `max`. -/
inductive Demand
  | one
  | many (max : Nat)
  deriving DecidableEq, Repr

def Demand.max : Demand → Nat
  | .one => 1
  | .many max => max

/-- What the two kinds put for `oldCount`. -/
def Demand.newCount : Demand → Int → Int
  | .one, oldCount => oldCount - 1
  | .many max, oldCount => if oldCount > max then oldCount - max else 0

/-- Where `tryWait` and `tryWaitMany` are called: for themselves, or in `1 + tryWaitMany(max - 1)` with one permit
held, or in a `wait` that goes on if they get nothing. -/
inductive Purpose
  | attempt (held : Nat)
  | wait (timeout_usecs : Int)
  deriving DecidableEq, Repr

def Purpose.held : Purpose → Nat
  | .attempt held => held
  | .wait _ => 0

/-- What a thread does next. `load` and `exchange` are the loop of `tryWait` and `tryWaitMany`. -/
inductive Stage
  | done (result : Nat)
  | load (purpose : Purpose) (demand : Demand)
  | exchange (purpose : Purpose) (demand : Demand) (oldCount : Int) (positive : 0 < oldCount)
  | spin (left : Nat) (demand : Demand) (timeout_usecs : Int) (wanted : 0 < demand.max)
  | spinExchange (left : Nat) (demand : Demand) (timeout_usecs : Int) (wanted : 0 < demand.max) (oldCount : Int)
      (positive : 0 < oldCount)
  | sleep (demand : Demand) (timeout_usecs : Int) (wanted : 0 < demand.max) (waits : timeout_usecs ≠ 0)
  | adjust (demand : Demand) (wanted : 0 < demand.max)
  | adjustTake (demand : Demand) (wanted : 0 < demand.max)
  | adjustBack (demand : Demand) (wanted : 0 < demand.max) (oldCount : Int) (negative : oldCount < 0)
  | add (count : Nat)
  | post (left : Nat)
  deriving DecidableEq, Repr

def Call.begin : Call → Stage
  | .tryWait => .load (.attempt 0) .one
  | .wait timeout_usecs => .load (.wait timeout_usecs) .one
  | .tryWaitMany max => .load (.attempt 0) (.many max)
  | .waitMany max timeout_usecs => .load (.wait timeout_usecs) (.many max)
  | .signal count => .add count

/-- The head of the loop of `tryWait` and `tryWaitMany`, where `oldCount` has just been read. `waitMany` goes on to wait
if it got nothing and `max > 0`. -/
def tryLoop (maxSpins : Nat) (purpose : Purpose) (demand : Demand) (oldCount : Int) : Stage :=
  if positive : 0 < oldCount then .exchange purpose demand oldCount positive
  else match purpose with
    | .attempt held => .done held
    | .wait timeout_usecs =>
      if wanted : 0 < demand.max then .spin maxSpins demand timeout_usecs wanted else .done 0

/-- With the one permit that was waited for: `return true`, or `if (max > 1) return 1 + tryWaitMany(max - 1)`. -/
def Demand.acquired : Demand → Stage
  | .one => .done 1
  | .many max => if max > 1 then .load (.attempt 1) (.many (max - 1)) else .done 1

/-- `go` is the step the program says, `weak` a failure of `compare_exchange_weak` with an equal count. -/
inductive Choice
  | go
  | weak
  | timeOut
  deriving DecidableEq, Repr

/-- One atomic operation. `none` is for a choice there is not, or for a sleeper that cannot go on. -/
def step (maxSpins : Nat) : Stage → Choice → LightweightSemaphore → Option (LightweightSemaphore × Stage)
  | .load purpose demand, .go, semaphore =>
    some (semaphore, tryLoop maxSpins purpose demand semaphore.count)
  | .exchange purpose demand oldCount _, .go, semaphore =>
    if semaphore.count = oldCount then
      some ({ semaphore with count := demand.newCount oldCount },
        .done (purpose.held + (oldCount - demand.newCount oldCount).toNat))
    else some (semaphore, tryLoop maxSpins purpose demand semaphore.count)
  | .exchange purpose demand _ _, .weak, semaphore =>
    some (semaphore, tryLoop maxSpins purpose demand semaphore.count)
  | .spin (left + 1) demand timeout_usecs wanted, .go, semaphore =>
    some (semaphore,
      if positive : 0 < semaphore.count then .spinExchange left demand timeout_usecs wanted semaphore.count positive
      else .spin left demand timeout_usecs wanted)
  | .spinExchange left demand timeout_usecs wanted oldCount _, .go, semaphore =>
    if semaphore.count = oldCount then
      some ({ semaphore with count := demand.newCount oldCount },
        .done (oldCount - demand.newCount oldCount).toNat)
    else some (semaphore, .spin left demand timeout_usecs wanted)
  -- the `fetch_sub` after the last spin
  | .spin 0 demand timeout_usecs wanted, .go, semaphore =>
    some ({ semaphore with count := semaphore.count - 1 },
      if 0 < semaphore.count then demand.acquired
      else if waits : timeout_usecs = 0 then .adjust demand wanted
      else .sleep demand timeout_usecs wanted waits)
  | .sleep demand _ _ _, .go, semaphore =>
    if 0 < semaphore.sema then some ({ semaphore with sema := semaphore.sema - 1 }, demand.acquired) else none
  | .sleep demand timeout_usecs wanted _, .timeOut, semaphore =>
    if 0 < timeout_usecs then some (semaphore, .adjust demand wanted) else none
  | .adjust demand wanted, .go, semaphore =>
    some (semaphore,
      if negative : semaphore.count < 0 then .adjustBack demand wanted semaphore.count negative
      else .adjustTake demand wanted)
  -- `m_sema.try_wait()`
  | .adjustTake demand wanted, .go, semaphore =>
    if 0 < semaphore.sema then some ({ semaphore with sema := semaphore.sema - 1 }, demand.acquired)
    else some (semaphore, .adjust demand wanted)
  | .adjustBack demand wanted oldCount _, .go, semaphore =>
    if semaphore.count = oldCount then some ({ semaphore with count := oldCount + 1 }, .done 0)
    else some (semaphore, .adjust demand wanted)
  | .add count, .go, semaphore =>
    let toRelease := if -semaphore.count < count then -semaphore.count else count
    some ({ semaphore with count := semaphore.count + count },
      if toRelease > 0 then .post toRelease.toNat else .done 0)
  | .post (left + 1), .go, semaphore => some ({ semaphore with sema := semaphore.sema + 1 }, .post left)
  | .post 0, .go, semaphore => some (semaphore, .done 0)
  | _, _, _ => none

def availableApprox (semaphore : LightweightSemaphore) : Nat :=
  if semaphore.count > 0 then semaphore.count.toNat else 0

structure World (Thread : Type*) where
  semaphore : LightweightSemaphore
  stage : Thread → Stage

inductive Move (Thread : Type*)
  | call (thread : Thread) (call : Call)
  | run (thread : Thread) (choice : Choice)
  deriving DecidableEq, Repr

variable {Thread : Type*}

def World.start (initialCount : Nat) : World Thread := ⟨⟨initialCount, 0⟩, fun _ => .done 0⟩

def World.move [DecidableEq Thread] (maxSpins : Nat) (world : World Thread) : Move Thread → Option (World Thread)
  | .call thread call =>
    match world.stage thread with
    | .done _ => some { world with stage := Function.update world.stage thread call.begin }
    | _ => none
  | .run thread choice =>
    (step maxSpins (world.stage thread) choice world.semaphore).map fun (semaphore, stage) =>
      { semaphore, stage := Function.update world.stage thread stage }

end LightweightSemaphore

end Blockchain
