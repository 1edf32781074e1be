import Mathlib.Logic.Function.Basic

namespace CountingSemaphore

/-- `taking` has some permits already and may take as many more as there is room for. A patient call does not come back
before it has one. -/
inductive Status
  | done (permits : Nat)
  | taking (permits room : Nat) (patient : Bool)
  | raising (permits : Nat)
  deriving DecidableEq, Repr

def Status.permits : Status → Nat
  | .done permits | .taking permits _ _ | .raising permits => permits

/-- A semaphore with atomic operations. A call that takes permits may take them in several grabs. -/
structure World (Thread : Type*) where
  available : Nat
  status : Thread → Status

variable {Thread : Type*} [DecidableEq Thread]

def World.set (world : World Thread) (available : Nat) (thread : Thread) (status : Status) : World Thread :=
  { available, status := Function.update world.status thread status }

/-- Permits are grabbed in one go or in several. -/
inductive Action
  | take (room : Nat) (patient : Bool)
  | raise (count : Nat)
  | grab (count : Nat)
  | finish (permits : Nat)
  | signal (count : Nat)
  deriving DecidableEq, Repr

def Action.begins : Action → Bool
  | .take .. | .raise _ => true
  | .grab _ | .finish _ | .signal _ => false

inductive Step (world : World Thread) (thread : Thread) : Action → World Thread → Prop
  | take {permits : Nat} (room : Nat) (patient : Bool) (idle : world.status thread = .done permits) :
      Step world thread (.take room patient) (world.set world.available thread (.taking 0 room patient))
  | raise {permits : Nat} (count : Nat) (idle : world.status thread = .done permits) :
      Step world thread (.raise count) (world.set world.available thread (.raising count))
  | grab {permits room : Nat} {patient : Bool} (count : Nat) (taking : world.status thread = .taking permits room patient)
      (positive : 0 < count) (fits : count ≤ room) (enough : count ≤ world.available) :
      Step world thread (.grab count)
        (world.set (world.available - count) thread (.taking (permits + count) (room - count) false))
  | finish {permits room : Nat} (taking : world.status thread = .taking permits room false) :
      Step world thread (.finish permits) (world.set world.available thread (.done permits))
  | signal {count : Nat} (raising : world.status thread = .raising count) :
      Step world thread (.signal count) (world.set (world.available + count) thread (.done 0))

inductive Trace : World Thread → List (Thread × Action) → World Thread → Prop
  | nil {world : World Thread} : Trace world [] world
  | cons {world after final : World Thread} {thread : Thread} {action : Action} {rest : List (Thread × Action)}
      (step : Step world thread action after) (trace : Trace after rest final) :
      Trace world ((thread, action) :: rest) final

variable {world : World Thread} {thread : Thread}

theorem World.set_set (available later : Nat) (status final : Status) :
    (world.set available thread status).set later thread final = world.set later thread final := by
  rw [set, set, set, Function.update_idem]

theorem World.set_status (available : Nat) (status : Status) :
    (world.set available thread status).status thread = status := Function.update_self ..

variable {after final : World Thread} {action : Action}

theorem Trace.single (step : Step world thread action after) : Trace world [(thread, action)] after := .cons step .nil

theorem Trace.append {first second : List (Thread × Action)} (front : Trace world first after)
    (back : Trace after second final) : Trace world (first ++ second) final := by
  induction front with
  | nil => exact back
  | cons step trace ih => exact .cons step (ih back)

theorem grab_finish {permits room : Nat} {patient : Bool} (count : Nat)
    (taking : world.status thread = .taking permits room patient) (positive : 0 < count) (fits : count ≤ room)
    (enough : count ≤ world.available) :
    Trace world [(thread, .grab count), (thread, .finish (permits + count))]
      (world.set (world.available - count) thread (.done (permits + count))) := by
  have back := @Step.finish _ _ (world.set (world.available - count) thread _) thread (permits + count)
    (room - count) (World.set_status ..)
  rw [World.set_set] at back
  exact .cons (.grab count taking positive fits enough) (.single back)

end CountingSemaphore
