import Mathlib.Logic.Relation
import MyBlockchain.Common.ConcurrentHashMap

/-! What a `HashMap` is for: one map, on which the calls of all threads take effect one after the other. -/

namespace Blockchain

open PartitionedMap (Map)

/-- A call has not taken effect, is in its loop over the places, has a reference, or has its result. -/
inductive AtomicStage (Key Value : Type)
  | idle
  | called (call : HashMapCall Key Value)
  | passing (call : HashMapCall Key Value) (i : Nat) (finalValue : Int)
  | access (call : HashMapCall Key Value) (key : Key) (node : Nat)
  | answer (call : HashMapCall Key Value) (result : Option (HashMapResult Value))

structure AtomicMap (Thread Key Value : Type) where
  whole : Map Key Value
  freed : Key → Nat
  stage : Thread → AtomicStage Key Value
  returned : List (Thread × HashMapCall Key Value × Option (HashMapResult Value))

/-- `operator[]` returns a reference to a node. -/
def HashMapCall.refers {Key Value : Type} : HashMapCall Key Value → Bool
  | .read _ | .assign .. => true
  | _ => false

namespace AtomicMap

variable {N : Nat} {Thread Key Value : Type}

def start : AtomicMap Thread Key Value := ⟨∅, fun _ => 0, fun _ => .idle, []⟩

variable [DecidableEq Thread]

def set (spec : AtomicMap Thread Key Value) (thread : Thread) (stage : AtomicStage Key Value) :
    AtomicMap Thread Key Value :=
  { spec with stage := Function.update spec.stage thread stage }

def begin (call : HashMapCall Key Value) : AtomicStage Key Value :=
  match call.key with
  | some _ => .called call
  | none => .passing call 0 0

variable [DecidableEq Key]

/-- `remove` frees the node of its key. -/
def freedBy (spec : AtomicMap Thread Key Value) : HashMapCall Key Value → Key → Nat
  | .remove key => if key ∈ spec.whole then Function.update spec.freed key (spec.freed key + 1) else spec.freed
  | _ => spec.freed

variable [Inhabited Value]

/-- The call with all it does, on the one map. -/
def perform (spec : AtomicMap Thread Key Value) (thread : Thread) (call : HashMapCall Key Value) :
    AtomicMap Thread Key Value :=
  { spec.set thread (.answer call (some (SingleMap.call spec.whole call).2)) with
    whole := (SingleMap.call spec.whole call).1
    freed := spec.freedBy call }

/-- `size` counts and `clear` erases the keys of one place in a step. -/
inductive Step (place : Key → Fin N) (spec : AtomicMap Thread Key Value) : AtomicMap Thread Key Value → Prop
  | call (thread : Thread) (call : HashMapCall Key Value) (idle : spec.stage thread = .idle) :
      Step place spec (spec.set thread (begin call))
  | perform (thread : Thread) (call : HashMapCall Key Value) (here : spec.stage thread = .called call)
      (direct : call.refers = false) : Step place spec (spec.perform thread call)
  | refer (thread : Thread) (call : HashMapCall Key Value) (key : Key) (here : spec.stage thread = .called call)
      (refers : call.refers = true) (own : call.key = some key) :
      Step place spec { spec.set thread (.access call key (spec.freed key)) with
        whole := (SingleMap.call spec.whole (.read key)).1 }
  | access (thread : Thread) (call : HashMapCall Key Value) (key : Key)
      (here : spec.stage thread = .access call key (spec.freed key)) : Step place spec (spec.perform thread call)
  | dangling (thread : Thread) (call : HashMapCall Key Value) (key : Key) (node : Nat)
      (here : spec.stage thread = .access call key node) (gone : spec.freed key ≠ node) :
      Step place spec (spec.set thread (.answer call none))
  | count (thread : Thread) (i : Fin N) (finalValue : Int) (here : spec.stage thread = .passing .size i finalValue) :
      Step place spec (spec.set thread (.passing .size ((i + 1) % 2 ^ 32)
        (ConcurrentHashMap.addSize finalValue {key ∈ spec.whole.keys | place key = i}.card)))
  | wipe (thread : Thread) (i : Fin N) (finalValue : Int) (after : Map Key Value)
      (here : spec.stage thread = .passing .clear i finalValue)
      (wiped : ∀ key, after.lookup key = if place key = i then none else spec.whole.lookup key) :
      Step place spec { spec.set thread (.passing .clear ((i + 1) % 2 ^ 32) finalValue) with
        whole := after
        freed := fun key => if place key = i ∧ key ∈ spec.whole then spec.freed key + 1 else spec.freed key }
  | finish (thread : Thread) (call : HashMapCall Key Value) (i : Nat) (finalValue : Int)
      (here : spec.stage thread = .passing call i finalValue) (all : N ≤ i) :
      Step place spec (spec.set thread (.answer call (some (ConcurrentHashMap.passed call finalValue))))
  | return (thread : Thread) (call : HashMapCall Key Value) (result : Option (HashMapResult Value))
      (here : spec.stage thread = .answer call result) :
      Step place spec { spec.set thread .idle with returned := spec.returned ++ [(thread, call, result)] }

/-- Any number of steps. -/
def Steps (place : Key → Fin N) : AtomicMap Thread Key Value → AtomicMap Thread Key Value → Prop :=
  Relation.ReflTransGen (Step place)

end AtomicMap

end Blockchain
