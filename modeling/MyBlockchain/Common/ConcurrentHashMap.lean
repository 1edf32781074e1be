import Mathlib.Data.Finset.Lattice.Fold
import MyBlockchain.Common.HashMapBuckets

namespace Blockchain

open PartitionedMap (Map)

/-- Where a thread is in a call on a `HashMap` that others use too. `loop` is the head of the loop over the buckets,
`applyFunc` the begin of what is done to a bucket under its lock, `put` and `erase` what follows a `find`. The access
through the reference that `operator[]` returns is not under the lock: `node` tells the node of the key that it leads to
from those before and after. -/
inductive HashMapStage (N : Nat) (Key Value : Type)
  | idle
  | loop (call : HashMapCall Key Value) (i : Nat) (finalValue : Int)
  | lock (call : HashMapCall Key Value) (i : Fin N) (finalValue : Int)
  | applyFunc (call : HashMapCall Key Value) (i : Fin N) (finalValue : Int)
  | put (key : Key) (value : Value) (i : Fin N)
  | erase (key : Key) (i : Fin N)
  | unlock (i : Fin N) (next : HashMapStage N Key Value)
  | access (call : HashMapCall Key Value) (key : Key) (node : Nat)
  | answer (call : HashMapCall Key Value) (result : Option (HashMapResult Value))

/-- A call that has returned, without a result if it used a reference to a node that was freed. Ghosts: the keys that
were there all the time, and those that were there at some time. -/
structure HashMapReturn (Thread Key Value : Type) where
  thread : Thread
  call : HashMapCall Key Value
  result : Option (HashMapResult Value)
  always : Finset Key
  ever : Finset Key

/-- The buckets and their locks. `freed` counts the nodes of a key that have been freed. -/
structure ConcurrentHashMap (N : Nat) (Thread Key Value : Type) where
  maps : Fin N → Map Key Value
  locks : Fin N → Bool
  freed : Key → Nat
  stage : Thread → HashMapStage N Key Value
  returned : List (HashMapReturn Thread Key Value)
  always : Thread → Finset Key
  ever : Thread → Finset Key

inductive HashMapMove (Thread Key Value : Type)
  | call (thread : Thread) (call : HashMapCall Key Value)
  | run (thread : Thread)

/-- `size` and `clear` visit every bucket, the others that of their key. -/
def HashMapCall.key {Key Value : Type} : HashMapCall Key Value → Option Key
  | .insert key _ | .remove key | .contains key | .read key | .assign key _ => some key
  | .size | .clear => none

namespace ConcurrentHashMap

variable {N : Nat} {Thread Key Value : Type}

def start : ConcurrentHashMap N Thread Key Value :=
  { maps := fun _ => ∅, locks := fun _ => false, freed := fun _ => 0, stage := fun _ => .idle, returned := [],
    always := fun _ => ∅, ever := fun _ => ∅ }

/-- `totalSize + map.size()`, kept in the `int` of `fold`. -/
def addSize (finalValue : Int) (size : Nat) : Int :=
  Int.bmod (((finalValue % 2 ^ 64).toNat + size) % 2 ^ 64 : Nat) (2 ^ 32)

def passed (call : HashMapCall Key Value) (finalValue : Int) : HashMapResult Value :=
  match call with
  | .size => .size (finalValue % 2 ^ 64).toNat
  | _ => .done

variable [DecidableEq Thread]

def set (world : ConcurrentHashMap N Thread Key Value) (thread : Thread) (stage : HashMapStage N Key Value) :
    ConcurrentHashMap N Thread Key Value :=
  { world with stage := Function.update world.stage thread stage }

variable [DecidableEq Key]

def keys (world : ConcurrentHashMap N Thread Key Value) : Finset Key :=
  Finset.univ.biUnion fun i => (world.maps i).keys

variable [Inhabited Value] [NeZero N] (hasher : Key → Nat)

open HashMapBuckets (bucketNumber)

def begin (call : HashMapCall Key Value) : HashMapStage N Key Value :=
  match call.key with
  | some key => .lock call (bucketNumber hasher key) 0
  | none => .loop call 0 0

/-- The first operation on the bucket. -/
def applyStep (world : ConcurrentHashMap N Thread Key Value) (thread : Thread) (i : Fin N) (finalValue : Int) :
    HashMapCall Key Value → ConcurrentHashMap N Thread Key Value
  | .insert key value =>
    world.set thread
      (match (world.maps i).lookup key with
      | some _ => .unlock i (.answer (.insert key value) (some (.flag false)))
      | none => .put key value i)
  | .remove key =>
    world.set thread
      (match (world.maps i).lookup key with
      | none => .unlock i (.answer (.remove key) (some (.flag false)))
      | some _ => .erase key i)
  | .contains key =>
    world.set thread (.unlock i (.answer (.contains key) (some (.flag ((world.maps i).lookup key).isSome))))
  | .read key =>
    { world.set thread (.unlock i (.access (.read key) key (world.freed key))) with
      maps := Function.update world.maps i (subscript (world.maps i) key).1 }
  | .assign key value =>
    { world.set thread (.unlock i (.access (.assign key value) key (world.freed key))) with
      maps := Function.update world.maps i (subscript (world.maps i) key).1 }
  | .size =>
    world.set thread (.unlock i (.loop .size ((i + 1) % 2 ^ 32) (addSize finalValue (world.maps i).keys.card)))
  | .clear =>
    { world.set thread (.unlock i (.loop .clear ((i + 1) % 2 ^ 32) finalValue)) with
      maps := Function.update world.maps i ∅
      freed := fun key => if key ∈ world.maps i then world.freed key + 1 else world.freed key }

/-- The next atomic operation of a thread. -/
def run (world : ConcurrentHashMap N Thread Key Value) (thread : Thread) :
    Option (ConcurrentHashMap N Thread Key Value) :=
  match world.stage thread with
  | .idle => none
  | .loop call i finalValue =>
    some (world.set thread
      (if inside : i < N then .lock call ⟨i, inside⟩ finalValue else .answer call (some (passed call finalValue))))
  -- `while (_flag.test_and_set());` of a `SpinLock`, or the wait of a `std::mutex`: `HASH_MAP_LOCK_TYPE` is one of them
  | .lock call i finalValue =>
    some (if world.locks i then world
      else { world.set thread (.applyFunc call i finalValue) with locks := Function.update world.locks i true })
  | .applyFunc call i finalValue => some (world.applyStep thread i finalValue call)
  | .put key value i =>
    some { world.set thread (.unlock i (.answer (.insert key value) (some (.flag true)))) with
      maps := Function.update world.maps i ((subscript (world.maps i) key).1.insert key value) }
  | .erase key i =>
    some { world.set thread (.unlock i (.answer (.remove key) (some (.flag true)))) with
      maps := Function.update world.maps i ((world.maps i).erase key)
      freed := Function.update world.freed key (world.freed key + 1) }
  | .unlock i next => some { world.set thread next with locks := Function.update world.locks i false }
  | .access call key node =>
    let i := bucketNumber hasher key
    some (if world.freed key = node then
        match call with
        | .assign _ value =>
          { world.set thread (.answer call (some .done)) with
            maps := Function.update world.maps i ((world.maps i).insert key value) }
        | _ => world.set thread (.answer call (((world.maps i).lookup key).map .value))
      else world.set thread (.answer call none))
  | .answer call result =>
    some { world.set thread .idle with
      returned := world.returned ++ [⟨thread, call, result, world.always thread, world.ever thread⟩] }

/-- What the ghosts see of the keys after a step. -/
def observe (world : ConcurrentHashMap N Thread Key Value) : ConcurrentHashMap N Thread Key Value :=
  { world with always := fun thread => world.always thread ∩ world.keys
               ever := fun thread => world.ever thread ∪ world.keys }

def step (world : ConcurrentHashMap N Thread Key Value) :
    HashMapMove Thread Key Value → Option (ConcurrentHashMap N Thread Key Value)
  | .call thread call =>
    match world.stage thread with
    | .idle =>
      some { world.set thread (begin hasher call) with
        always := Function.update world.always thread world.keys
        ever := Function.update world.ever thread world.keys }
    | _ => none
  | .run thread => (world.run hasher thread).map observe

end ConcurrentHashMap

end Blockchain
