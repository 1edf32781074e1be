import Mathlib.Algebra.BigOperators.Fin
import MyBlockchain.Common.HashMap
import MyBlockchain.Library.CountedLoop
import MyBlockchain.Library.PartitionedMap

namespace Blockchain

open PartitionedMap (Map Splits)

/-- The array of `std::unordered_map`s in a `HashMap`. Every access of one is under its lock. -/
structure HashMapBuckets (N : Nat) (Key Value : Type) where
  maps : Fin N → Map Key Value

/-- A call on a `HashMap`. The reference that `operator[]` returns is read or assigned through. -/
inductive HashMapCall (Key Value : Type)
  | insert (key : Key) (value : Value)
  | remove (key : Key)
  | contains (key : Key)
  | read (key : Key)
  | assign (key : Key) (value : Value)
  | size
  | clear
  deriving DecidableEq

inductive HashMapResult (Value : Type)
  | flag (result : Bool)
  | value (value : Value)
  | size (size : Nat)
  | done
  deriving DecidableEq

/-- `map[key]` on one `std::unordered_map`. -/
def subscript {Key Value : Type} [DecidableEq Key] [Inhabited Value] (map : Map Key Value) (key : Key) :
    Map Key Value × Value :=
  match map.lookup key with
  | some value => (map, value)
  | none => (map.insert key default, default)

namespace HashMapBuckets

variable {N : Nat} {Key Value α : Type}

def new : HashMapBuckets N Key Value := { maps := fun _ => ∅ }

def apply (buckets : HashMapBuckets N Key Value) (applyFunc : Map Key Value → Map Key Value × α) (i : Fin N) :
    HashMapBuckets N Key Value × α :=
  let (map, result) := applyFunc (buckets.maps i)
  ({ maps := Function.update buckets.maps i map }, result)

@[simp] theorem apply_maps (buckets : HashMapBuckets N Key Value) (applyFunc : Map Key Value → Map Key Value × α)
    (i : Fin N) : (buckets.apply applyFunc i).1.maps = Function.update buckets.maps i (applyFunc (buckets.maps i)).1 :=
  rfl

@[simp] theorem apply_result (buckets : HashMapBuckets N Key Value) (applyFunc : Map Key Value → Map Key Value × α)
    (i : Fin N) : (buckets.apply applyFunc i).2 = (applyFunc (buckets.maps i)).2 := rfl

/-- The counter of the loop is an `unsigned int`. `none` while the loop goes on. -/
def map (fuel : Nat) (mapFunc : Map Key Value → Map Key Value) (buckets : HashMapBuckets N Key Value) :
    Option (HashMapBuckets N Key Value) :=
  (CountedLoop.run 32 (fun i (maps : Fin N → Map Key Value) => Function.update maps i (mapFunc (maps i))) fuel 0
    buckets.maps).map fun maps => { maps }

def fold (fuel : Nat) (firstValue : Int) (foldFunc : Nat → Map Key Value → Nat)
    (buckets : HashMapBuckets N Key Value) : Option Int :=
  CountedLoop.run 32
    (fun i (finalValue : Int) =>
      Int.bmod (foldFunc (finalValue % 2 ^ 64).toNat (buckets.maps i)) (2 ^ 32))
    fuel 0 firstValue

def size (fuel : Nat) (buckets : HashMapBuckets N Key Value) : Option Nat :=
  (buckets.fold fuel 0 fun totalSize map => (totalSize + map.keys.card) % 2 ^ 64).map fun size =>
    (size % 2 ^ 64).toNat

def clear (fuel : Nat) (buckets : HashMapBuckets N Key Value) : Option (HashMapBuckets N Key Value) :=
  buckets.map fuel fun _ => ∅

variable [DecidableEq Key] [Inhabited Value] [NeZero N] (hasher : Key → Nat)

def bucketNumber (key : Key) : Fin N := Fin.ofNat N (hasher key)

def remove (buckets : HashMapBuckets N Key Value) (key : Key) : HashMapBuckets N Key Value × Bool :=
  buckets.apply
    (fun map =>
      match map.lookup key with
      | none => (map, false)
      | some _ => (map.erase key, true))
    (bucketNumber hasher key)

def contains (buckets : HashMapBuckets N Key Value) (key : Key) : HashMapBuckets N Key Value × Bool :=
  buckets.apply (fun map => (map, (map.lookup key).isSome)) (bucketNumber hasher key)

def insert (buckets : HashMapBuckets N Key Value) (key : Key) (value : Value) :
    HashMapBuckets N Key Value × Bool :=
  buckets.apply
    (fun map =>
      match map.lookup key with
      | some _ => (map, false)
      | none => ((subscript map key).1.insert key value, true))
    (bucketNumber hasher key)

/-- `operator[]`, with the value its reference leads to. -/
def index (buckets : HashMapBuckets N Key Value) (key : Key) : HashMapBuckets N Key Value × Value :=
  buckets.apply (fun map => subscript map key) (bucketNumber hasher key)

def assign (buckets : HashMapBuckets N Key Value) (key : Key) (value : Value) : HashMapBuckets N Key Value :=
  (buckets.apply (fun map => ((subscript map key).1.insert key value, ())) (bucketNumber hasher key)).1

def call (fuel : Nat) (buckets : HashMapBuckets N Key Value) :
    HashMapCall Key Value → Option (HashMapBuckets N Key Value × HashMapResult Value)
  | .insert key value =>
    let (buckets, result) := buckets.insert hasher key value
    some (buckets, .flag result)
  | .remove key =>
    let (buckets, result) := buckets.remove hasher key
    some (buckets, .flag result)
  | .contains key =>
    let (buckets, result) := buckets.contains hasher key
    some (buckets, .flag result)
  | .read key =>
    let (buckets, value) := buckets.index hasher key
    some (buckets, .value value)
  | .assign key value => some (buckets.assign hasher key value, .done)
  | .size => (buckets.size fuel).map fun size => (buckets, .size size)
  | .clear => (buckets.clear fuel).map fun buckets => (buckets, .done)

def calls (fuel : Nat) : HashMapBuckets N Key Value → List (HashMapCall Key Value) → Option (List (HashMapResult Value))
  | _, [] => some []
  | buckets, call :: rest => do
    let (buckets, result) ← buckets.call hasher fuel call
    let results ← calls fuel buckets rest
    some (result :: results)

end HashMapBuckets

/-! What the calls are for: one map. -/

namespace SingleMap

variable {Key Value : Type} [DecidableEq Key] [Inhabited Value]

def call (map : Map Key Value) : HashMapCall Key Value → Map Key Value × HashMapResult Value
  | .insert key value => if key ∈ map then (map, .flag false) else (map.insert key value, .flag true)
  | .remove key => if key ∈ map then (map.erase key, .flag true) else (map, .flag false)
  | .contains key => (map, .flag (key ∈ map))
  | .read key =>
    match map.lookup key with
    | some value => (map, .value value)
    | none => (map.insert key default, .value default)
  | .assign key value => (map.insert key value, .done)
  | .size => (map, .size map.keys.card)
  | .clear => (∅, .done)

def calls (map : Map Key Value) : List (HashMapCall Key Value) → List (HashMapResult Value)
  | [] => []
  | first :: rest => (call map first).2 :: calls (call map first).1 rest

end SingleMap

end Blockchain
