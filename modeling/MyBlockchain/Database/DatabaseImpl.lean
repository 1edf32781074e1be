import Mathlib.Logic.Function.Basic
import MyBlockchain.Library.Overwrite
import MyBlockchain.Transaction.MockTransaction

namespace Blockchain

open Overwrite

/-- Where a storage keeps the value of a (table, key) pair. -/
abbrev SlotOf (Slot : Type) := Bytes × Bytes → Slot

/-- LevelDB is asked with the key alone. -/
def LevelDBStorage.slotOf : SlotOf Bytes := Prod.snd

def tableSlotOf : SlotOf (Bytes × Bytes) := id

abbrev Contents (Slot : Type) := Slot → Option Bytes

/-- `selectDB`: the value of an absent key is the empty string. -/
def selectDB {Slot : Type} (slotOf : SlotOf Slot) (db : Contents Slot) (key : Bytes × Bytes) : Bytes :=
  (db (slotOf key)).getD []

def KVWrite.effect {Slot : Type} (slotOf : SlotOf Slot) (write : KVWrite) : Slot × Option Bytes :=
  (slotOf (write.table, write.key), if write.isDelete then none else some write.value)

def KVRWSet.effects {Slot : Type} (slotOf : SlotOf Slot) (kvRWSet : KVRWSet) : List (Slot × Option Bytes) :=
  kvRWSet.writes.map (KVWrite.effect slotOf)

structure DatabaseImpl (Slot : Type) where
  db : Contents Slot
  commitPhase : Bool
  rwSetBuffer : Nat → Option Ref
  tableListBuffer : Nat → Option (List Bytes)

namespace DatabaseImpl

variable {Slot : Type}

def initial (db : Contents Slot) : DatabaseImpl Slot :=
  { db, commitPhase := false, rwSetBuffer := fun _ => none, tableListBuffer := fun _ => none }

def clearBufferThreadSafe (database : DatabaseImpl Slot) : DatabaseImpl Slot :=
  if database.commitPhase then
    { database with rwSetBuffer := fun _ => none, tableListBuffer := fun _ => none, commitPhase := false }
  else database

/-- The read/write set is passed by address: it is the one inside the transaction object. -/
def bufferUpdates (database : DatabaseImpl Slot) (tid : Nat) (kvRWSet : Ref) (tableList : List Bytes) :
    DatabaseImpl Slot :=
  let database := if database.commitPhase then database.clearBufferThreadSafe else database
  { database with
    rwSetBuffer := Function.update database.rwSetBuffer tid (some kvRWSet)
    tableListBuffer := Function.update database.tableListBuffer tid (some tableList) }

@[simp] theorem bufferUpdates_db (database : DatabaseImpl Slot) (tid : Nat) (kvRWSet : Ref)
    (tableList : List Bytes) : (database.bufferUpdates tid kvRWSet tableList).db = database.db := by
  unfold bufferUpdates clearBufferThreadSafe
  split <;> rfl

@[simp] theorem bufferUpdates_commitPhase (database : DatabaseImpl Slot) (tid : Nat) (kvRWSet : Ref)
    (tableList : List Bytes) : (database.bufferUpdates tid kvRWSet tableList).commitPhase = false := by
  unfold bufferUpdates clearBufferThreadSafe
  by_cases latch : database.commitPhase = true <;> simp [latch]

@[simp] theorem bufferUpdates_self (database : DatabaseImpl Slot) (tid : Nat) (kvRWSet : Ref)
    (tableList : List Bytes) :
    (database.bufferUpdates tid kvRWSet tableList).rwSetBuffer tid = some kvRWSet := by
  simp [bufferUpdates]

theorem bufferUpdates_other (database : DatabaseImpl Slot) {tid other : Nat} (kvRWSet : Ref)
    (tableList : List Bytes) (down : database.commitPhase = false) (different : other ≠ tid) :
    (database.bufferUpdates tid kvRWSet tableList).rwSetBuffer other = database.rwSetBuffer other := by
  simp [bufferUpdates, down, different]

theorem bufferUpdates_isSome {database : DatabaseImpl Slot} {tid other : Nat} (r : Ref) (tableList : List Bytes)
    (there : other = tid ∨ database.commitPhase = false ∧ (database.rwSetBuffer other).isSome) :
    ((database.bufferUpdates tid r tableList).rwSetBuffer other).isSome := by
  by_cases same : other = tid
  · rw [same, bufferUpdates_self]
    rfl
  · obtain ⟨down, before⟩ := there.resolve_left same
    rw [bufferUpdates_other _ _ _ down same]
    exact before

section Commit

variable [DecidableEq Slot]

/-- `none` is the null pointer `rwSetBuffer` gives for a transaction that was never buffered. -/
def commitUpdate (slotOf : SlotOf Slot) (heap : Heap) (database : DatabaseImpl Slot) (tid : Nat) :
    Option (DatabaseImpl Slot × Bool) :=
  if database.commitPhase then some (database, true)
  else
    (database.rwSetBuffer tid).map fun kvRWSet =>
      ({ database with
        db := overwrite database.db ((heap kvRWSet).kvrwSet.effects slotOf)
        commitPhase := true }, true)

theorem commitUpdate_latched (slotOf : SlotOf Slot) (heap : Heap) {database : DatabaseImpl Slot} (tid : Nat)
    (latched : database.commitPhase = true) :
    database.commitUpdate slotOf heap tid = some (database, true) := by
  simp [commitUpdate, latched]

theorem commitUpdate_first (slotOf : SlotOf Slot) (heap : Heap) {database : DatabaseImpl Slot} {tid : Nat}
    {kvRWSet : Ref} (down : database.commitPhase = false) (buffered : database.rwSetBuffer tid = some kvRWSet) :
    database.commitUpdate slotOf heap tid =
      some ({ database with
        db := overwrite database.db ((heap kvRWSet).kvrwSet.effects slotOf), commitPhase := true }, true) := by
  simp [commitUpdate, down, buffered]

end Commit

end DatabaseImpl

end Blockchain
