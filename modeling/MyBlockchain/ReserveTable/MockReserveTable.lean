import Mathlib.Logic.Function.Basic
import Mathlib.Tactic.Tauto
import MyBlockchain.Transaction.MockTransaction

namespace Blockchain

/-- The `HashMap` of `HashMap`s from table and key to a transaction id; a missing cell reads 0. -/
abbrev TableList := Bytes × Bytes → Nat

/-- The do-while loop of `reserveRWset` on one cell, `none` while it is still running after that many
rounds. The exchange compares the cell, which the line above has just overwritten, with the old value. -/
def reserveLoop (transactionID : Nat) : Nat → Nat → Option Nat
  | 0, _ => none
  | rounds + 1, cell =>
    if cell ≤ transactionID ∧ cell ≠ 0 then some cell
    else if transactionID = cell then some transactionID
    else reserveLoop transactionID rounds transactionID

def reserveCell (transactionID cell : Nat) : Nat :=
  (reserveLoop transactionID 2 cell).getD cell

theorem reserveLoop_two (transactionID cell : Nat) :
    reserveLoop transactionID 2 cell =
      some (if cell ≤ transactionID ∧ cell ≠ 0 then cell else transactionID) := by
  by_cases kept : cell ≤ transactionID ∧ cell ≠ 0
  · simp [reserveLoop, kept]
  · by_cases same : transactionID = cell <;> simp [reserveLoop, kept, same]

theorem reserveLoop_succ {transactionID rounds cell result : Nat}
    (stopped : reserveLoop transactionID rounds cell = some result) :
    reserveLoop transactionID (rounds + 1) cell = some result := by
  induction rounds generalizing cell with
  | zero => cases stopped
  | succ rounds ih =>
    rw [reserveLoop] at stopped ⊢
    split at stopped
    · rename_i kept
      rw [if_pos kept]
      exact stopped
    · rename_i notKept
      rw [if_neg notKept]
      split at stopped
      · rename_i same
        rw [if_pos same]
        exact stopped
      · rename_i notSame
        rw [if_neg notSame]
        exact ih stopped

theorem reserveLoop_terminates (transactionID cell rounds : Nat) :
    reserveLoop transactionID (rounds + 2) cell = some (reserveCell transactionID cell) := by
  induction rounds with
  | zero => rw [reserveCell, reserveLoop_two]; rfl
  | succ rounds ih => exact reserveLoop_succ ih

def reservedBefore (cell transactionID : Nat) : Bool := cell ≠ 0 ∧ transactionID > cell

theorem reserveCell_before (transactionID cell later : Nat) (nonzero : transactionID ≠ 0) :
    reservedBefore (reserveCell transactionID cell) later ↔
      reservedBefore cell later ∨ transactionID < later := by
  simp only [reserveCell, reserveLoop_two, Option.getD_some, reservedBefore, decide_eq_true_eq]
  split <;> omega

structure MockReserveTable where
  epoch : Nat
  readTableList : TableList
  writeTableList : TableList

structure TransactionDependency where
  raw : Bool
  waw : Bool
  war : Bool
  deriving DecidableEq, Repr

namespace MockReserveTable

def new (epoch : Nat) : MockReserveTable :=
  { epoch, readTableList := fun _ => 0, writeTableList := fun _ => 0 }

def reserveRead (transactionID : Nat) (table : MockReserveTable) (read : KVRead) : MockReserveTable :=
  let cell := reserveCell transactionID (table.readTableList (read.table, read.key))
  { table with readTableList := Function.update table.readTableList (read.table, read.key) cell }

def reserveWrite (transactionID : Nat) (table : MockReserveTable) (write : KVWrite) : MockReserveTable :=
  let cell := reserveCell transactionID (table.writeTableList (write.table, write.key))
  { table with writeTableList := Function.update table.writeTableList (write.table, write.key) cell }

def reserveRWset (table : MockReserveTable) (kvRWSet : KVRWSet) (transactionID : Nat) : MockReserveTable :=
  kvRWSet.writes.foldl (reserveWrite transactionID) (kvRWSet.reads.foldl (reserveRead transactionID) table)

def dependencyAnalysis (table : MockReserveTable) (kvRWSet : KVRWSet) (transactionID : Nat) :
    TransactionDependency where
  waw := kvRWSet.writes.any fun write =>
    reservedBefore (table.writeTableList (write.table, write.key)) transactionID
  war := kvRWSet.writes.any fun write =>
    reservedBefore (table.readTableList (write.table, write.key)) transactionID
  raw := kvRWSet.reads.any fun read =>
    reservedBefore (table.writeTableList (read.table, read.key)) transactionID

theorem foldl_reserveRead_frame (transactionID : Nat) (reads : List KVRead) (table : MockReserveTable) :
    (reads.foldl (reserveRead transactionID) table).epoch = table.epoch ∧
    (reads.foldl (reserveRead transactionID) table).writeTableList = table.writeTableList := by
  induction reads generalizing table with
  | nil => exact ⟨rfl, rfl⟩
  | cons read reads ih => exact ih (table.reserveRead transactionID read)

theorem foldl_reserveWrite_frame (transactionID : Nat) (writes : List KVWrite) (table : MockReserveTable) :
    (writes.foldl (reserveWrite transactionID) table).epoch = table.epoch ∧
    (writes.foldl (reserveWrite transactionID) table).readTableList = table.readTableList := by
  induction writes generalizing table with
  | nil => exact ⟨rfl, rfl⟩
  | cons write writes ih => exact ih (table.reserveWrite transactionID write)

theorem foldl_reserveRead_before (transactionID : Nat) (nonzero : transactionID ≠ 0) (reads : List KVRead)
    (table : MockReserveTable) (key : Bytes × Bytes) (later : Nat) :
    reservedBefore ((reads.foldl (reserveRead transactionID) table).readTableList key) later ↔
      reservedBefore (table.readTableList key) later ∨
        (∃ read ∈ reads, (read.table, read.key) = key) ∧ transactionID < later := by
  induction reads generalizing table with
  | nil => simp
  | cons read reads ih =>
    rw [List.foldl_cons, ih (table.reserveRead transactionID read)]
    by_cases same : (read.table, read.key) = key
    · subst same
      simp only [reserveRead, Function.update_self, reserveCell_before _ _ _ nonzero, List.mem_cons,
        exists_eq_or_imp, true_or, true_and]
      tauto
    · simp [reserveRead, Function.update_of_ne (Ne.symm same), same]

theorem foldl_reserveWrite_before (transactionID : Nat) (nonzero : transactionID ≠ 0)
    (writes : List KVWrite) (table : MockReserveTable) (key : Bytes × Bytes) (later : Nat) :
    reservedBefore ((writes.foldl (reserveWrite transactionID) table).writeTableList key) later ↔
      reservedBefore (table.writeTableList key) later ∨
        (∃ write ∈ writes, (write.table, write.key) = key) ∧ transactionID < later := by
  induction writes generalizing table with
  | nil => simp
  | cons write writes ih =>
    rw [List.foldl_cons, ih (table.reserveWrite transactionID write)]
    by_cases same : (write.table, write.key) = key
    · subst same
      simp only [reserveWrite, Function.update_self, reserveCell_before _ _ _ nonzero, List.mem_cons,
        exists_eq_or_imp, true_or, true_and]
      tauto
    · simp [reserveWrite, Function.update_of_ne (Ne.symm same), same]

@[simp] theorem reserveRWset_epoch (table : MockReserveTable) (kvRWSet : KVRWSet) (transactionID : Nat) :
    (table.reserveRWset kvRWSet transactionID).epoch = table.epoch := by
  rw [reserveRWset, (foldl_reserveWrite_frame _ _ _).1, (foldl_reserveRead_frame _ _ _).1]

theorem reserveRWset_reader (table : MockReserveTable) (kvRWSet : KVRWSet) (transactionID : Nat)
    (nonzero : transactionID ≠ 0) (key : Bytes × Bytes) (later : Nat) :
    reservedBefore ((table.reserveRWset kvRWSet transactionID).readTableList key) later ↔
      reservedBefore (table.readTableList key) later ∨ key ∈ kvRWSet.readKeys ∧ transactionID < later := by
  rw [reserveRWset, (foldl_reserveWrite_frame _ _ _).2]
  exact foldl_reserveRead_before transactionID nonzero _ _ key later

theorem reserveRWset_writer (table : MockReserveTable) (kvRWSet : KVRWSet) (transactionID : Nat)
    (nonzero : transactionID ≠ 0) (key : Bytes × Bytes) (later : Nat) :
    reservedBefore ((table.reserveRWset kvRWSet transactionID).writeTableList key) later ↔
      reservedBefore (table.writeTableList key) later ∨ key ∈ kvRWSet.writeKeys ∧ transactionID < later := by
  rw [reserveRWset, foldl_reserveWrite_before transactionID nonzero, (foldl_reserveRead_frame _ _ _).2]
  rfl

/-- The table answers every comparison as the given `reserveRWset` calls require. -/
structure Holds (table : MockReserveTable) (calls : List (KVRWSet × Nat)) : Prop where
  reader : ∀ key later, reservedBefore (table.readTableList key) later ↔
    ∃ call ∈ calls, key ∈ call.1.readKeys ∧ call.2 < later
  writer : ∀ key later, reservedBefore (table.writeTableList key) later ↔
    ∃ call ∈ calls, key ∈ call.1.writeKeys ∧ call.2 < later

theorem new_holds (epoch : Nat) : (new epoch).Holds [] := by
  constructor <;> simp [new, reservedBefore]

theorem Holds.reserve {table : MockReserveTable} {calls : List (KVRWSet × Nat)} (holds : table.Holds calls)
    (kvRWSet : KVRWSet) (transactionID : Nat) (nonzero : transactionID ≠ 0) :
    (table.reserveRWset kvRWSet transactionID).Holds (calls ++ [(kvRWSet, transactionID)]) := by
  constructor
  · intro key later
    rw [reserveRWset_reader _ _ _ nonzero, holds.reader]
    simp [or_and_right, exists_or]
  · intro key later
    rw [reserveRWset_writer _ _ _ nonzero, holds.writer]
    simp [or_and_right, exists_or]

section Dependency

variable {table : MockReserveTable} {calls : List (KVRWSet × Nat)} (holds : table.Holds calls)
  (kvRWSet : KVRWSet) (transactionID : Nat)

include holds

theorem Holds.waw_iff : (table.dependencyAnalysis kvRWSet transactionID).waw = true ↔
    ∃ call ∈ calls, call.2 < transactionID ∧ ∃ key ∈ call.1.writeKeys, key ∈ kvRWSet.writeKeys := by
  simp only [dependencyAnalysis, List.any_eq_true, holds.writer]
  constructor
  · rintro ⟨write, member, call, called, writer, less⟩
    exact ⟨call, called, less, _, writer, write, member, rfl⟩
  · rintro ⟨call, called, less, key, writer, write, member, rfl⟩
    exact ⟨write, member, call, called, writer, less⟩

theorem Holds.war_iff : (table.dependencyAnalysis kvRWSet transactionID).war = true ↔
    ∃ call ∈ calls, call.2 < transactionID ∧ ∃ key ∈ call.1.readKeys, key ∈ kvRWSet.writeKeys := by
  simp only [dependencyAnalysis, List.any_eq_true, holds.reader]
  constructor
  · rintro ⟨write, member, call, called, reader, less⟩
    exact ⟨call, called, less, _, reader, write, member, rfl⟩
  · rintro ⟨call, called, less, key, reader, write, member, rfl⟩
    exact ⟨write, member, call, called, reader, less⟩

theorem Holds.raw_iff : (table.dependencyAnalysis kvRWSet transactionID).raw = true ↔
    ∃ call ∈ calls, call.2 < transactionID ∧ ∃ key ∈ call.1.writeKeys, key ∈ kvRWSet.readKeys := by
  simp only [dependencyAnalysis, List.any_eq_true, holds.writer]
  constructor
  · rintro ⟨read, member, call, called, writer, less⟩
    exact ⟨call, called, less, _, writer, read, member, rfl⟩
  · rintro ⟨call, called, less, key, writer, read, member, rfl⟩
    exact ⟨read, member, call, called, writer, less⟩

end Dependency

end MockReserveTable

end Blockchain
