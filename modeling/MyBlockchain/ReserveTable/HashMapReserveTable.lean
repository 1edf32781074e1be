import Mathlib.Data.List.Induction
import MyBlockchain.Common.HashMap
import MyBlockchain.ReserveTable.MockReserveTable

namespace Blockchain

/-- `readTableList` or `writeTableList` as the map of maps it is. -/
abbrev NestedTables := HashMap Bytes (HashMap Bytes Nat)

namespace NestedTables

/-- The number a cell holds, 0 where there is no table or no key. -/
def view (tables : NestedTables) : TableList :=
  fun cell => (((tables cell.1).getD default) cell.2).getD 0

def load (tables : NestedTables) (cell : Bytes × Bytes) : NestedTables × Nat :=
  let (tables, keys) := tables.lookup cell.1
  let (keys, value) := keys.lookup cell.2
  (Function.update tables cell.1 (some keys), value)

def store (tables : NestedTables) (cell : Bytes × Bytes) (value : Nat) : NestedTables :=
  let (tables, keys) := tables.lookup cell.1
  let (keys, _) := keys.lookup cell.2
  Function.update tables cell.1 (some (Function.update keys cell.2 (some value)))

/-- The do-while loop on one cell, `none` while it still runs after that many rounds. -/
def reserve (transactionID : Nat) (cell : Bytes × Bytes) : Nat → NestedTables → Option NestedTables
  | 0, _ => none
  | rounds + 1, tables =>
    let (tables, old) := tables.load cell
    if old ≤ transactionID ∧ old ≠ 0 then some tables
    else
      let tables := tables.store cell transactionID
      let (tables, current) := tables.load cell
      -- where the two agree the weak exchange may still fail, but with a nonzero ID they never do
      if current = old then some (tables.store cell transactionID)
      else reserve transactionID cell rounds tables

/-- A loop of `dependencyAnalysis`, which stops at the first cell an earlier transaction holds. -/
def anyBefore (transactionID : Nat) : NestedTables → List (Bytes × Bytes) → NestedTables × Bool
  | tables, [] => (tables, false)
  | tables, cell :: rest =>
    let (tables, old) := tables.load cell
    if old ≠ 0 ∧ transactionID > old then (tables, true) else anyBefore transactionID tables rest

theorem load_value (tables : NestedTables) (cell : Bytes × Bytes) : (tables.load cell).2 = tables.view cell := by
  simp only [load, HashMap.lookup_value, view]
  rfl

@[simp] theorem load_view (tables : NestedTables) (cell : Bytes × Bytes) :
    (tables.load cell).1.view = tables.view := by
  funext other
  simp only [load, HashMap.lookup_value, HashMap.lookup_map, view, Function.update_idem]
  by_cases table : other.1 = cell.1
  · rw [table, Function.update_self, Option.getD_some]
    by_cases key : other.2 = cell.2
    · rw [key, Function.update_self]
      rfl
    · rw [Function.update_of_ne key]
  · rw [Function.update_of_ne table]

@[simp] theorem store_view (tables : NestedTables) (cell : Bytes × Bytes) (value : Nat) :
    (tables.store cell value).view = Function.update tables.view cell value := by
  funext other
  simp only [store, HashMap.lookup_value, HashMap.lookup_map, view, Function.update_idem]
  by_cases same : other = cell
  · rw [same]
    simp
  · rw [Function.update_of_ne same]
    by_cases table : other.1 = cell.1
    · have key : other.2 ≠ cell.2 := fun key => same (Prod.ext table key)
      rw [view, table, Function.update_self, Option.getD_some, Function.update_of_ne key]
    · rw [view, Function.update_of_ne table]

theorem reserve_view (transactionID : Nat) (nonzero : transactionID ≠ 0) (cell : Bytes × Bytes) (rounds : Nat)
    (tables : NestedTables) :
    ∃ after, reserve transactionID cell (rounds + 2) tables = some after ∧
      after.view = Function.update tables.view cell (reserveCell transactionID (tables.view cell)) := by
  unfold reserve
  simp only [load_value, load_view, store_view, Function.update_self]
  by_cases kept : tables.view cell ≤ transactionID ∧ tables.view cell ≠ 0
  · rw [if_pos kept]
    refine ⟨_, rfl, ?_⟩
    rw [load_view, reserveCell, reserveLoop_two, if_pos kept]
    exact (Function.update_eq_self cell tables.view).symm
  · have differs : transactionID ≠ tables.view cell := by
      intro same
      exact kept ⟨Nat.le_of_eq same.symm, same ▸ nonzero⟩
    rw [if_neg kept, if_neg differs]
    unfold reserve
    simp only [load_value, load_view, store_view, Function.update_self]
    rw [if_pos ⟨Nat.le_refl _, nonzero⟩]
    refine ⟨_, rfl, ?_⟩
    rw [load_view, load_view, store_view, load_view, reserveCell, reserveLoop_two, if_neg kept]
    rfl

theorem anyBefore_view (transactionID : Nat) (cells : List (Bytes × Bytes)) (tables : NestedTables) :
    (anyBefore transactionID tables cells).1.view = tables.view ∧
    (anyBefore transactionID tables cells).2 = cells.any fun cell => reservedBefore (tables.view cell) transactionID := by
  induction cells generalizing tables with
  | nil => exact ⟨rfl, rfl⟩
  | cons cell rest ih =>
    obtain ⟨view, found⟩ := ih (tables.load cell).1
    unfold anyBefore
    simp only [load_value]
    by_cases before : tables.view cell ≠ 0 ∧ transactionID > tables.view cell
    · simp [reservedBefore, before]
    · rw [if_neg before, view, found, load_view, List.any_cons, reservedBefore, decide_eq_false before]
      exact ⟨rfl, rfl⟩

end NestedTables

structure HashMapReserveTable where
  epoch : Nat
  readTableList : NestedTables
  writeTableList : NestedTables

/-- The calls a table answers. -/
inductive TableCall
  | reserveRWset (kvRWSet : KVRWSet) (transactionID : Nat)
  | dependencyAnalysis (kvRWSet : KVRWSet) (transactionID : Nat)

def TableCall.reservations (calls : List TableCall) : List (KVRWSet × Nat) :=
  calls.filterMap fun
    | .reserveRWset kvRWSet transactionID => some (kvRWSet, transactionID)
    | .dependencyAnalysis _ _ => none

def KVRead.cell (read : KVRead) : Bytes × Bytes := (read.table, read.key)

def KVWrite.cell (write : KVWrite) : Bytes × Bytes := (write.table, write.key)

namespace HashMapReserveTable

def new (epoch : Nat) : HashMapReserveTable :=
  { epoch, readTableList := fun _ => none, writeTableList := fun _ => none }

def reserveRead (rounds transactionID : Nat) (table : HashMapReserveTable) (read : KVRead) :
    Option HashMapReserveTable :=
  (NestedTables.reserve transactionID read.cell rounds table.readTableList).map
    ({ table with readTableList := · })

def reserveWrite (rounds transactionID : Nat) (table : HashMapReserveTable) (write : KVWrite) :
    Option HashMapReserveTable :=
  (NestedTables.reserve transactionID write.cell rounds table.writeTableList).map
    ({ table with writeTableList := · })

def reserveRWset (rounds : Nat) (table : HashMapReserveTable) (kvRWSet : KVRWSet) (transactionID : Nat) :
    Option HashMapReserveTable := do
  let table ← kvRWSet.reads.foldlM (reserveRead rounds transactionID) table
  kvRWSet.writes.foldlM (reserveWrite rounds transactionID) table

def dependencyAnalysis (table : HashMapReserveTable) (kvRWSet : KVRWSet) (transactionID : Nat) :
    HashMapReserveTable × TransactionDependency :=
  let (writeTableList, waw) :=
    NestedTables.anyBefore transactionID table.writeTableList (kvRWSet.writes.map KVWrite.cell)
  let (readTableList, war) :=
    NestedTables.anyBefore transactionID table.readTableList (kvRWSet.writes.map KVWrite.cell)
  let (writeTableList, raw) :=
    NestedTables.anyBefore transactionID writeTableList (kvRWSet.reads.map KVRead.cell)
  ({ table with readTableList, writeTableList }, { raw, waw, war })

def step (rounds : Nat) (table : HashMapReserveTable) : TableCall → Option HashMapReserveTable
  | .reserveRWset kvRWSet transactionID => table.reserveRWset rounds kvRWSet transactionID
  | .dependencyAnalysis kvRWSet transactionID => some (table.dependencyAnalysis kvRWSet transactionID).1

def run (rounds epoch : Nat) (calls : List TableCall) : Option HashMapReserveTable :=
  calls.foldlM (step rounds) (new epoch)

def view (table : HashMapReserveTable) : MockReserveTable where
  epoch := table.epoch
  readTableList := table.readTableList.view
  writeTableList := table.writeTableList.view

theorem reserveRead_view (transactionID : Nat) (nonzero : transactionID ≠ 0) (rounds : Nat)
    (table : HashMapReserveTable) (read : KVRead) :
    ∃ after, reserveRead (rounds + 2) transactionID table read = some after ∧
      after.view = table.view.reserveRead transactionID read := by
  obtain ⟨tables, ended, view⟩ :=
    NestedTables.reserve_view transactionID nonzero read.cell rounds table.readTableList
  refine ⟨{ table with readTableList := tables }, by rw [reserveRead, ended]; rfl, ?_⟩
  unfold HashMapReserveTable.view MockReserveTable.reserveRead
  rw [view]
  rfl

theorem reserveWrite_view (transactionID : Nat) (nonzero : transactionID ≠ 0) (rounds : Nat)
    (table : HashMapReserveTable) (write : KVWrite) :
    ∃ after, reserveWrite (rounds + 2) transactionID table write = some after ∧
      after.view = table.view.reserveWrite transactionID write := by
  obtain ⟨tables, ended, view⟩ :=
    NestedTables.reserve_view transactionID nonzero write.cell rounds table.writeTableList
  refine ⟨{ table with writeTableList := tables }, by rw [reserveWrite, ended]; rfl, ?_⟩
  unfold HashMapReserveTable.view MockReserveTable.reserveWrite
  rw [view]
  rfl

theorem foldlM_view {α : Type} {concrete : HashMapReserveTable → α → Option HashMapReserveTable}
    {abstract : MockReserveTable → α → MockReserveTable} {items : List α}
    (step : ∀ item ∈ items, ∀ table : HashMapReserveTable,
      ∃ after, concrete table item = some after ∧ after.view = abstract table.view item)
    (table : HashMapReserveTable) :
    ∃ after, items.foldlM concrete table = some after ∧ after.view = items.foldl abstract table.view := by
  induction items generalizing table with
  | nil => exact ⟨table, rfl, rfl⟩
  | cons item rest ih =>
    obtain ⟨next, stepped, view⟩ := step item (.head _) table
    obtain ⟨after, ended, same⟩ := ih (fun item member => step item (.tail _ member)) next
    refine ⟨after, ?_, ?_⟩
    · rw [List.foldlM_cons, stepped]
      exact ended
    · rw [same, view]
      rfl

theorem reserveRWset_view (transactionID : Nat) (nonzero : transactionID ≠ 0) (rounds : Nat)
    (table : HashMapReserveTable) (kvRWSet : KVRWSet) :
    ∃ after, table.reserveRWset (rounds + 2) kvRWSet transactionID = some after ∧
      after.view = table.view.reserveRWset kvRWSet transactionID := by
  have readStep : ∀ item ∈ kvRWSet.reads, _ :=
    fun item _ table => reserveRead_view transactionID nonzero rounds table item
  have writeStep : ∀ item ∈ kvRWSet.writes, _ :=
    fun item _ table => reserveWrite_view transactionID nonzero rounds table item
  obtain ⟨read, reads, readView⟩ := foldlM_view readStep table
  obtain ⟨after, writes, writeView⟩ := foldlM_view writeStep read
  refine ⟨after, ?_, ?_⟩
  · rw [reserveRWset, reads]
    exact writes
  · rw [writeView, readView]
    rfl

theorem dependencyAnalysis_view (table : HashMapReserveTable) (kvRWSet : KVRWSet) (transactionID : Nat) :
    (table.dependencyAnalysis kvRWSet transactionID).1.view = table.view ∧
    (table.dependencyAnalysis kvRWSet transactionID).2 =
      table.view.dependencyAnalysis kvRWSet transactionID := by
  have waw := NestedTables.anyBefore_view transactionID (kvRWSet.writes.map KVWrite.cell) table.writeTableList
  have war := NestedTables.anyBefore_view transactionID (kvRWSet.writes.map KVWrite.cell) table.readTableList
  have raw := NestedTables.anyBefore_view transactionID (kvRWSet.reads.map KVRead.cell)
    (NestedTables.anyBefore transactionID table.writeTableList (kvRWSet.writes.map KVWrite.cell)).1
  rw [waw.1] at raw
  constructor
  · unfold HashMapReserveTable.view dependencyAnalysis
    dsimp only
    rw [war.1, raw.1]
  · unfold dependencyAnalysis MockReserveTable.dependencyAnalysis
    dsimp only
    rw [waw.2, war.2, raw.2, List.any_map, List.any_map, List.any_map]
    rfl

def abstractStep (table : MockReserveTable) : TableCall → MockReserveTable
  | .reserveRWset kvRWSet transactionID => table.reserveRWset kvRWSet transactionID
  | .dependencyAnalysis _ _ => table

variable {calls : List TableCall}

theorem mem_reservations {kvRWSet : KVRWSet} {transactionID : Nat}
    (member : TableCall.reserveRWset kvRWSet transactionID ∈ calls) :
    (kvRWSet, transactionID) ∈ TableCall.reservations calls :=
  List.mem_filterMap.mpr ⟨_, member, rfl⟩

theorem run_view (nonzero : ∀ call ∈ TableCall.reservations calls, call.2 ≠ 0) (rounds epoch : Nat) :
    ∃ table, run (rounds + 2) epoch calls = some table ∧ table.view = calls.foldl abstractStep (.new epoch) := by
  refine foldlM_view (fun call member table => ?_) (new epoch)
  cases call with
  | reserveRWset kvRWSet transactionID =>
    exact table.reserveRWset_view transactionID (nonzero _ (mem_reservations member)) rounds kvRWSet
  | dependencyAnalysis kvRWSet transactionID =>
    exact ⟨_, rfl, (table.dependencyAnalysis_view kvRWSet transactionID).1⟩

theorem foldl_abstractStep_holds (nonzero : ∀ call ∈ TableCall.reservations calls, call.2 ≠ 0) (epoch : Nat) :
    (calls.foldl abstractStep (.new epoch)).Holds (TableCall.reservations calls) := by
  induction calls using List.reverseRecOn with
  | nil => exact MockReserveTable.new_holds epoch
  | append_singleton before call ih =>
    have split : TableCall.reservations (before ++ [call]) =
        TableCall.reservations before ++ TableCall.reservations [call] := List.filterMap_append
    rw [split] at nonzero ⊢
    have holds := ih fun call member => nonzero call (List.mem_append_left _ member)
    rw [List.foldl_append]
    cases call with
    | reserveRWset kvRWSet transactionID =>
      exact holds.reserve kvRWSet transactionID (nonzero _ (List.mem_append_right _ (.head _)))
    | dependencyAnalysis kvRWSet transactionID =>
      rw [show TableCall.reservations [.dependencyAnalysis kvRWSet transactionID] = [] from rfl, List.append_nil]
      exact holds

end HashMapReserveTable

/-- What an analysis has to report after these reservations. -/
structure TransactionDependency.Exact (dependency : TransactionDependency) (reservations : List (KVRWSet × Nat))
    (kvRWSet : KVRWSet) (transactionID : Nat) : Prop where
  waw : dependency.waw = true ↔ ∃ call ∈ reservations, 1 ≤ call.2 ∧ call.2 < transactionID ∧
    ∃ key ∈ call.1.writeKeys, key ∈ kvRWSet.writeKeys
  war : dependency.war = true ↔ ∃ call ∈ reservations, 1 ≤ call.2 ∧ call.2 < transactionID ∧
    ∃ key ∈ call.1.readKeys, key ∈ kvRWSet.writeKeys
  raw : dependency.raw = true ↔ ∃ call ∈ reservations, 1 ≤ call.2 ∧ call.2 < transactionID ∧
    ∃ key ∈ call.1.writeKeys, key ∈ kvRWSet.readKeys

namespace TransactionDependency.Exact

variable {first second : TransactionDependency} {calls others : List (KVRWSet × Nat)} {kvRWSet : KVRWSet}
  {transactionID : Nat}

theorem of_perm (exact : second.Exact others kvRWSet transactionID) (perm : others.Perm calls) :
    second.Exact calls kvRWSet transactionID := by
  have same : ∀ call, call ∈ others ↔ call ∈ calls := fun call => perm.mem_iff
  obtain ⟨waw, war, raw⟩ := exact
  simp only [same] at waw war raw
  exact ⟨waw, war, raw⟩

theorem unique (one : first.Exact calls kvRWSet transactionID) (two : second.Exact calls kvRWSet transactionID) :
    first = second := by
  obtain ⟨firstRaw, firstWaw, firstWar⟩ := first
  obtain ⟨secondRaw, secondWaw, secondWar⟩ := second
  have waw := one.waw.trans two.waw.symm
  have war := one.war.trans two.war.symm
  have raw := one.raw.trans two.raw.symm
  simp only [Bool.coe_iff_coe] at waw war raw
  rw [waw, war, raw]

end TransactionDependency.Exact

theorem HashMapReserveTable.run_exact {calls : List TableCall}
    (nonzero : ∀ call ∈ TableCall.reservations calls, call.2 ≠ 0) (rounds epoch : Nat) :
    ∃ table, run (rounds + 2) epoch calls = some table ∧ ∀ kvRWSet transactionID,
      (table.dependencyAnalysis kvRWSet transactionID).2.Exact (TableCall.reservations calls) kvRWSet
        transactionID := by
  obtain ⟨table, ended, view⟩ := run_view nonzero rounds epoch
  have holds := foldl_abstractStep_holds nonzero epoch
  rw [← view] at holds
  have positive : ∀ call ∈ TableCall.reservations calls, 1 ≤ call.2 :=
    fun call member => Nat.one_le_iff_ne_zero.mpr (nonzero call member)
  refine ⟨table, ended, fun kvRWSet transactionID => ?_⟩
  rw [(table.dependencyAnalysis_view kvRWSet transactionID).2]
  constructor
  case waw =>
    rw [holds.waw_iff]
    exact exists_congr fun call => and_congr_right fun member => (and_iff_right (positive call member)).symm
  case war =>
    rw [holds.war_iff]
    exact exists_congr fun call => and_congr_right fun member => (and_iff_right (positive call member)).symm
  case raw =>
    rw [holds.raw_iff]
    exact exists_congr fun call => and_congr_right fun member => (and_iff_right (positive call member)).symm

/-- Every sequence of calls ends, and its answers depend on the reservations among them only, in any order. -/
theorem dependency_analysis_exact (rounds epoch : Nat) (calls : List TableCall)
    (nonzero : ∀ call ∈ TableCall.reservations calls, call.2 ≠ 0) :
    ∃ table, HashMapReserveTable.run (rounds + 2) epoch calls = some table ∧
      ∀ kvRWSet transactionID,
        (table.dependencyAnalysis kvRWSet transactionID).2.Exact (TableCall.reservations calls) kvRWSet
          transactionID ∧
        ∀ others, (TableCall.reservations others).Perm (TableCall.reservations calls) →
          ∃ other, HashMapReserveTable.run (rounds + 2) epoch others = some other ∧
            (other.dependencyAnalysis kvRWSet transactionID).2 =
              (table.dependencyAnalysis kvRWSet transactionID).2 := by
  obtain ⟨table, ended, exact⟩ := HashMapReserveTable.run_exact nonzero rounds epoch
  refine ⟨table, ended, fun kvRWSet transactionID => ⟨exact kvRWSet transactionID, fun others perm => ?_⟩⟩
  have nonzero : ∀ call ∈ TableCall.reservations others, call.2 ≠ 0 :=
    fun call member => nonzero call (perm.mem_iff.mp member)
  obtain ⟨other, otherEnded, otherExact⟩ := HashMapReserveTable.run_exact nonzero rounds epoch
  refine ⟨other, otherEnded, ?_⟩
  exact ((otherExact kvRWSet transactionID).of_perm perm).unique (exact kvRWSet transactionID)

theorem dependency_analysis_exact_three : ∃ table,
    HashMapReserveTable.run 2 1 [.reserveRWset ⟨[⟨[1], [], [2]⟩], []⟩ 3,
      .reserveRWset ⟨[], [⟨[2], [1], false, []⟩]⟩ 1] = some table ∧
    (table.dependencyAnalysis ⟨[⟨[1], [], [2]⟩], []⟩ 3).2.Exact
      [(⟨[⟨[1], [], [2]⟩], []⟩, 3), (⟨[], [⟨[2], [1], false, []⟩]⟩, 1)] ⟨[⟨[1], [], [2]⟩], []⟩ 3 := by
  obtain ⟨table, ended, exact⟩ := dependency_analysis_exact 0 1
    [.reserveRWset ⟨[⟨[1], [], [2]⟩], []⟩ 3, .reserveRWset ⟨[], [⟨[2], [1], false, []⟩]⟩ 1] (by decide)
  exact ⟨table, ended, (exact _ _).1⟩

end Blockchain
