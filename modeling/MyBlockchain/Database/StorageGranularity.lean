import MyBlockchain.Database.DatabaseImpl
import MyBlockchain.Worker.Chaincode

namespace Blockchain

inductive StorageCall
  | updateWriteSet (key value table : Bytes)
  | removeWriteSet (key value table : Bytes)
  | selectDB (key table : Bytes)
  deriving DecidableEq, Repr

def StorageCall.ofWrite (write : KVWrite) : StorageCall :=
  if write.isDelete then .removeWriteSet write.key (bytesOf " ") write.table
  else .updateWriteSet write.key write.value write.table

namespace DBStorage

variable {Slot : Type} [DecidableEq Slot] (slotOf : SlotOf Slot)

def call (db : Contents Slot) : StorageCall → Contents Slot × Option Bytes
  | .updateWriteSet key value table => (Function.update db (slotOf (table, key)) (some value), none)
  | .removeWriteSet key _ table => (Function.update db (slotOf (table, key)) none, none)
  | .selectDB key table => (db, some (selectDB slotOf db (table, key)))

def values (db : Contents Slot) : List StorageCall → List Bytes
  | [] => []
  | first :: rest => (call slotOf db first).2.toList ++ values (call slotOf db first).1 rest

def contents (db : Contents Slot) (calls : List StorageCall) : Contents Slot :=
  calls.foldl (fun db first => (call slotOf db first).1) db

def leaves (concerns : Bytes × Bytes → Bool) (old : Bytes) : StorageCall → Bytes
  | .updateWriteSet key value table => if concerns (table, key) then value else old
  | .removeWriteSet key _ table => if concerns (table, key) then [] else old
  | .selectDB _ _ => old

/-- The value that the last of some calls to write one of the pairs has left; removed and absent pairs read as
the empty string. -/
def lastValue (concerns : Bytes × Bytes → Bool) (calls : List StorageCall) : Bytes :=
  calls.foldl (leaves concerns) []

variable {slotOf}

theorem contents_concat (db : Contents Slot) (calls : List StorageCall) (next : StorageCall) :
    contents slotOf db (calls ++ [next]) = (call slotOf (contents slotOf db calls) next).1 := by
  rw [contents, List.foldl_append]
  rfl

theorem lastValue_concat (concerns : Bytes × Bytes → Bool) (calls : List StorageCall) (next : StorageCall) :
    lastValue concerns (calls ++ [next]) = leaves concerns (lastValue concerns calls) next := by
  rw [lastValue, List.foldl_append]
  rfl

theorem selectDB_call (db : Contents Slot) (next : StorageCall) (pair : Bytes × Bytes) :
    selectDB slotOf (call slotOf db next).1 pair =
      leaves (fun other => slotOf other = slotOf pair) (selectDB slotOf db pair) next := by
  cases next with
  | updateWriteSet key value table | removeWriteSet key value table =>
    by_cases same : slotOf (table, key) = slotOf pair
    · simp [call, selectDB, leaves, same]
    · simp [call, selectDB, leaves, same, Function.update_of_ne (Ne.symm same)]
  | selectDB key table => rfl

theorem selectDB_contents (calls : List StorageCall) (pair : Bytes × Bytes) :
    selectDB slotOf (contents slotOf (fun _ => none) calls) pair =
      lastValue (fun other => slotOf other = slotOf pair) calls := by
  induction calls using List.reverseRecOn with
  | nil => rfl
  | append_singleton calls next ih => rw [contents_concat, lastValue_concat, selectDB_call, ih]

/-- Two storages return the same values if and only if they agree at every `selectDB`. -/
theorem values_eq_iff {Other : Type} [DecidableEq Other] {otherSlot : SlotOf Other} (db : Contents Slot)
    (otherDB : Contents Other) (calls : List StorageCall) :
    values slotOf db calls = values otherSlot otherDB calls ↔
      ∀ before key table after, calls = before ++ .selectDB key table :: after →
        selectDB slotOf (contents slotOf db before) (table, key) =
          selectDB otherSlot (contents otherSlot otherDB before) (table, key) := by
  induction calls generalizing db otherDB with
  | nil => simp [values]
  | cons first rest ih =>
    have further : (∀ before key table after, first :: rest = before ++ .selectDB key table :: after →
        selectDB slotOf (contents slotOf db before) (table, key) =
          selectDB otherSlot (contents otherSlot otherDB before) (table, key)) ↔
        (∀ key table, first = .selectDB key table →
          selectDB slotOf db (table, key) = selectDB otherSlot otherDB (table, key)) ∧
        ∀ before key table after, rest = before ++ .selectDB key table :: after →
          selectDB slotOf (contents slotOf (call slotOf db first).1 before) (table, key) =
            selectDB otherSlot (contents otherSlot (call otherSlot otherDB first).1 before) (table, key) := by
      constructor
      · intro all
        refine ⟨fun key table here => all [] key table rest (by rw [here]; rfl), ?_⟩
        exact fun before key table after split => all (first :: before) key table after (by rw [split]; rfl)
      · rintro ⟨here, later⟩ before key table after split
        cases before with
        | nil =>
          cases split
          exact here key table rfl
        | cons other before =>
          cases split
          exact later before key table after rfl
    rw [further, ← ih, values, values]
    cases first with
    | updateWriteSet key value table | removeWriteSet key value table => simp [call]
    | selectDB key table =>
      simp only [call, Option.toList_some, List.singleton_append, List.cons.injEq]
      constructor
      · rintro ⟨now, later⟩
        refine ⟨fun other table' same => ?_, later⟩
        cases same
        exact now
      · exact fun both => ⟨both.1 key table rfl, both.2⟩

/-- Where each key is used with one table, the table makes no difference. -/
theorem lastValue_one_table {calls : List StorageCall} {table key : Bytes}
    (one : ∀ next ∈ calls, ∀ other value, next = .updateWriteSet key value other ∨ next = .removeWriteSet key value other →
      other = table) :
    lastValue (fun pair => pair.2 = key) calls = lastValue (fun pair => pair = (table, key)) calls := by
  induction calls using List.reverseRecOn with
  | nil => rfl
  | append_singleton calls next ih =>
    rw [lastValue_concat, lastValue_concat, ih fun other member => one other (List.mem_append_left _ member)]
    have mine := one next (List.mem_append_right _ (.head _))
    cases next with
    | updateWriteSet key' value other | removeWriteSet key' value other =>
      by_cases same : key' = key
      · subst same
        have equal : other = table := mine other value (by simp)
        simp [leaves, equal]
      · simp [leaves, same]
    | selectDB => rfl

end DBStorage

/-- LevelDB, which drops the table, returns what a map by table and key returns if and only if at every
`selectDB` the key was last written under the table asked for, or with the value that table has. -/
theorem storage_granularity_iff (calls : List StorageCall) :
    DBStorage.values LevelDBStorage.slotOf (fun _ => none) calls = DBStorage.values tableSlotOf (fun _ => none) calls ↔
      ∀ before key table after, calls = before ++ .selectDB key table :: after →
        DBStorage.lastValue (fun pair => pair.2 = key) before =
          DBStorage.lastValue (fun pair => pair = (table, key)) before := by
  rw [DBStorage.values_eq_iff]
  simp only [DBStorage.selectDB_contents, LevelDBStorage.slotOf, tableSlotOf, id_eq]

/-- A row whose key is the name of a table, before and after that table is created. -/
theorem created_table_overwrites_row :
    let helper : AriaORM.CCORMHelper := { tid := 1, kvrwSet := .empty, tableList := [] }
    let table := bytesOf "test_table"
    let calls := [.updateWriteSet table (bytesOf "10") table] ++
      (helper.createTable table).kvrwSet.writes.map StorageCall.ofWrite ++ [.selectDB table table]
    DBStorage.values tableSlotOf (fun _ => none) calls = [bytesOf "10"] ∧
      DBStorage.values LevelDBStorage.slotOf (fun _ => none) calls = [bytesOf "place holder of 1"] ∧
      ¬ DBStorage.values LevelDBStorage.slotOf (fun _ => none) calls =
        DBStorage.values tableSlotOf (fun _ => none) calls := by
  decide +kernel

end Blockchain
