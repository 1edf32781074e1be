import MyBlockchain.Transaction.MockTransaction

namespace Blockchain

/-- What one `InvokeChaincode` call adds to the read/write set of its transaction, the tables it creates,
and whether it succeeds. -/
structure Invocation where
  success : Bool
  rwSet : KVRWSet
  tableList : List Bytes
  deriving DecidableEq, Repr

/-- A chaincode, run for a transaction id and a payload against what `selectDB` returns. -/
abbrev Chaincode := Nat → TransactionPayload → (Bytes × Bytes → Bytes) → Invocation

def KVRWSet.Recorded (select : Bytes × Bytes → Bytes) (rwSet : KVRWSet) : Prop :=
  ∀ read ∈ rwSet.reads, read.value = select (read.table, read.key)

def Chaincode.Records (chaincode : Chaincode) : Prop :=
  ∀ tid payload select, (chaincode tid payload select).rwSet.Recorded select

def bytesOf (text : String) : Bytes := text.toUTF8.data.toList

def ariaSysTable : Bytes := bytesOf "aria_sys_table"

namespace AriaORM

structure CCORMHelper where
  tid : Nat
  kvrwSet : KVRWSet
  tableList : List Bytes

def CCORMHelper.addRead (helper : CCORMHelper) (read : KVRead) : CCORMHelper :=
  { helper with kvrwSet := helper.kvrwSet.append { reads := [read], writes := [] } }

def CCORMHelper.addWrite (helper : CCORMHelper) (write : KVWrite) : CCORMHelper :=
  { helper with kvrwSet := helper.kvrwSet.append { reads := [], writes := [write] } }

def CCORMHelper.createTable (helper : CCORMHelper) (tableName : Bytes) : CCORMHelper :=
  let value := bytesOf "place holder of " ++ bytesOf (toString helper.tid)
  let helper := helper.addWrite { table := ariaSysTable, key := tableName, isDelete := false, value }
  { helper with tableList := helper.tableList ++ [tableName] }

structure InsertImpl where
  table : Bytes
  key : Bytes

def InsertImpl.set (insert : InsertImpl) (helper : CCORMHelper) (attr value : Bytes) :
    InsertImpl × CCORMHelper :=
  if attr = bytesOf "key" then ({ insert with key := value }, helper)
  else if attr = bytesOf "value" then
    (insert, helper.addWrite { table := insert.table, key := insert.key, isDelete := false, value })
  else (insert, helper)

/-- A new `ORMInsert` whose key and value are set, in this order, once for each row. -/
def CCORMHelper.insert (helper : CCORMHelper) (table : Bytes) (rows : List (Bytes × Bytes)) : CCORMHelper :=
  (rows.foldl (fun (state : InsertImpl × CCORMHelper) row =>
    let state := state.1.set state.2 (bytesOf "key") row.1
    state.1.set state.2 (bytesOf "value") row.2) ({ table, key := [] }, helper)).2

structure LevelDBResultsIterator where
  key : Bytes
  value : Bytes
  table : Bytes
  index : Int
  readKeys : List Bytes

namespace LevelDBResultsIterator

def hasNext (iterator : LevelDBResultsIterator) : Bool := 1 - iterator.index ≠ 0

def next (iterator : LevelDBResultsIterator) : LevelDBResultsIterator :=
  if iterator.hasNext then { iterator with index := iterator.index + 1 } else iterator

/-- `getString`, whose result only goes to the log. -/
def getString (iterator : LevelDBResultsIterator) (helper : CCORMHelper) :
    LevelDBResultsIterator × CCORMHelper :=
  if iterator.readKeys.count iterator.key = 0 then
    ({ iterator with readKeys := iterator.key :: iterator.readKeys },
      helper.addRead { table := iterator.table, key := iterator.key, value := iterator.value })
  else (iterator, helper)

/-- The for loop over a result, with a bound on its rounds: `getString("key")`, `getString("value")`. -/
def readRows : Nat → LevelDBResultsIterator → CCORMHelper → CCORMHelper
  | 0, _, helper => helper
  | rounds + 1, iterator, helper =>
    if iterator.hasNext then
      let state := iterator.getString helper
      let state := state.1.getString state.2
      readRows rounds state.1.next state.2
    else helper

end LevelDBResultsIterator

/-- `newQuery`, `filter` and the loop over `executeQuery`. -/
def CCORMHelper.query (helper : CCORMHelper) (select : Bytes × Bytes → Bytes) (table key : Bytes) :
    CCORMHelper :=
  LevelDBResultsIterator.readRows 2 { key, value := select (table, key), table, index := 0, readKeys := [] }
    helper

/-- The loop body runs once, and its second `getString` finds the key already recorded. -/
theorem CCORMHelper.query_eq (helper : CCORMHelper) (select : Bytes × Bytes → Bytes) (table key : Bytes) :
    helper.query select table key = helper.addRead { table, key, value := select (table, key) } := by
  simp [CCORMHelper.query, LevelDBResultsIterator.readRows, LevelDBResultsIterator.hasNext,
    LevelDBResultsIterator.next, LevelDBResultsIterator.getString]

theorem CCORMHelper.insert_singleton (helper : CCORMHelper) (table key value : Bytes) :
    helper.insert table [(key, value)] = helper.addWrite { table, key, isDelete := false, value } := by
  have differs : bytesOf "value" ≠ bytesOf "key" := by decide
  simp [CCORMHelper.insert, InsertImpl.set, differs]

section Recorded

variable {select : Bytes × Bytes → Bytes} {helper : CCORMHelper} (recorded : helper.kvrwSet.Recorded select)

include recorded

theorem recorded_addWrite (write : KVWrite) : (helper.addWrite write).kvrwSet.Recorded select := by
  intro read member
  simp only [CCORMHelper.addWrite, KVRWSet.append, List.append_nil] at member
  exact recorded read member

theorem recorded_addRead (table key : Bytes) :
    (helper.addRead { table, key, value := select (table, key) }).kvrwSet.Recorded select := by
  intro read member
  simp only [CCORMHelper.addRead, KVRWSet.append, List.mem_append, List.mem_singleton] at member
  rcases member with member | rfl
  · exact recorded read member
  · rfl

theorem recorded_createTable (tableName : Bytes) :
    (helper.createTable tableName).kvrwSet.Recorded select :=
  recorded_addWrite recorded _

theorem recorded_set (insert : InsertImpl) (attr value : Bytes) :
    (insert.set helper attr value).2.kvrwSet.Recorded select := by
  unfold InsertImpl.set
  split
  · exact recorded
  · split
    · exact recorded_addWrite recorded _
    · exact recorded

theorem recorded_insert (table : Bytes) (rows : List (Bytes × Bytes)) :
    (helper.insert table rows).kvrwSet.Recorded select := by
  unfold CCORMHelper.insert
  generalize ({ table, key := [] } : InsertImpl) = insert
  induction rows generalizing insert helper with
  | nil => exact recorded
  | cons row rows ih =>
    have keyed := recorded_set recorded insert (bytesOf "key") row.1
    rw [List.foldl_cons]
    exact ih (recorded_set keyed _ (bytesOf "value") row.2) _

theorem recorded_query (table key : Bytes) : (helper.query select table key).kvrwSet.Recorded select := by
  rw [CCORMHelper.query_eq]
  exact recorded_addRead recorded table key

end Recorded

end AriaORM

/-- The parsed payload messages, and the strings `random.a_string` gives one chaincode object, whose
generator always starts from the same seed. -/
structure ChaincodeInputs where
  gcounter : Bytes → Bytes × Nat
  ycsb : Bytes → List Bytes × List Bytes
  aString : Nat → Bytes

open AriaORM in
def ORMTestChaincode.InvokeChaincode (inputs : ChaincodeInputs) : Chaincode := fun tid payload select =>
  let helper : CCORMHelper := { tid, kvrwSet := .empty, tableList := [] }
  let testTable := bytesOf "test_table"
  let finish (helper : CCORMHelper) : Invocation :=
    { success := true, rwSet := helper.kvrwSet, tableList := helper.tableList }
  if payload.header = bytesOf "correct_test" then
    let helper := helper.query select testTable payload.payload
    finish (helper.insert testTable [(payload.payload, inputs.aString 0)])
  else if payload.header = bytesOf "create_table" then finish (helper.createTable testTable)
  else if payload.header = bytesOf "create_data" then
    finish (helper.insert testTable [(bytesOf "lhx", bytesOf "10"), (bytesOf "chw", bytesOf "20"),
      (bytesOf "wyt", bytesOf "30")])
  else if payload.header = bytesOf "crdt_gcounter" then
    let counter := inputs.gcounter payload.payload
    let helper := helper.query select testTable counter.1
    finish (helper.insert testTable [(counter.1, bytesOf (toString counter.2))])
  else if payload.header = bytesOf "mixed" then
    let ycsb := inputs.ycsb payload.payload
    let helper := (ycsb.2.zipIdx).foldl
      (fun helper update => helper.insert testTable [(update.1, inputs.aString update.2)]) helper
    finish (ycsb.1.foldl (fun helper read => helper.query select testTable read) helper)
  else { success := false, rwSet := .empty, tableList := [] }

open AriaORM in
theorem ORMTestChaincode.records (inputs : ChaincodeInputs) : (InvokeChaincode inputs).Records := by
  intro tid payload select
  have empty : KVRWSet.Recorded select .empty := by
    intro read member
    cases member
  have updates : ∀ (updates : List (Bytes × Nat)) (helper : CCORMHelper),
      helper.kvrwSet.Recorded select →
      (updates.foldl (fun helper update =>
        helper.insert (bytesOf "test_table") [(update.1, inputs.aString update.2)]) helper).kvrwSet.Recorded
          select := by
    intro updates
    induction updates with
    | nil => exact fun _ recorded => recorded
    | cons update updates ih => exact fun _ recorded => ih _ (recorded_insert recorded _ _)
  have reads : ∀ (reads : List Bytes) (helper : CCORMHelper), helper.kvrwSet.Recorded select →
      (reads.foldl (fun helper read => helper.query select (bytesOf "test_table") read) helper).kvrwSet.Recorded
        select := by
    intro reads
    induction reads with
    | nil => exact fun _ recorded => recorded
    | cons read reads ih => exact fun _ recorded => ih _ (recorded_query recorded _ _)
  unfold InvokeChaincode
  dsimp only
  split
  · exact recorded_insert (recorded_query empty _ _) _ _
  · split
    · exact recorded_createTable empty _
    · split
      · exact recorded_insert empty _ _
      · split
        · exact recorded_insert (recorded_query empty _ _) _ _
        · split
          · exact reads _ _ (updates _ _ empty)
          · exact empty

def counterInputs : ChaincodeInputs :=
  { gcounter := fun payload => (payload, 1), ycsb := fun _ => ([], []), aString := fun _ => [] }

def counterTransaction (tid : Nat) (key : Bytes) : MockTransaction :=
  let payload := { TransactionPayload.default with header := bytesOf "crdt_gcounter", payload := key }
  { MockTransaction.new with epoch := 1, tid, transactionPayload := payload }

end Blockchain
