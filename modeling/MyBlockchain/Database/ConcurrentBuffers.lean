import Mathlib.Data.Fin.Basic
import Mathlib.Data.Fintype.Basic
import MyBlockchain.Database.DatabaseImpl
import MyBlockchain.Library.Runs

namespace Blockchain

structure BufferCall where
  tid : Nat
  kvRWSet : Ref
  tableList : List Bytes
  deriving DecidableEq, Repr

/-- Places in `bufferUpdates` and, from `fastLoad` to `unlock`, in the `clearBufferThreadSafe` it calls. -/
inductive BufferPlace
  | load | fastLoad | lock | lockedLoad | clearSets | clearTables | lower | unlock | insertSet | insertTables
  deriving DecidableEq, Repr

/-- Places in `commitUpdate`; `failed` is a DCHECK that does not hold. -/
inductive CommitPlace
  | load | lock | lockedLoad | check | update (writes : List KVWrite) | raise | unlock | failed
  deriving DecidableEq, Repr

inductive DatabaseThread
  | idle
  | buffering (place : BufferPlace) (call : BufferCall)
  | committing (place : CommitPlace) (tid : Nat)
  deriving DecidableEq, Repr

inductive DatabasePhase
  | read | commit
  deriving DecidableEq, Repr

/-- `calls` are the calls of `bufferUpdates` in this epoch; each function has its own static mutex. -/
structure BufferWorld (Slot : Type) (workers : Nat) where
  heap : Heap
  database : DatabaseImpl Slot
  clearMutex : Option (Fin workers)
  commitMutex : Option (Fin workers)
  threads : Fin workers → DatabaseThread
  phase : DatabasePhase
  calls : List BufferCall

inductive BufferMove (workers : Nat)
  | bufferUpdates (worker : Fin workers) (call : BufferCall) (kvrwSet : KVRWSet)
  | commitUpdate (worker : Fin workers) (tid : Nat)
  | advance (worker : Fin workers)
  | commitPhase
  | readPhase

namespace BufferWorld

variable {Slot : Type} {workers : Nat}

def initial (workers : Nat) (heap : Heap) (db : Contents Slot) : BufferWorld Slot workers where
  heap
  database := .initial db
  clearMutex := none
  commitMutex := none
  threads := fun _ => .idle
  phase := .read
  calls := []

def setThread (world : BufferWorld Slot workers) (worker : Fin workers) (thread : DatabaseThread) :
    BufferWorld Slot workers :=
  { world with threads := Function.update world.threads worker thread }

@[simp] theorem setThread_self (world : BufferWorld Slot workers) (worker : Fin workers) (thread : DatabaseThread) :
    (world.setThread worker thread).threads worker = thread := Function.update_self ..

@[simp] theorem setThread_other (world : BufferWorld Slot workers) {worker other : Fin workers}
    (thread : DatabaseThread) (different : other ≠ worker) :
    (world.setThread worker thread).threads other = world.threads other := Function.update_of_ne different ..

theorem setThread_cases {world : BufferWorld Slot workers} {worker other : Fin workers} {thread found : DatabaseThread}
    (there : (world.setThread worker thread).threads other = found) :
    other = worker ∧ thread = found ∨ world.threads other = found := by
  by_cases same : other = worker
  · subst same
    exact .inl ⟨rfl, (setThread_self ..).symm.trans there⟩
  · exact .inr ((setThread_other _ _ same).symm.trans there)

def setDatabase (world : BufferWorld Slot workers) (database : DatabaseImpl Slot) : BufferWorld Slot workers :=
  { world with database }

def bufferStep (world : BufferWorld Slot workers) (worker : Fin workers) (call : BufferCall) :
    BufferPlace → Option (BufferWorld Slot workers)
  | .load =>
    let next := if world.database.commitPhase then .fastLoad else .insertSet
    some (world.setThread worker (.buffering next call))
  | .fastLoad =>
    let next := if world.database.commitPhase then .lock else .insertSet
    some (world.setThread worker (.buffering next call))
  | .lock =>
    if world.clearMutex = none then
      some ({ world with clearMutex := some worker }.setThread worker (.buffering .lockedLoad call))
    else none
  | .lockedLoad =>
    let next := if world.database.commitPhase then .clearSets else .unlock
    some (world.setThread worker (.buffering next call))
  | .clearSets =>
    some ((world.setDatabase { world.database with rwSetBuffer := fun _ => none }).setThread worker
      (.buffering .clearTables call))
  | .clearTables =>
    some ((world.setDatabase { world.database with tableListBuffer := fun _ => none }).setThread worker
      (.buffering .lower call))
  | .lower =>
    some ((world.setDatabase { world.database with commitPhase := false }).setThread worker
      (.buffering .unlock call))
  | .unlock => some ({ world with clearMutex := none }.setThread worker (.buffering .insertSet call))
  | .insertSet =>
    some ((world.setDatabase { world.database with
      rwSetBuffer := Function.update world.database.rwSetBuffer call.tid (some call.kvRWSet) }).setThread worker
      (.buffering .insertTables call))
  | .insertTables =>
    some ((world.setDatabase { world.database with
      tableListBuffer := Function.update world.database.tableListBuffer call.tid (some call.tableList) }).setThread
      worker .idle)

variable [DecidableEq Slot] (slotOf : SlotOf Slot)

def commitStep (world : BufferWorld Slot workers) (worker : Fin workers) (tid : Nat) :
    CommitPlace → Option (BufferWorld Slot workers)
  | .load =>
    some (world.setThread worker (if world.database.commitPhase then .idle else .committing .lock tid))
  | .lock =>
    if world.commitMutex = none then
      some ({ world with commitMutex := some worker }.setThread worker (.committing .lockedLoad tid))
    else none
  | .lockedLoad =>
    let next := if world.database.commitPhase then .unlock else .check
    some (world.setThread worker (.committing next tid))
  | .check =>
    match world.database.rwSetBuffer tid, world.database.tableListBuffer tid with
    | some kvRWSet, some _ =>
      some (world.setThread worker (.committing (.update (world.heap kvRWSet).kvrwSet.writes) tid))
    | _, _ => some (world.setThread worker (.committing .failed tid))
  | .update [] => some (world.setThread worker (.committing .raise tid))
  | .update (kvWrite :: writes) =>
    let (slot, value) := kvWrite.effect slotOf
    some ((world.setDatabase { world.database with db := Function.update world.database.db slot value }).setThread
      worker (.committing (.update writes) tid))
  | .raise =>
    some ((world.setDatabase { world.database with commitPhase := true }).setThread worker
      (.committing .unlock tid))
  | .unlock => some ({ world with commitMutex := none }.setThread worker .idle)
  | .failed => none

/-- A phase begins when every worker is through the one before. -/
def step (world : BufferWorld Slot workers) : BufferMove workers → Option (BufferWorld Slot workers)
  | .bufferUpdates worker call kvrwSet =>
    if world.phase = .read ∧ world.threads worker = .idle ∧ call.tid ∉ world.calls.map BufferCall.tid then
      -- the chaincode has filled the set that it hands over
      some ({ world with
        heap := Function.update world.heap call.kvRWSet { world.heap call.kvRWSet with kvrwSet }
        calls := call :: world.calls }.setThread worker (.buffering .load call))
    else none
  | .commitUpdate worker tid =>
    if world.phase = .commit ∧ world.threads worker = .idle ∧ tid ∈ world.calls.map BufferCall.tid then
      some (world.setThread worker (.committing .load tid))
    else none
  | .advance worker =>
    match world.threads worker with
    | .idle => none
    | .buffering place call => world.bufferStep worker call place
    | .committing place tid => world.commitStep slotOf worker tid place
  | .commitPhase =>
    if world.phase = .read ∧ ∀ worker, world.threads worker = .idle then some { world with phase := .commit }
    else none
  | .readPhase =>
    if world.phase = .commit ∧ ∀ worker, world.threads worker = .idle then
      some { world with phase := .read, calls := [] }
    else none

def run (world : BufferWorld Slot workers) (moves : List (BufferMove workers)) :
    Option (BufferWorld Slot workers) :=
  moves.foldlM (step slotOf) world

/-! What a read phase keeps. -/

end BufferWorld

/-- The call has not seen the flag down yet. -/
def BufferPlace.early : BufferPlace → Bool
  | .unlock | .insertSet | .insertTables => false
  | _ => true

def BufferPlace.clearing : BufferPlace → Bool
  | .clearSets | .clearTables => true
  | _ => false

def BufferPlace.locked : BufferPlace → Bool
  | .lockedLoad | .clearSets | .clearTables | .lower | .unlock => true
  | _ => false

namespace BufferWorld

variable {Slot : Type} {workers : Nat} {world after : BufferWorld Slot workers} {worker : Fin workers}
  {call : BufferCall} {place : BufferPlace}

def Within (world : BufferWorld Slot workers) (call : BufferCall) (kind : BufferPlace → Bool) : Prop :=
  ∃ worker place, world.threads worker = .buffering place call ∧ kind place = true

structure Reading (world : BufferWorld Slot workers) : Prop where
  threads : ∀ worker place tid, world.threads worker ≠ .committing place tid
  distinct : (world.calls.map BufferCall.tid).Nodup
  begun : ∀ worker place call, world.threads worker = .buffering place call → call ∈ world.calls
  owner : ∀ worker place call, world.threads worker = .buffering place call → place.locked = true →
    world.clearMutex = some worker
  up : ∀ worker place call, world.threads worker = .buffering place call → place.clearing = true →
    world.database.commitPhase = true
  down : ∀ worker place call, world.threads worker = .buffering place call → place.early = false →
    world.database.commitPhase = false
  inserted : ∀ worker call, world.threads worker = .buffering .insertTables call →
    world.database.rwSetBuffer call.tid = some call.kvRWSet
  waiting : world.database.commitPhase = true → ∀ call ∈ world.calls, world.Within call BufferPlace.early
  sets : ∀ call ∈ world.calls, world.Within call (· ≠ .insertTables) ∨
    world.database.rwSetBuffer call.tid = some call.kvRWSet
  tables : ∀ call ∈ world.calls, world.Within call (fun _ => true) ∨
    world.database.tableListBuffer call.tid = some call.tableList

theorem Within.mono {kind other : BufferPlace → Bool} (within : world.Within call kind)
    (weaker : ∀ place, kind place = true → other place = true) : world.Within call other := by
  obtain ⟨worker, place, here, kind⟩ := within
  exact ⟨worker, place, here, weaker place kind⟩

theorem Within.setThread {thread : DatabaseThread} {other : BufferCall} {kind : BufferPlace → Bool}
    (within : world.Within other kind) (here : world.threads worker = .buffering place call)
    (own : other = call → ∃ next, thread = .buffering next call ∧ kind next = true) :
    (world.setThread worker thread).Within other kind := by
  obtain ⟨at_, place, there, holds⟩ := within
  by_cases same : at_ = worker
  · subst same
    rw [here] at there
    cases there
    obtain ⟨next, rfl, kind⟩ := own rfl
    exact ⟨at_, next, setThread_self .., kind⟩
  · exact ⟨at_, place, (setThread_other _ _ same).trans there, holds⟩

theorem Reading.move (reading : world.Reading) (here : world.threads worker = .buffering place call)
    (next : BufferPlace)
    (locked : next.locked = true → world.clearMutex = some worker)
    (up : next.clearing = true → world.database.commitPhase = true)
    (down : next.early = false → world.database.commitPhase = false)
    (inserted : .insertTables = next → world.database.rwSetBuffer call.tid = some call.kvRWSet) :
    (world.setThread worker (.buffering next call)).Reading := by
  have places : ∀ other place call', (world.setThread worker (.buffering next call)).threads other =
      .buffering place call' → other = worker ∧ place = next ∧ call' = call ∨
        world.threads other = .buffering place call' := by
    intro other place call' there
    refine (setThread_cases there).imp_left fun own => ?_
    cases own.2
    exact ⟨own.1, rfl, rfl⟩
  constructor
  case threads =>
    intro other place tid there
    exact reading.threads other place tid ((setThread_cases there).resolve_left fun own => by cases own.2)
  case distinct => exact reading.distinct
  case begun =>
    intro other place call' there
    rcases places other place call' there with ⟨-, -, rfl⟩ | there
    · exact reading.begun worker _ _ here
    · exact reading.begun other place call' there
  case owner =>
    intro other place call' there kind
    rcases places other place call' there with ⟨rfl, rfl, -⟩ | there
    · exact locked kind
    · exact reading.owner other place call' there kind
  case up =>
    intro other place call' there kind
    rcases places other place call' there with ⟨-, rfl, -⟩ | there
    · exact up kind
    · exact reading.up other place call' there kind
  case down =>
    intro other place call' there kind
    rcases places other place call' there with ⟨-, rfl, -⟩ | there
    · exact down kind
    · exact reading.down other place call' there kind
  case inserted =>
    intro other call' there
    rcases places other _ call' there with ⟨-, last, rfl⟩ | there
    · exact inserted last
    · exact reading.inserted other call' there
  case waiting =>
    intro flag other member
    refine (reading.waiting flag other member).setThread here fun _ => ⟨next, rfl, ?_⟩
    by_contra late
    rw [Bool.not_eq_true] at late
    exact absurd flag (by simp [setThread, down late])
  case sets =>
    intro other member
    rcases reading.sets other member with within | there
    · by_cases last : other = call ∧ .insertTables = next
      · rw [last.1]
        exact .inr (inserted last.2)
      · left
        refine within.setThread here fun same => ⟨next, rfl, ?_⟩
        simpa using fun same' => last ⟨same, same'.symm⟩
    · exact .inr there
  case tables =>
    intro other member
    exact (reading.tables other member).imp_left fun within => within.setThread here fun _ => ⟨next, rfl, rfl⟩

theorem Reading.setMutex (reading : world.Reading) {clearMutex : Option (Fin workers)}
    (owner : ∀ worker place call, world.threads worker = .buffering place call → place.locked = true →
      clearMutex = some worker) : { world with clearMutex }.Reading :=
  { reading with owner }

/-- With the flag up no call of this epoch has inserted anything, so nothing of it is lost. -/
theorem Reading.clear (reading : world.Reading) (flag : world.database.commitPhase = true)
    (rwSetBuffer : Nat → Option Ref) (tableListBuffer : Nat → Option (List Bytes)) :
    (world.setDatabase { world.database with rwSetBuffer, tableListBuffer }).Reading :=
  { reading with
    inserted := fun worker call there => by
      rw [reading.down worker _ call there rfl] at flag
      cases flag
    sets := fun call member => .inl <| (reading.waiting flag call member).mono fun place early => by
      cases place <;> first | rfl | cases early
    tables := fun call member => .inl ((reading.waiting flag call member).mono fun _ _ => rfl) }

theorem Reading.lower (reading : world.Reading)
    (cleared : ∀ worker place call, world.threads worker = .buffering place call → place.clearing = false) :
    (world.setDatabase { world.database with commitPhase := false }).Reading :=
  { reading with
    up := fun worker place call there kind => by
      rw [cleared worker place call there] at kind
      cases kind
    down := fun _ _ _ _ _ => rfl
    waiting := fun flag => by cases flag }

/-- IDs are distinct, so an insertion replaces nothing of another call. -/
theorem Reading.insert (reading : world.Reading) (member : call ∈ world.calls)
    {rwSetBuffer : Nat → Option Ref} {tableListBuffer : Nat → Option (List Bytes)}
    (sets : rwSetBuffer = Function.update world.database.rwSetBuffer call.tid (some call.kvRWSet) ∨
      rwSetBuffer = world.database.rwSetBuffer)
    (tables : tableListBuffer =
      Function.update world.database.tableListBuffer call.tid (some call.tableList) ∨
      tableListBuffer = world.database.tableListBuffer) :
    (world.setDatabase { world.database with rwSetBuffer, tableListBuffer }).Reading := by
  have other : ∀ call' ∈ world.calls, call' = call ∨ call'.tid ≠ call.tid := by
    intro call' member'
    by_contra both
    push Not at both
    exact both.1 (List.inj_on_of_nodup_map reading.distinct member' member both.2)
  have kept : ∀ call' ∈ world.calls, world.database.rwSetBuffer call'.tid = some call'.kvRWSet →
      rwSetBuffer call'.tid = some call'.kvRWSet := by
    intro call' member' there
    rcases sets with rfl | rfl
    · rcases other call' member' with rfl | differs
      · exact Function.update_self ..
      · exact (Function.update_of_ne differs _ _).trans there
    · exact there
  refine { reading with inserted := fun worker call' there => ?_, sets := fun call' member' => ?_,
                        tables := fun call' member' => ?_ }
  · exact kept call' (reading.begun worker _ call' there) (reading.inserted worker call' there)
  · exact (reading.sets call' member').imp_right (kept call' member')
  · refine (reading.tables call' member').imp_right fun there => ?_
    rcases tables with rfl | rfl
    · rcases other call' member' with rfl | differs
      · exact Function.update_self ..
      · exact (Function.update_of_ne differs _ _).trans there
    · exact there

theorem Reading.finish (reading : world.Reading) (here : world.threads worker = .buffering place call)
    (down : world.database.commitPhase = false)
    (sets : world.database.rwSetBuffer call.tid = some call.kvRWSet)
    (tables : world.database.tableListBuffer call.tid = some call.tableList) :
    (world.setThread worker .idle).Reading := by
  have places : ∀ other place call', (world.setThread worker .idle).threads other = .buffering place call' →
      world.threads other = .buffering place call' := by
    intro other place call' there
    exact (setThread_cases there).resolve_left fun own => by cases own.2
  constructor
  case threads =>
    intro other place tid there
    exact reading.threads other place tid ((setThread_cases there).resolve_left fun own => by cases own.2)
  case distinct => exact reading.distinct
  case begun => exact fun other place call' there => reading.begun other place call' (places _ _ _ there)
  case owner => exact fun other place call' there => reading.owner other place call' (places _ _ _ there)
  case up => exact fun other place call' there => reading.up other place call' (places _ _ _ there)
  case down => exact fun other place call' there => reading.down other place call' (places _ _ _ there)
  case inserted => exact fun other call' there => reading.inserted other call' (places _ _ _ there)
  case waiting =>
    intro flag
    exact absurd flag (by simp [setThread, down])
  case sets =>
    intro other member
    by_cases same : other = call
    · subst same
      exact .inr sets
    · exact (reading.sets other member).imp_left fun within => within.setThread here fun same' => absurd same' same
  case tables =>
    intro other member
    by_cases same : other = call
    · subst same
      exact .inr tables
    · exact (reading.tables other member).imp_left fun within =>
        within.setThread here fun same' => absurd same' same

theorem Reading.bufferStep (reading : world.Reading) (here : world.threads worker = .buffering place call)
    (stepped : world.bufferStep worker call place = some after) : after.Reading := by
  have member := reading.begun worker place call here
  cases place with
  | load =>
    cases stepped
    cases flag : world.database.commitPhase with
    | true => exact reading.move here .fastLoad nofun nofun nofun nofun
    | false => exact reading.move here .insertSet nofun nofun (fun _ => flag) nofun
  | fastLoad =>
    cases stepped
    cases flag : world.database.commitPhase with
    | true => exact reading.move here .lock nofun nofun nofun nofun
    | false => exact reading.move here .insertSet nofun nofun (fun _ => flag) nofun
  | lock =>
    obtain ⟨free, stepped⟩ := Option.ite_none_right_eq_some.mp stepped
    cases stepped
    have taken : { world with clearMutex := some worker }.Reading := by
      refine reading.setMutex fun other place call' there kind => ?_
      rw [reading.owner other place call' there kind] at free
      cases free
    exact taken.move here .lockedLoad (fun _ => rfl) nofun nofun nofun
  | lockedLoad =>
    cases stepped
    have owner := reading.owner worker _ call here rfl
    cases flag : world.database.commitPhase with
    | true => exact reading.move here .clearSets (fun _ => owner) (fun _ => flag) nofun nofun
    | false => exact reading.move here .unlock (fun _ => owner) nofun (fun _ => flag) nofun
  | clearSets =>
    cases stepped
    have flag := reading.up worker _ call here rfl
    have owner := reading.owner worker _ call here rfl
    have cleared := reading.clear flag (fun _ => none) world.database.tableListBuffer
    exact cleared.move here .clearTables (fun _ => owner) (fun _ => flag) nofun nofun
  | clearTables =>
    cases stepped
    have owner := reading.owner worker _ call here rfl
    have cleared := reading.clear (reading.up worker _ call here rfl) world.database.rwSetBuffer fun _ => none
    exact cleared.move here .lower (fun _ => owner) nofun nofun nofun
  | lower =>
    cases stepped
    have owner := reading.owner worker _ call here rfl
    have cleared : ∀ other place call', world.threads other = .buffering place call' →
        place.clearing = false := by
      intro other place call' there
      by_contra clearing
      rw [Bool.not_eq_false] at clearing
      have locked : place.locked = true := by cases place <;> first | rfl | cases clearing
      have same := owner.symm.trans (reading.owner other place call' there locked)
      cases same
      rw [here] at there
      cases there
      cases clearing
    exact (reading.lower cleared).move here .unlock (fun _ => owner) nofun (fun _ => rfl) nofun
  | unlock =>
    cases stepped
    have owner := reading.owner worker _ call here rfl
    have moved := reading.move here .insertSet nofun nofun (fun _ => reading.down worker _ call here rfl) nofun
    refine moved.setMutex fun other place call' there locked => ?_
    have same := owner.symm.trans (moved.owner other place call' there locked)
    cases same
    rw [setThread_self] at there
    cases there
    cases locked
  | insertSet =>
    cases stepped
    exact (reading.insert member (.inl rfl) (.inr rfl)).move here .insertTables nofun nofun
      (fun _ => reading.down worker _ call here rfl) fun _ => Function.update_self ..
  | insertTables =>
    cases stepped
    have inserted := reading.insert member (.inr rfl) (.inl rfl)
    exact inserted.finish here (reading.down worker _ call here rfl) (reading.inserted worker call here)
      (Function.update_self ..)

theorem Reading.of_idle (idle : ∀ worker, world.threads worker = .idle) : { world with calls := [] }.Reading where
  threads worker place tid there := by cases (idle worker).symm.trans there
  distinct := List.nodup_nil
  begun worker place call there := by cases (idle worker).symm.trans there
  owner worker place call there := by cases (idle worker).symm.trans there
  up worker place call there := by cases (idle worker).symm.trans there
  down worker place call there := by cases (idle worker).symm.trans there
  inserted worker call there := by cases (idle worker).symm.trans there
  waiting _ _ member := by cases member
  sets _ member := by cases member
  tables _ member := by cases member

theorem Reading.enter (reading : world.Reading) (idle : world.threads worker = .idle)
    (new : call.tid ∉ world.calls.map BufferCall.tid) (heap : Heap) :
    ({ world with heap, calls := call :: world.calls }.setThread worker (.buffering .load call)).Reading := by
  have places : ∀ other place call', ({ world with heap, calls := call :: world.calls }.setThread worker
      (.buffering .load call)).threads other = .buffering place call' →
        place = .load ∧ call' = call ∨ world.threads other = .buffering place call' := by
    intro other place call' there
    refine (setThread_cases there).imp_left fun own => ?_
    cases own.2
    exact ⟨rfl, rfl⟩
  have within : ∀ other kind, world.Within other kind ∨ other = call ∧ kind .load = true →
      ({ world with heap, calls := call :: world.calls }.setThread worker (.buffering .load call)).Within other
        kind := by
    rintro other kind (⟨at_, place, there, holds⟩ | ⟨rfl, holds⟩)
    · have different : at_ ≠ worker := by
        rintro rfl
        cases idle.symm.trans there
      exact ⟨at_, place, (setThread_other _ _ different).trans there, holds⟩
    · exact ⟨worker, .load, setThread_self .., holds⟩
  constructor
  case threads =>
    intro other place tid there
    exact reading.threads other place tid ((setThread_cases there).resolve_left fun own => by cases own.2)
  case distinct => exact List.nodup_cons.mpr ⟨new, reading.distinct⟩
  case begun =>
    intro other place call' there
    rcases places other place call' there with ⟨-, rfl⟩ | there
    · exact .head _
    · exact .tail _ (reading.begun other place call' there)
  case owner =>
    intro other place call' there kind
    rcases places other place call' there with ⟨rfl, -⟩ | there
    · cases kind
    · exact reading.owner other place call' there kind
  case up =>
    intro other place call' there kind
    rcases places other place call' there with ⟨rfl, -⟩ | there
    · cases kind
    · exact reading.up other place call' there kind
  case down =>
    intro other place call' there kind
    rcases places other place call' there with ⟨rfl, -⟩ | there
    · cases kind
    · exact reading.down other place call' there kind
  case inserted =>
    intro other call' there
    rcases places other _ call' there with ⟨last, -⟩ | there
    · cases last
    · exact reading.inserted other call' there
  case waiting =>
    intro flag other member
    refine within other _ ((List.mem_cons.mp member).symm.imp (reading.waiting flag other) fun same => ⟨same, rfl⟩)
  case sets =>
    intro other member
    rcases List.mem_cons.mp member with rfl | member
    · exact .inl (within other _ (.inr ⟨rfl, rfl⟩))
    · exact (reading.sets other member).imp_left fun there => within other _ (.inl there)
  case tables =>
    intro other member
    rcases List.mem_cons.mp member with rfl | member
    · exact .inl (within other _ (.inr ⟨rfl, rfl⟩))
    · exact (reading.tables other member).imp_left fun there => within other _ (.inl there)

/-! What a commit phase keeps. -/

structure Committing (world : BufferWorld Slot workers) : Prop where
  threads : ∀ worker place call, world.threads worker ≠ .buffering place call
  begun : ∀ worker place tid, world.threads worker = .committing place tid →
    place ≠ .failed ∧ tid ∈ world.calls.map BufferCall.tid
  sets : ∀ call ∈ world.calls, world.database.rwSetBuffer call.tid = some call.kvRWSet
  tables : ∀ call ∈ world.calls, world.database.tableListBuffer call.tid = some call.tableList

theorem Committing.move (committing : world.Committing) {thread : DatabaseThread}
    (own : thread = .idle ∨ ∃ place tid, thread = .committing place tid ∧ place ≠ .failed ∧
      tid ∈ world.calls.map BufferCall.tid) : (world.setThread worker thread).Committing where
  threads other place call there := by
    rcases setThread_cases there with ⟨-, rfl⟩ | there
    · rcases own with idle | ⟨_, _, moved, -⟩
      · cases idle
      · cases moved
    · exact committing.threads other place call there
  begun other place tid there := by
    rcases setThread_cases there with ⟨-, rfl⟩ | there
    · rcases own with idle | ⟨_, _, moved, live, member⟩
      · cases idle
      · cases moved
        exact ⟨live, member⟩
    · exact committing.begun other place tid there
  sets := committing.sets
  tables := committing.tables

variable {tid : Nat} {place next : CommitPlace}

theorem Committing.goes (committing : world.Committing) (member : tid ∈ world.calls.map BufferCall.tid)
    (live : next ≠ .failed) : (world.setThread worker (.committing next tid)).Committing :=
  committing.move (.inr ⟨next, tid, rfl, live, member⟩)

/-- Contents, flag and mutex are free to change. -/
theorem Committing.frame (committing : world.Committing) (db : Contents Slot) (commitPhase : Bool)
    (commitMutex : Option (Fin workers)) :
    { world with database := { world.database with db, commitPhase }, commitMutex }.Committing :=
  { committing with }

/-- When every worker is idle, every call of the epoch has inserted its two entries. -/
theorem Reading.committing (reading : world.Reading) (idle : ∀ worker, world.threads worker = .idle) :
    world.Committing := by
  have nobody : ∀ call kind, ¬ world.Within call kind := by
    rintro call kind ⟨worker, place, there, -⟩
    cases (idle worker).symm.trans there
  constructor
  case threads =>
    intro worker place call there
    cases (idle worker).symm.trans there
  case begun =>
    intro worker place tid there
    cases (idle worker).symm.trans there
  case sets => exact fun call member => (reading.sets call member).resolve_left (nobody call _)
  case tables => exact fun call member => (reading.tables call member).resolve_left (nobody call _)

structure Kept (world : BufferWorld Slot workers) : Prop where
  reading : world.phase = .read → world.Reading
  committing : world.phase = .commit → world.Committing

theorem Reading.kept (reading : world.Reading) (phase : world.phase = .read) : world.Kept where
  reading _ := reading
  committing commits := by cases phase.symm.trans commits

theorem Committing.kept (committing : world.Committing) (phase : world.phase = .commit) : world.Kept where
  reading reads := by cases phase.symm.trans reads
  committing _ := committing

theorem initial_kept (workers : Nat) (heap : Heap) (db : Contents Slot) : (initial workers heap db).Kept := by
  have idle : ∀ worker, (initial workers heap db).threads worker = .idle := fun _ => rfl
  exact (Reading.of_idle idle).kept rfl

theorem bufferStep_phase {place : BufferPlace} (stepped : world.bufferStep worker call place = some after) :
    after.phase = world.phase := by
  cases place with
  | lock =>
    obtain ⟨-, stepped⟩ := Option.ite_none_right_eq_some.mp stepped
    cases stepped
    rfl
  | _ =>
    cases stepped
    rfl

variable [DecidableEq Slot] {slotOf : SlotOf Slot}

theorem Committing.commitStep (committing : world.Committing)
    (here : world.threads worker = .committing place tid)
    (stepped : world.commitStep slotOf worker tid place = some after) : after.Committing := by
  obtain ⟨-, member⟩ := committing.begun worker place tid here
  have frame := committing.frame
  cases place with
  | load =>
    cases stepped
    split
    · exact committing.move (.inl rfl)
    · exact committing.goes member nofun
  | lock =>
    obtain ⟨-, stepped⟩ := Option.ite_none_right_eq_some.mp stepped
    cases stepped
    exact (frame world.database.db world.database.commitPhase (some worker)).goes member nofun
  | lockedLoad =>
    cases stepped
    refine committing.goes member ?_
    split <;> exact nofun
  | check =>
    obtain ⟨call, inCalls, rfl⟩ := List.mem_map.mp member
    rw [BufferWorld.commitStep, committing.sets call inCalls, committing.tables call inCalls] at stepped
    cases stepped
    exact committing.goes member nofun
  | update writes =>
    cases writes with
    | nil =>
      cases stepped
      exact committing.goes member nofun
    | cons kvWrite writes =>
      cases stepped
      exact (frame _ world.database.commitPhase world.commitMutex).goes member nofun
  | raise =>
    cases stepped
    exact (frame world.database.db true world.commitMutex).goes member nofun
  | unlock =>
    cases stepped
    exact (frame world.database.db world.database.commitPhase none).move (.inl rfl)
  | failed => cases stepped

theorem commitStep_phase (stepped : world.commitStep slotOf worker tid place = some after) :
    after.phase = world.phase := by
  cases place with
  | lock =>
    obtain ⟨-, stepped⟩ := Option.ite_none_right_eq_some.mp stepped
    cases stepped
    rfl
  | check =>
    simp only [commitStep] at stepped
    split at stepped
    · cases stepped
      rfl
    · cases stepped
      rfl
  | update writes => cases writes <;> cases stepped <;> rfl
  | failed => cases stepped
  | load | lockedLoad | raise | unlock =>
    cases stepped
    rfl

theorem step_kept {move : BufferMove workers} (stepped : world.step slotOf move = some after) (kept : world.Kept) :
    after.Kept := by
  cases move with
  | bufferUpdates worker call kvrwSet =>
    obtain ⟨⟨reads, idle, new⟩, stepped⟩ := Option.ite_none_right_eq_some.mp stepped
    cases stepped
    exact ((kept.reading reads).enter idle new _).kept reads
  | commitUpdate worker tid =>
    obtain ⟨⟨commits, -, member⟩, stepped⟩ := Option.ite_none_right_eq_some.mp stepped
    cases stepped
    have entered : (world.setThread worker (.committing .load tid)).Committing :=
      (kept.committing commits).goes member nofun
    exact entered.kept commits
  | advance worker =>
    simp only [step] at stepped
    split at stepped
    · cases stepped
    · next place call here =>
      have reads : world.phase = .read := by
        cases phase : world.phase with
        | read => rfl
        | commit => exact absurd here ((kept.committing phase).threads worker place call)
      exact ((kept.reading reads).bufferStep here stepped).kept ((bufferStep_phase stepped).trans reads)
    · next place tid here =>
      have commits : world.phase = .commit := by
        cases phase : world.phase with
        | read => exact absurd here ((kept.reading phase).threads worker place tid)
        | commit => rfl
      exact ((kept.committing commits).commitStep here stepped).kept ((commitStep_phase stepped).trans commits)
  | commitPhase =>
    obtain ⟨⟨reads, idle⟩, stepped⟩ := Option.ite_none_right_eq_some.mp stepped
    cases stepped
    exact Committing.kept { (kept.reading reads).committing idle with } rfl
  | readPhase =>
    obtain ⟨⟨-, idle⟩, stepped⟩ := Option.ite_none_right_eq_some.mp stepped
    cases stepped
    exact Reading.kept { Reading.of_idle idle with } rfl

/-- At every place of a call of `commitUpdate`, the buffers hold what the transaction has handed over in this epoch. -/
theorem buffered_updates_kept (workers : Nat) (slotOf : SlotOf Slot) (heap : Heap) (db : Contents Slot)
    (moves : List (BufferMove workers)) (world : BufferWorld Slot workers)
    (ran : (initial workers heap db).run slotOf moves = some world)
    (worker : Fin workers) (place : CommitPlace) (tid : Nat)
    (runs : world.threads worker = .committing place tid) :
    place ≠ .failed ∧ (∃ call ∈ world.calls, call.tid = tid) ∧
      ∀ call ∈ world.calls, call.tid = tid →
        world.database.rwSetBuffer tid = some call.kvRWSet ∧
        world.database.tableListBuffer tid = some call.tableList := by
  have kept : world.Kept := Runs.invariant Kept step_kept ran (initial_kept workers heap db)
  cases phase : world.phase with
  | read => exact absurd runs ((kept.reading phase).threads worker place tid)
  | commit =>
    have committing := kept.committing phase
    obtain ⟨live, member⟩ := committing.begun worker place tid runs
    refine ⟨live, List.mem_map.mp member, fun call inCalls same => ?_⟩
    subst same
    exact ⟨committing.sets call inCalls, committing.tables call inCalls⟩

/-- Transactions 8 and 9 commit in one epoch. In the next, the calls for 7 and 6 both find the flag up, the first of them
clears the buffers, and each set is committed by the worker that did not put it there. -/
def twoEpochs {workers : Nat} (first second : Fin workers) : List (BufferMove workers) :=
  List.flatten
    [[.bufferUpdates first ⟨8, 2, []⟩ ⟨[], []⟩, .advance first, .bufferUpdates second ⟨9, 3, []⟩ ⟨[], []⟩],
      (List.replicate 2 [.advance second, .advance first]).flatten,
      [.advance second, .commitPhase, .commitUpdate second 8, .commitUpdate first 9, .advance first, .advance second],
      List.replicate 6 (.advance second), List.replicate 3 (.advance first),
      [.readPhase, .bufferUpdates first ⟨7, 1, []⟩ ⟨[], []⟩, .bufferUpdates second ⟨6, 4, []⟩ ⟨[], []⟩],
      (List.replicate 2 [.advance first, .advance second]).flatten, List.replicate 6 (.advance first),
      List.replicate 3 (.advance second), List.replicate 2 (.advance first), List.replicate 2 (.advance second),
      [.commitPhase, .commitUpdate second 7, .commitUpdate first 6]]

theorem twoEpochs_run : ∃ world : BufferWorld Bytes 2,
    (initial 2 (fun _ => .new) fun _ => none).run LevelDBStorage.slotOf (twoEpochs 0 1) = some world ∧
      world.threads 0 = .committing .load 6 ∧ world.threads 1 = .committing .load 7 ∧
        world.calls = [⟨6, 4, []⟩, ⟨7, 1, []⟩] := by
  have run : (((initial 2 (fun _ => .new) fun _ => none : BufferWorld Bytes 2).run LevelDBStorage.slotOf
      (twoEpochs 0 1)).map fun world => (world.threads 0, world.threads 1, world.calls)) =
      some (.committing .load 6, .committing .load 7, [⟨6, 4, []⟩, ⟨7, 1, []⟩]) := by decide +kernel
  obtain ⟨world, ran, same⟩ := Option.map_eq_some_iff.mp run
  obtain ⟨first, rest⟩ := Prod.mk.inj same
  obtain ⟨second, calls⟩ := Prod.mk.inj rest
  exact ⟨world, ran, first, second, calls⟩

theorem buffered_updates_kept_two : ∃ world : BufferWorld Bytes 2,
    (initial 2 (fun _ => .new) fun _ => none).run LevelDBStorage.slotOf (twoEpochs 0 1) = some world ∧
      world.threads 0 = .committing .load 6 ∧ world.threads 1 = .committing .load 7 ∧
        world.database.rwSetBuffer 6 = some 4 ∧ world.database.tableListBuffer 6 = some [] ∧
        world.database.rwSetBuffer 7 = some 1 ∧ world.database.tableListBuffer 7 = some [] := by
  obtain ⟨world, ran, first, second, calls⟩ := twoEpochs_run
  have six := (buffered_updates_kept 2 LevelDBStorage.slotOf _ _ (twoEpochs 0 1) world ran 0 .load 6 first).2.2
  have seven := (buffered_updates_kept 2 LevelDBStorage.slotOf _ _ (twoEpochs 0 1) world ran 1 .load 7 second).2.2
  rw [calls] at six seven
  have kept := six ⟨6, 4, []⟩ (.head _) rfl
  have kept' := seven ⟨7, 1, []⟩ (.tail _ (.head _)) rfl
  exact ⟨world, ran, first, second, kept.1, kept.2, kept'.1, kept'.2⟩

/-! A call that nobody disturbs is the one of `DatabaseImpl`. -/

theorem run_buffering {place : BufferPlace} {next : BufferWorld Slot workers}
    (here : world.threads worker = .buffering place call) (stepped : world.bufferStep worker call place = some next)
    (steps : Nat) :
    world.run slotOf (List.replicate (steps + 1) (.advance worker)) =
      next.run slotOf (List.replicate steps (.advance worker)) := by
  have first : world.step slotOf (.advance worker) = some next := by
    rw [step, here]
    exact stepped
  rw [run, List.replicate_succ, List.foldlM_cons, first, Option.bind_eq_bind, Option.bind_some]
  rfl

theorem insertSet_alone (here : world.threads worker = .buffering .insertSet call) :
    world.run slotOf (List.replicate 2 (.advance worker)) =
      some ((world.setDatabase { world.database with
        rwSetBuffer := Function.update world.database.rwSetBuffer call.tid (some call.kvRWSet)
        tableListBuffer := Function.update world.database.tableListBuffer call.tid (some call.tableList) }).setThread
          worker .idle) := by
  rw [run_buffering here rfl, run_buffering (setThread_self ..) rfl]
  simp [run, setThread, setDatabase]

omit [DecidableEq Slot] in
/-- While `commitPhase` is up, every look at it leads to the next place of the fallback. -/
theorem bufferStep_raised (flag : world.database.commitPhase = true) :
    world.bufferStep worker call .load = some (world.setThread worker (.buffering .fastLoad call)) ∧
      world.bufferStep worker call .fastLoad = some (world.setThread worker (.buffering .lock call)) ∧
      world.bufferStep worker call .lockedLoad = some (world.setThread worker (.buffering .clearSets call)) := by
  unfold bufferStep
  rw [flag]
  exact ⟨rfl, rfl, rfl⟩

theorem clear_alone (here : world.threads worker = .buffering .fastLoad call)
    (flag : world.database.commitPhase = true) (free : world.clearMutex = none) (steps : Nat) :
    world.run slotOf (List.replicate (steps + 7) (.advance worker)) =
      ((world.setDatabase world.database.clearBufferThreadSafe).setThread worker (.buffering .insertSet call)).run slotOf
        (List.replicate steps (.advance worker)) := by
  have acquired : (world.setThread worker (.buffering .lock call)).bufferStep worker call .lock =
      some ({ world.setThread worker (.buffering .lock call) with clearMutex := some worker }.setThread worker
        (.buffering .lockedLoad call)) := if_pos free
  have checked := @bufferStep_raised Slot workers
    ({ world.setThread worker (.buffering .lock call) with clearMutex := some worker }.setThread worker
      (.buffering .lockedLoad call)) worker call flag
  rw [run_buffering here (bufferStep_raised flag).2.1, run_buffering (setThread_self ..) acquired,
    run_buffering (setThread_self ..) checked.2.2, run_buffering (setThread_self ..) rfl,
    run_buffering (setThread_self ..) rfl, run_buffering (setThread_self ..) rfl, run_buffering (setThread_self ..) rfl]
  simp [setThread, setDatabase, DatabaseImpl.clearBufferThreadSafe, flag, free]

theorem bufferUpdates_alone (here : world.threads worker = .buffering .load call)
    (free : world.clearMutex = none) :
    ∃ steps, world.run slotOf (List.replicate steps (.advance worker)) =
      some ((world.setDatabase (world.database.bufferUpdates call.tid call.kvRWSet call.tableList)).setThread worker
        .idle) := by
  cases flag : world.database.commitPhase with
  | false =>
    have loaded : world.bufferStep worker call .load = some (world.setThread worker (.buffering .insertSet call)) := by
      rw [bufferStep, flag]
      rfl
    refine ⟨3, ?_⟩
    rw [run_buffering here loaded, insertSet_alone (setThread_self ..)]
    simp [setThread, setDatabase, DatabaseImpl.bufferUpdates, flag]
  | true =>
    refine ⟨10, ?_⟩
    rw [run_buffering here (bufferStep_raised flag).1, clear_alone (setThread_self ..) flag free, insertSet_alone (setThread_self ..)]
    simp [setThread, setDatabase, DatabaseImpl.bufferUpdates, flag, DatabaseImpl.clearBufferThreadSafe]

variable (slotOf) in
theorem update_alone (writes : List KVWrite) (world : BufferWorld Slot workers)
    (here : world.threads worker = .committing (.update writes) tid) :
    world.run slotOf (List.replicate writes.length (.advance worker)) =
      some ((world.setDatabase { world.database with
        db := Overwrite.overwrite world.database.db (writes.map (KVWrite.effect slotOf)) }).setThread worker
        (.committing (.update []) tid)) := by
  induction writes generalizing world with
  | nil =>
    have same : Function.update world.threads worker (.committing (.update []) tid) = world.threads := by
      rw [← here, Function.update_eq_self]
    simp [run, setThread, setDatabase, same]
  | cons kvWrite writes ih =>
    rw [List.length_cons, List.replicate_succ, run, List.foldlM_cons]
    simp only [step, here, commitStep, Option.bind_eq_bind, Option.bind_some]
    rw [← run, ih _ (setThread_self ..)]
    simp [setThread, setDatabase]

theorem commitUpdate_alone (here : world.threads worker = .committing .load tid)
    (free : world.commitMutex = none) {kvRWSet : Ref} (sets : world.database.rwSetBuffer tid = some kvRWSet)
    (tables : (world.database.tableListBuffer tid).isSome) :
    ∃ database steps, world.database.commitUpdate slotOf world.heap tid = some (database, true) ∧
      world.run slotOf (List.replicate steps (.advance worker)) =
        some ((world.setDatabase database).setThread worker .idle) := by
  obtain ⟨tableList, tables⟩ := Option.isSome_iff_exists.mp tables
  cases flag : world.database.commitPhase with
  | true =>
    refine ⟨_, 1, DatabaseImpl.commitUpdate_latched _ _ _ flag, ?_⟩
    simp [run, step, commitStep, here, flag, setDatabase]
  | false =>
    let writes := (world.heap kvRWSet).kvrwSet.writes
    refine ⟨_, 4 + (writes.length + 3), DatabaseImpl.commitUpdate_first _ _ flag sets, ?_⟩
    have checked : world.run slotOf (List.replicate 4 (.advance worker)) =
        some ({ world with commitMutex := some worker }.setThread worker (.committing (.update writes) tid)) := by
      simp [run, step, commitStep, here, flag, free, sets, tables, setThread, writes]
    have written := update_alone slotOf writes _
      (setThread_self { world with commitMutex := some worker } worker (.committing (.update writes) tid))
    rw [run, List.replicate_add, List.foldlM_append, ← run, checked]
    rw [Option.bind_eq_bind, Option.bind_some, List.replicate_add, List.foldlM_append, ← run, written]
    simp [step, commitStep, setThread, setDatabase, free, KVRWSet.effects, writes]

end BufferWorld

end Blockchain
