import MyBlockchain.ReserveTable.ConcurrentReservation
import MyBlockchain.Worker.ReadPhase

namespace Blockchain

namespace MockReserveTable

def cells (table : MockReserveTable) : ReserveCell → Nat
  | .reader key => table.readTableList key
  | .writer key => table.writeTableList key

def withCells (table : MockReserveTable) (cells : ReserveCell → Nat) : MockReserveTable :=
  { table with
    readTableList := fun key => cells (.reader key)
    writeTableList := fun key => cells (.writer key) }

@[simp] theorem withCells_epoch (table : MockReserveTable) (cells : ReserveCell → Nat) :
    (table.withCells cells).epoch = table.epoch := rfl

@[simp] theorem cells_withCells (table : MockReserveTable) (cells : ReserveCell → Nat) :
    (table.withCells cells).cells = cells := by
  funext cell
  cases cell <;> rfl

@[simp] theorem cells_new (epoch : Nat) : (new epoch).cells = fun _ => 0 := by
  funext cell
  cases cell <;> rfl

end MockReserveTable

/-- A worker inside `executeList`: what is left of its workload, the transaction whose `reserveRWset` runs with
the tables its chaincode object holds, and the place in that call. -/
structure ReadWorker where
  queue : List Ref
  running : Option (Ref × List Bytes)
  thread : ReserveThread

structure ReadWorld (Slot : Type) where
  shared : Shared Slot
  workers : Nat → ReadWorker

namespace ReadWorld

variable {Slot : Type} (slotOf : SlotOf Slot) (chaincode : Chaincode)

def start (shared : Shared Slot) (workloads : Nat → List Ref) : ReadWorld Slot where
  shared
  workers := fun worker => { queue := workloads worker, running := none, thread := ⟨[], .load⟩ }

/-- The chaincode runs; where it succeeds, the worker fetches the table and begins `reserveRWset`. -/
def invoke (world : ReadWorld Slot) (worker : Nat) (r : Ref) (rest : List Ref) : ReadWorld Slot :=
  let transaction := world.shared.heap r
  let invocation := world.shared.invoke slotOf chaincode r
  if invocation.success then
    let kvrwSet := transaction.kvrwSet.append invocation.rwSet
    let (provider, table) := world.shared.provider.getHashMapReserveTable transaction.epoch
    { shared := { world.shared with
        heap := Function.update world.shared.heap r { transaction with kvrwSet }
        provider
        reserveTable := Function.update world.shared.reserveTable worker (some table) }
      workers := Function.update world.workers worker
        { queue := rest, running := some (r, invocation.tableList)
          thread := ⟨kvrwSet.visits transaction.tid, .load⟩ } }
  else
    { shared := world.shared.executeTransaction slotOf chaincode worker r
      workers := Function.update world.workers worker { world.workers worker with queue := rest } }

/-- The call has returned and the chaincode object goes out of scope. -/
def buffer (world : ReadWorld Slot) (worker : Nat) (r : Ref) (tableList : List Bytes) : ReadWorld Slot where
  shared := { world.shared with
    database := world.shared.database.bufferUpdates (world.shared.heap r).tid r tableList }
  workers := Function.update world.workers worker { world.workers worker with running := none }

def accessed (world : ReadWorld Slot) (worker : Nat) (table : MockReserveTable)
    (result : (ReserveCell → Nat) × ReserveThread) : ReadWorld Slot where
  shared := { world.shared with
    provider := { world.shared.provider with reserveTable := some (table.withCells result.1) } }
  workers := Function.update world.workers worker { world.workers worker with thread := result.2 }

/-- One step of a worker: an atomic access of the running call, or what stands between two calls. -/
def step (world : ReadWorld Slot) (move : Nat × Bool) : Option (ReadWorld Slot) :=
  match (world.workers move.1).running with
  | none =>
    match (world.workers move.1).queue with
    | [] => none
    | r :: rest => some (world.invoke slotOf chaincode move.1 r rest)
  | some (r, tableList) =>
    if (world.workers move.1).thread.visits = [] then some (world.buffer move.1 r tableList)
    else do
      let address ← world.shared.reserveTable move.1
      let table ← world.shared.provider.deref address
      let result ← (world.workers move.1).thread.access table.cells move.2
      some (world.accessed move.1 table result)

def run (world : ReadWorld Slot) (moves : List (Nat × Bool)) : Option (ReadWorld Slot) :=
  moves.foldlM (step slotOf chaincode) world

def Done (world : ReadWorld Slot) : Prop :=
  ∀ worker, (world.workers worker).queue = [] ∧ (world.workers worker).running = none

variable {slotOf chaincode} {world after : ReadWorld Slot} {move : Nat × Bool}

inductive Stepped (slotOf : SlotOf Slot) (chaincode : Chaincode) (world : ReadWorld Slot) (worker : Nat) :
    ReadWorld Slot → Prop
  | invoke (r : Ref) (rest : List Ref) (idle : (world.workers worker).running = none)
      (next : (world.workers worker).queue = r :: rest) :
    Stepped slotOf chaincode world worker (world.invoke slotOf chaincode worker r rest)
  | buffer (r : Ref) (tableList : List Bytes) (running : (world.workers worker).running = some (r, tableList))
      (returned : (world.workers worker).thread.visits = []) :
    Stepped slotOf chaincode world worker (world.buffer worker r tableList)
  | accessed (fails : Bool) (table : MockReserveTable) (result : (ReserveCell → Nat) × ReserveThread)
      (owned : world.shared.provider.reserveTable = some table)
      (made : (world.workers worker).thread.access table.cells fails = some result) :
    Stepped slotOf chaincode world worker (world.accessed worker table result)

theorem step_cases (stepped : world.step slotOf chaincode move = some after) :
    Stepped slotOf chaincode world move.1 after := by
  unfold step at stepped
  split at stepped
  · next idle =>
    split at stepped
    · cases stepped
    · next r rest next =>
      cases stepped
      exact .invoke r rest idle next
  · next r tableList running =>
    split at stepped
    · next returned =>
      cases stepped
      exact .buffer r tableList running returned
    · obtain ⟨address, -, stepped⟩ := Option.bind_eq_some_iff.mp stepped
      obtain ⟨table, deref, stepped⟩ := Option.bind_eq_some_iff.mp stepped
      obtain ⟨result, made, stepped⟩ := Option.bind_eq_some_iff.mp stepped
      cases stepped
      obtain ⟨-, owned⟩ := Option.ite_none_right_eq_some.mp deref
      exact .accessed move.2 table result owned made

end ReadWorld

/-- The transactions of an epoch before its read phase, with any IDs. -/
structure Shared.EpochOpens {Slot : Type} (shared : Shared Slot) (epoch : Nat) (refs : List Ref) : Prop where
  epochs : ∀ r ∈ refs, (shared.heap r).epoch = epoch
  pending : ∀ r ∈ refs, (shared.heap r).transactionResult = .PENDING
  stale : ∀ table ∈ shared.provider.reserveTable, table.epoch ≠ epoch

namespace ReserveTableProvider

/-- The provider owns a table of this epoch. -/
def Current (provider : ReserveTableProvider) (epoch : Nat) : Prop :=
  ∃ table, provider.reserveTable = some table ∧ table.epoch = epoch

theorem Current.getHashMapReserveTable {provider : ReserveTableProvider} {epoch : Nat}
    (current : provider.Current epoch) :
    provider.getHashMapReserveTable epoch = (provider, provider.destroyed.length) := by
  obtain ⟨table, owned, rfl⟩ := current
  unfold ReserveTableProvider.getHashMapReserveTable
  rw [owned]
  exact if_pos rfl

/-- The table is the one that is there or a new one; in any case it is the one the provider then owns. -/
theorem getHashMapReserveTable_cases (provider : ReserveTableProvider) (epoch : Nat) :
    (provider.getHashMapReserveTable epoch).2 = (provider.getHashMapReserveTable epoch).1.destroyed.length ∧
    ((provider.getHashMapReserveTable epoch).1 = provider ∧ provider.Current epoch ∨
      (provider.getHashMapReserveTable epoch).1.reserveTable = some (.new epoch)) := by
  by_cases current : provider.Current epoch
  · rw [current.getHashMapReserveTable]
    exact ⟨rfl, .inl ⟨rfl, current⟩⟩
  · unfold ReserveTableProvider.getHashMapReserveTable
    cases owned : provider.reserveTable with
    | none => exact ⟨rfl, .inr rfl⟩
    | some table =>
      have other : table.epoch ≠ epoch := fun same => current ⟨table, owned, same⟩
      dsimp only
      rw [if_neg other]
      exact ⟨by simp, .inr rfl⟩

theorem getHashMapReserveTable_current (provider : ReserveTableProvider) (epoch : Nat) :
    (provider.getHashMapReserveTable epoch).1.Current epoch := by
  rcases (provider.getHashMapReserveTable_cases epoch).2 with ⟨same, current⟩ | made
  · rw [same]
    exact current
  · exact ⟨_, made, rfl⟩

end ReserveTableProvider

namespace ReadWorld

variable {Slot : Type} {slotOf : SlotOf Slot} {chaincode : Chaincode} {world after : ReadWorld Slot}
  {move : Nat × Bool} {initial : Shared Slot} {epoch : Nat} {refs : List Ref} {workloads : Nat → List Ref}

def Points (shared : Shared Slot) (epoch worker : Nat) : Prop :=
  shared.reserveTable worker = some shared.provider.destroyed.length ∧ shared.provider.Current epoch

def Pointed (workloads : Nat → List Ref) (world : ReadWorld Slot) (epoch : Nat) : Prop :=
  ∀ worker, ∀ r ∈ workloads worker, r ∉ (world.workers worker).queue →
    (world.shared.heap r).transactionResult ≠ .ABORT_NO_RETRY → Points world.shared epoch worker

def Buffered (workloads : Nat → List Ref) (world : ReadWorld Slot) : Prop :=
  ∀ worker, ∀ r ∈ workloads worker, r ∉ (world.workers worker).queue →
    (∀ tableList, (world.workers worker).running ≠ some (r, tableList)) →
      world.shared.database.commitPhase = false ∧
      (world.shared.database.rwSetBuffer (world.shared.heap r).tid).isSome

/-- A state of the read phase; the IDs in the table are IDs of the epoch. -/
structure Reading (initial : Shared Slot) (epoch : Nat) (refs : List Ref) (workloads : Nat → List Ref)
    (world : ReadWorld Slot) : Prop where
  tid : ∀ r, (world.shared.heap r).tid = (initial.heap r).tid
  epochs : ∀ r, (world.shared.heap r).epoch = (initial.heap r).epoch
  result : ∀ r ∈ refs, (world.shared.heap r).transactionResult = .PENDING ∨
    (world.shared.heap r).transactionResult = .ABORT_NO_RETRY
  queue : ∀ worker, ∀ r ∈ (world.workers worker).queue, r ∈ workloads worker
  visits : ∀ worker, ∀ visit ∈ (world.workers worker).thread.visits,
    ∃ r ∈ refs, (initial.heap r).tid = visit.transactionID
  cells : ∀ table, world.shared.provider.reserveTable = some table → table.epoch = epoch →
    ∀ cell, table.cells cell = 0 ∨ ∃ r ∈ refs, (initial.heap r).tid = table.cells cell
  pointed : Pointed workloads world epoch
  buffered : Buffered workloads world

theorem start_reading (opens : initial.EpochOpens epoch refs) :
    Reading initial epoch refs workloads (start initial workloads) where
  tid _ := rfl
  epochs _ := rfl
  result r member := .inl (opens.pending r member)
  queue _ _ member := member
  visits _ _ member := by cases member
  cells table owned same := absurd same (opens.stale table owned)
  pointed _ r member out := absurd member out
  buffered _ r member out := absurd member out

section Step

variable {worker : Nat}

theorem Reading.accessed (reading : Reading initial epoch refs workloads world) {fails : Bool}
    {table : MockReserveTable} {result : (ReserveCell → Nat) × ReserveThread}
    (owned : world.shared.provider.reserveTable = some table)
    (made : (world.workers worker).thread.access table.cells fails = some result) :
    Reading initial epoch refs workloads (world.accessed worker table result) := by
  obtain ⟨visit, rest, point, thread, done⟩ := ReserveThread.access_cases made
  have here := reading.visits worker
  rw [thread] at here
  have queue : ∀ other, ((world.accessed worker table result).workers other).queue = (world.workers other).queue :=
    Overwrite.view_update ReadWorker.queue rfl
  have running : ∀ other, ((world.accessed worker table result).workers other).running =
      (world.workers other).running := Overwrite.view_update ReadWorker.running rfl
  have current : world.shared.provider.Current epoch →
      (world.accessed worker table result).shared.provider.Current epoch := by
    rintro ⟨other, same, atEpoch⟩
    rw [owned] at same
    cases same
    exact ⟨_, rfl, atEpoch⟩
  constructor
  case tid => exact reading.tid
  case epochs => exact reading.epochs
  case result => exact reading.result
  case queue =>
    intro other r member
    rw [queue] at member
    exact reading.queue other r member
  case visits =>
    intro other next member
    by_cases same : other = worker
    · subst same
      simp only [ReadWorld.accessed, Function.update_self] at member
      exact here next (done.visits member)
    · simp only [ReadWorld.accessed, Function.update_of_ne same] at member
      exact reading.visits other next member
  case cells =>
    intro other same atEpoch cell
    cases same
    rw [MockReserveTable.withCells_epoch] at atEpoch
    rw [MockReserveTable.cells_withCells]
    rcases done.cells cell with kept | ⟨-, written⟩
    · rw [kept]
      exact reading.cells table owned atEpoch cell
    · rw [written]
      exact .inr (here visit (.head _))
  case pointed =>
    intro other r member out live
    rw [queue] at out
    obtain ⟨pointer, own⟩ := reading.pointed other r member out live
    exact ⟨pointer, current own⟩
  case buffered =>
    intro other r member out idle
    rw [queue] at out
    rw [running] at idle
    exact reading.buffered other r member out idle

theorem Reading.buffer (reading : Reading initial epoch refs workloads world) {r : Ref} {tableList : List Bytes}
    (running : (world.workers worker).running = some (r, tableList)) :
    Reading initial epoch refs workloads (world.buffer worker r tableList) := by
  have queue : ∀ other, ((world.buffer worker r tableList).workers other).queue = (world.workers other).queue :=
    Overwrite.view_update ReadWorker.queue rfl
  have thread : ∀ other, ((world.buffer worker r tableList).workers other).thread = (world.workers other).thread :=
    Overwrite.view_update ReadWorker.thread rfl
  constructor
  case tid => exact reading.tid
  case epochs => exact reading.epochs
  case result => exact reading.result
  case queue =>
    intro other s member
    rw [queue] at member
    exact reading.queue other s member
  case visits =>
    intro other visit member
    rw [thread] at member
    exact reading.visits other visit member
  case cells => exact reading.cells
  case pointed =>
    intro other s member out live
    rw [queue] at out
    exact reading.pointed other s member out live
  case buffered =>
    intro other s member out idle
    rw [queue] at out
    refine ⟨DatabaseImpl.bufferUpdates_commitPhase _ _ _ _, DatabaseImpl.bufferUpdates_isSome r tableList ?_⟩
    by_cases before : ∀ tables, (world.workers other).running ≠ some (s, tables)
    · exact .inr (reading.buffered other s member out before)
    · -- the transaction whose call has just returned
      left
      push Not at before
      obtain ⟨tables, before⟩ := before
      by_cases same : other = worker
      · rw [same, running] at before
        cases before
        rfl
      · simp only [ReadWorld.buffer, Function.update_of_ne same] at idle
        exact absurd before (idle tables)

theorem invoke_queue (world : ReadWorld Slot) (worker : Nat) (r : Ref) (rest : List Ref) (other : Nat) :
    ((world.invoke slotOf chaincode worker r rest).workers other).queue =
      Function.update (fun j => (world.workers j).queue) worker rest other := by
  unfold ReadWorld.invoke
  dsimp only
  split <;> exact Function.apply_update (fun _ => ReadWorker.queue) _ _ _ _

theorem Reading.invoke_listed (reading : Reading initial epoch refs workloads world) {r : Ref} {rest : List Ref}
    (next : (world.workers worker).queue = r :: rest) (other : Nat) :
    ∀ s ∈ ((world.invoke slotOf chaincode worker r rest).workers other).queue, s ∈ workloads other := by
  intro s member
  rw [invoke_queue] at member
  by_cases same : other = worker
  · subst same
    rw [Function.update_self] at member
    exact reading.queue other s (by rw [next]; exact .tail _ member)
  · rw [Function.update_of_ne same] at member
    exact reading.queue other s member

theorem invoke_waited {r : Ref} {rest : List Ref} (next : (world.workers worker).queue = r :: rest) (other : Nat)
    (s : Ref) (out : s ∉ ((world.invoke slotOf chaincode worker r rest).workers other).queue)
    (differs : other = worker → s ≠ r) : s ∉ (world.workers other).queue := by
  rw [invoke_queue] at out
  by_cases same : other = worker
  · subst same
    rw [Function.update_self] at out
    rw [next]
    exact fun listed => out ((List.mem_cons.mp listed).resolve_left (differs rfl))
  · rwa [Function.update_of_ne same] at out

theorem Reading.invoke_success (reading : Reading initial epoch refs workloads world)
    (opens : initial.EpochOpens epoch refs) (listed : ∀ worker, ∀ r ∈ workloads worker, r ∈ refs) {r : Ref}
    {rest : List Ref} (idle : (world.workers worker).running = none)
    (next : (world.workers worker).queue = r :: rest)
    (success : (world.shared.invoke slotOf chaincode r).success = true) :
    Reading initial epoch refs workloads (world.invoke slotOf chaincode worker r rest) := by
  have mine : r ∈ workloads worker := reading.queue worker r (by rw [next]; exact .head _)
  have atEpoch : (world.shared.heap r).epoch = epoch := by
    rw [reading.epochs, opens.epochs r (listed worker r mine)]
  obtain ⟨address, owned⟩ :=
    world.shared.provider.getHashMapReserveTable_cases (world.shared.heap r).epoch
  have current := world.shared.provider.getHashMapReserveTable_current (world.shared.heap r).epoch
  have queue : ∀ other, ∀ s ∈ ((world.invoke slotOf chaincode worker r rest).workers other).queue,
      s ∈ workloads other := reading.invoke_listed next
  have waited : ∀ other s, s ∉ ((world.invoke slotOf chaincode worker r rest).workers other).queue →
      (other = worker → s ≠ r) → s ∉ (world.workers other).queue := invoke_waited next
  unfold ReadWorld.invoke at queue waited ⊢
  dsimp only at queue waited ⊢
  rw [if_pos success] at queue waited ⊢
  have tid : ∀ (kvrwSet : KVRWSet) (s : Ref),
      (Function.update world.shared.heap r { world.shared.heap r with kvrwSet } s).tid =
        (world.shared.heap s).tid := fun _ => Overwrite.view_update MockTransaction.tid rfl
  have epochs : ∀ (kvrwSet : KVRWSet) (s : Ref),
      (Function.update world.shared.heap r { world.shared.heap r with kvrwSet } s).epoch =
        (world.shared.heap s).epoch := fun _ => Overwrite.view_update MockTransaction.epoch rfl
  have result : ∀ (kvrwSet : KVRWSet) (s : Ref),
      (Function.update world.shared.heap r { world.shared.heap r with kvrwSet } s).transactionResult =
        (world.shared.heap s).transactionResult := fun _ => Overwrite.view_update MockTransaction.transactionResult rfl
  constructor
  case tid => exact fun s => (tid _ s).trans (reading.tid s)
  case epochs => exact fun s => (epochs _ s).trans (reading.epochs s)
  case result =>
    intro s member
    dsimp only
    rw [result]
    exact reading.result s member
  case queue => exact queue
  case visits =>
    intro other visit member
    dsimp only at member
    by_cases same : other = worker
    · subst same
      rw [Function.update_self] at member
      refine ⟨r, listed other r mine, ?_⟩
      rw [(KVRWSet.mem_visits.mp member).1, reading.tid]
    · rw [Function.update_of_ne same] at member
      exact reading.visits other visit member
  case cells =>
    intro table there sameEpoch cell
    rcases owned with ⟨same, -⟩ | made
    · rw [same] at there
      exact reading.cells table there sameEpoch cell
    · rw [made] at there
      cases there
      rw [MockReserveTable.cells_new]
      exact .inl rfl
  case pointed =>
    intro other s member out live
    dsimp only at live
    rw [result] at live
    refine ⟨?_, atEpoch ▸ current⟩
    by_cases same : other = worker
    · subst same
      dsimp only
      rw [Function.update_self, address]
    · dsimp only at out ⊢
      rw [Function.update_of_ne same] at out ⊢
      obtain ⟨pointer, own⟩ := reading.pointed other s member out live
      rw [atEpoch, own.getHashMapReserveTable]
      exact pointer
  case buffered =>
    intro other s member out still
    dsimp only at still ⊢
    rw [tid]
    apply reading.buffered other s member
    · apply waited other s out
      rintro rfl rfl
      rw [Function.update_self] at still
      exact still _ rfl
    · intro tables
      by_cases same : other = worker
      · rw [same, idle]
        exact fun running => by cases running
      · rw [Function.update_of_ne same] at still
        exact still tables

theorem Reading.invoke_failure (reading : Reading initial epoch refs workloads world) {r : Ref}
    {rest : List Ref} (next : (world.workers worker).queue = r :: rest)
    (failure : ¬ (world.shared.invoke slotOf chaincode r).success = true) :
    Reading initial epoch refs workloads (world.invoke slotOf chaincode worker r rest) := by
  have failed : (world.shared.invoke slotOf chaincode r).success = false := by simpa using failure
  obtain ⟨provider, pointers⟩ := Shared.executeTransaction_failure slotOf chaincode worker world.shared r failed
  have aborted : (world.shared.executed slotOf chaincode r).transactionResult = .ABORT_NO_RETRY := by
    rw [Shared.executed, failed]
    rfl
  have queue : ∀ other, ∀ s ∈ ((world.invoke slotOf chaincode worker r rest).workers other).queue,
      s ∈ workloads other := reading.invoke_listed next
  have waited : ∀ other s, s ∉ ((world.invoke slotOf chaincode worker r rest).workers other).queue →
      (other = worker → s ≠ r) → s ∉ (world.workers other).queue := invoke_waited next
  unfold ReadWorld.invoke at queue waited ⊢
  dsimp only at queue waited ⊢
  rw [if_neg failure] at queue waited ⊢
  have tid : ∀ s, ((world.shared.executeTransaction slotOf chaincode worker r).heap s).tid =
      (world.shared.heap s).tid := by
    intro s
    rw [Shared.executeTransaction_heap]
    exact Overwrite.view_update MockTransaction.tid (by rfl) s
  have running : ∀ other, ((Function.update world.workers worker
      { world.workers worker with queue := rest }) other).running = (world.workers other).running :=
    Overwrite.view_update ReadWorker.running rfl
  have thread : ∀ other, ((Function.update world.workers worker
      { world.workers worker with queue := rest }) other).thread = (world.workers other).thread :=
    Overwrite.view_update ReadWorker.thread rfl
  constructor
  case tid => exact fun s => (tid s).trans (reading.tid s)
  case epochs =>
    intro s
    rw [Shared.executeTransaction_heap, ← reading.epochs s]
    exact Overwrite.view_update MockTransaction.epoch (by rfl) s
  case result =>
    intro s member
    rw [Shared.executeTransaction_heap]
    by_cases same : s = r
    · subst same
      rw [Function.update_self]
      exact .inr aborted
    · rw [Function.update_of_ne same]
      exact reading.result s member
  case queue => exact queue
  case visits =>
    intro other visit member
    rw [thread] at member
    exact reading.visits other visit member
  case cells =>
    rw [provider]
    exact reading.cells
  case pointed =>
    intro other s member out live
    rw [Shared.executeTransaction_heap] at live
    by_cases same : s = r
    · subst same
      rw [Function.update_self] at live
      exact absurd aborted live
    · rw [Function.update_of_ne same] at live
      unfold Points
      rw [provider, pointers]
      exact reading.pointed other s member (waited other s out fun _ => same) live
  case buffered =>
    intro other s member out still
    rw [Shared.executeTransaction_database, tid]
    refine ⟨DatabaseImpl.bufferUpdates_commitPhase _ _ _ _, DatabaseImpl.bufferUpdates_isSome r _ ?_⟩
    by_cases same : s = r
    · rw [same]
      exact .inl rfl
    · rw [running] at still
      exact .inr (reading.buffered other s member (waited other s out fun _ => same) still)

theorem Reading.step (reading : Reading initial epoch refs workloads world)
    (opens : initial.EpochOpens epoch refs) (listed : ∀ worker, ∀ r ∈ workloads worker, r ∈ refs)
    (stepped : world.step slotOf chaincode move = some after) : Reading initial epoch refs workloads after := by
  cases step_cases stepped with
  | invoke r rest idle next =>
    by_cases success : (world.shared.invoke slotOf chaincode r).success = true
    · exact reading.invoke_success opens listed idle next success
    · exact reading.invoke_failure next success
  | buffer r tableList running returned => exact reading.buffer running
  | accessed fails table result owned made => exact reading.accessed owned made

end Step

theorem run_reading (opens : initial.EpochOpens epoch refs) (listed : ∀ worker, ∀ r ∈ workloads worker, r ∈ refs)
    {moves : List (Nat × Bool)} (ran : (start initial workloads).run slotOf chaincode moves = some world) :
    Reading initial epoch refs workloads world := by
  exact Runs.invariant _ (fun stepped reading => reading.step opens listed stepped) ran (start_reading opens)

end ReadWorld

end Blockchain
