import Mathlib.Order.Bounds.Basic
import MyBlockchain.Library.Runs
import MyBlockchain.ReserveTable.MockReserveTable

namespace Blockchain

/-- The atomics of a reserve table: reader and writer of each (table, key). -/
inductive ReserveCell
  | reader (key : Bytes × Bytes)
  | writer (key : Bytes × Bytes)
  deriving DecidableEq, Repr

/-- One pass of a `reserveRWset` call through the loop of a cell. -/
structure Visit where
  transactionID : Nat
  cell : ReserveCell
  deriving DecidableEq, Repr

/-- The loops of a call, those of the read set first. -/
def KVRWSet.visits (kvRWSet : KVRWSet) (transactionID : Nat) : List Visit :=
  kvRWSet.reads.map (fun read => ⟨transactionID, .reader (read.table, read.key)⟩) ++
    kvRWSet.writes.map (fun write => ⟨transactionID, .writer (write.table, write.key)⟩)

def KVRWSet.Touches (kvRWSet : KVRWSet) : ReserveCell → Prop
  | .reader key => key ∈ kvRWSet.readKeys
  | .writer key => key ∈ kvRWSet.writeKeys

theorem KVRWSet.mem_visits {kvRWSet : KVRWSet} {transactionID : Nat} {visit : Visit} :
    visit ∈ kvRWSet.visits transactionID ↔ visit.transactionID = transactionID ∧ kvRWSet.Touches visit.cell := by
  obtain ⟨id, cell⟩ := visit
  simp only [visits, List.mem_append, List.mem_map, Visit.mk.injEq]
  cases cell with
  | reader key =>
    constructor
    · rintro (⟨read, member, rfl, same⟩ | ⟨write, -, -, other⟩)
      · exact ⟨rfl, read, member, ReserveCell.reader.inj same⟩
      · cases other
    · rintro ⟨rfl, read, member, rfl⟩
      exact .inl ⟨read, member, rfl, rfl⟩
  | writer key =>
    constructor
    · rintro (⟨read, -, -, other⟩ | ⟨write, member, rfl, same⟩)
      · cases other
      · exact ⟨rfl, write, member, ReserveCell.writer.inj same⟩
    · rintro ⟨rfl, write, member, rfl⟩
      exact .inr ⟨write, member, rfl, rfl⟩

inductive LoopPoint
  | load
  | store (old : Nat)
  | exchange (old : Nat)
  deriving DecidableEq, Repr

structure ReserveThread where
  visits : List Visit
  point : LoopPoint
  deriving DecidableEq, Repr

/-- The cells and the threads that are calling `reserveRWset`. -/
structure Reserving (Thread : Type) where
  cells : ReserveCell → Nat
  threads : Thread → ReserveThread

/-- One access of a thread; `fails` is a spurious failure of the weak exchange. -/
def ReserveThread.access (cells : ReserveCell → Nat) (fails : Bool) (thread : ReserveThread) :
    Option ((ReserveCell → Nat) × ReserveThread) :=
  match thread.visits with
  | [] => none
  | visit :: rest =>
    match thread.point with
    | .load =>
      if cells visit.cell ≤ visit.transactionID ∧ cells visit.cell ≠ 0 then some (cells, ⟨rest, .load⟩)
      else some (cells, ⟨visit :: rest, .store (cells visit.cell)⟩)
    | .store old =>
      some (Function.update cells visit.cell visit.transactionID, ⟨visit :: rest, .exchange old⟩)
    | .exchange old =>
      if cells visit.cell = old ∧ fails = false then
        some (Function.update cells visit.cell visit.transactionID, ⟨rest, .load⟩)
      else some (cells, ⟨visit :: rest, .load⟩)

inductive Accessed (cells : ReserveCell → Nat) (visit : Visit) (rest : List Visit) :
    LoopPoint → (ReserveCell → Nat) × ReserveThread → Prop
  | leave (small : cells visit.cell ≤ visit.transactionID) (taken : cells visit.cell ≠ 0) :
    Accessed cells visit rest .load (cells, ⟨rest, .load⟩)
  | retry (larger : cells visit.cell = 0 ∨ visit.transactionID < cells visit.cell) :
    Accessed cells visit rest .load (cells, ⟨visit :: rest, .store (cells visit.cell)⟩)
  | store (old : Nat) :
    Accessed cells visit rest (.store old)
      (Function.update cells visit.cell visit.transactionID, ⟨visit :: rest, .exchange old⟩)
  | exchange (old : Nat) (equal : cells visit.cell = old) :
    Accessed cells visit rest (.exchange old)
      (Function.update cells visit.cell visit.transactionID, ⟨rest, .load⟩)
  | again (old : Nat) : Accessed cells visit rest (.exchange old) (cells, ⟨visit :: rest, .load⟩)

theorem ReserveThread.access_cases {cells : ReserveCell → Nat} {fails : Bool} {thread : ReserveThread}
    {result : (ReserveCell → Nat) × ReserveThread} (accessed : thread.access cells fails = some result) :
    ∃ visit rest point, thread = ⟨visit :: rest, point⟩ ∧ Accessed cells visit rest point result := by
  obtain ⟨visits, point⟩ := thread
  unfold access at accessed
  cases visits with
  | nil => cases accessed
  | cons visit rest =>
    refine ⟨visit, rest, point, rfl, ?_⟩
    cases point with
    | load =>
      dsimp only at accessed
      split at accessed
      · next kept =>
        cases accessed
        exact .leave kept.1 kept.2
      · next free =>
        cases accessed
        exact .retry (by omega)
    | store old =>
      cases accessed
      exact .store old
    | exchange old =>
      dsimp only at accessed
      split at accessed
      · next equal =>
        cases accessed
        exact .exchange old equal.1
      · cases accessed
        exact .again old

section Accessed

variable {before : ReserveCell → Nat} {visit : Visit} {rest : List Visit} {point : LoopPoint}
  {result : (ReserveCell → Nat) × ReserveThread}

theorem Accessed.visits (accessed : Accessed before visit rest point result) {other : Visit}
    (left : other ∈ result.2.visits) : other ∈ visit :: rest := by
  cases accessed with
  | leave | exchange => exact .tail _ left
  | retry | store | again => exact left

theorem Accessed.cells (accessed : Accessed before visit rest point result) (cell : ReserveCell) :
    result.1 cell = before cell ∨ visit.cell = cell ∧ result.1 cell = visit.transactionID := by
  have written : Function.update before visit.cell visit.transactionID cell = before cell ∨
      visit.cell = cell ∧ Function.update before visit.cell visit.transactionID cell = visit.transactionID := by
    by_cases same : visit.cell = cell
    · subst same
      exact .inr ⟨rfl, Function.update_self ..⟩
    · exact .inl (Function.update_of_ne (Ne.symm same) ..)
  cases accessed with
  | leave | retry | again => exact .inl rfl
  | store | exchange => exact written

end Accessed

namespace Reserving

variable {Thread : Type} [DecidableEq Thread]

/-- Each thread has its calls before it, one after another, and the table is fresh. -/
def start (calls : Thread → List (KVRWSet × Nat)) : Reserving Thread where
  cells := fun _ => 0
  threads := fun thread => ⟨(calls thread).flatMap fun call => call.1.visits call.2, .load⟩

def step (world : Reserving Thread) (move : Thread × Bool) : Option (Reserving Thread) :=
  ((world.threads move.1).access world.cells move.2).map fun result =>
    { cells := result.1, threads := Function.update world.threads move.1 result.2 }

def run (world : Reserving Thread) (moves : List (Thread × Bool)) : Option (Reserving Thread) :=
  moves.foldlM step world

def ids (calls : Thread → List (KVRWSet × Nat)) (cell : ReserveCell) : Set Nat :=
  fun transactionID => ∃ thread, ∃ call ∈ calls thread, call.1.Touches cell ∧ call.2 = transactionID

/-- A thread has still to go through the loop of this cell with this ID, or is in it. -/
def Pending (world : Reserving Thread) (transactionID : Nat) (cell : ReserveCell) : Prop :=
  ∃ thread, ⟨transactionID, cell⟩ ∈ (world.threads thread).visits

def Returned (world : Reserving Thread) : Prop := ∀ thread, (world.threads thread).visits = []

omit [DecidableEq Thread] in
theorem start_pending {calls : Thread → List (KVRWSet × Nat)} {transactionID : Nat} {cell : ReserveCell} :
    (start calls).Pending transactionID cell ↔ transactionID ∈ ids calls cell := by
  refine exists_congr fun thread => ?_
  simp only [start, List.mem_flatMap, KVRWSet.mem_visits]
  refine exists_congr fun call => and_congr_right fun _ => ?_
  rw [and_comm, eq_comm]

theorem step_cases {world after : Reserving Thread} {move : Thread × Bool}
    (stepped : world.step move = some after) :
    ∃ visit rest point result, world.threads move.1 = ⟨visit :: rest, point⟩ ∧
      Accessed world.cells visit rest point result ∧
      after = { cells := result.1, threads := Function.update world.threads move.1 result.2 } := by
  obtain ⟨result, accessed, rfl⟩ := Option.map_eq_some_iff.mp stepped
  obtain ⟨visit, rest, point, mover, done⟩ := ReserveThread.access_cases accessed
  exact ⟨visit, rest, point, result, mover, done, rfl⟩

/-- Where a call is between its load and its exchange, it loaded 0 or a larger ID. -/
def PointSound (thread : ReserveThread) : Prop :=
  ∀ visit rest old, thread.visits = visit :: rest →
    thread.point = .store old ∨ thread.point = .exchange old → old = 0 ∨ visit.transactionID < old

/-- Only the calls' own IDs ever stand in a cell. -/
structure Sound (calls : Thread → List (KVRWSet × Nat)) (world : Reserving Thread) : Prop where
  pending : ∀ {transactionID cell}, world.Pending transactionID cell → transactionID ∈ ids calls cell
  cells : ∀ cell, world.cells cell = 0 ∨ world.cells cell ∈ ids calls cell
  points : ∀ thread, PointSound (world.threads thread)

section Step

variable {calls : Thread → List (KVRWSet × Nat)} {world after : Reserving Thread} {move : Thread × Bool}

omit [DecidableEq Thread] in
theorem start_sound (calls : Thread → List (KVRWSet × Nat)) : (start calls).Sound calls where
  pending := start_pending.mp
  cells := fun _ => .inl rfl
  points := fun thread visit rest old _ point => by
    rcases point with point | point <;> cases point

theorem step_pending (stepped : world.step move = some after) {transactionID : Nat} {cell : ReserveCell}
    (pending : after.Pending transactionID cell) : world.Pending transactionID cell := by
  obtain ⟨visit, rest, point, result, mover, accessed, rfl⟩ := step_cases stepped
  obtain ⟨thread, member⟩ := pending
  refine ⟨thread, ?_⟩
  dsimp only at member
  by_cases same : thread = move.1
  · subst same
    rw [Function.update_self] at member
    rw [mover]
    exact accessed.visits member
  · rwa [Function.update_of_ne same] at member

theorem Sound.step (sound : world.Sound calls) (stepped : world.step move = some after) : after.Sound calls where
  pending := fun pending => sound.pending (step_pending stepped pending)
  cells := fun cell => by
    obtain ⟨visit, rest, point, result, mover, accessed, rfl⟩ := step_cases stepped
    rcases accessed.cells cell with kept | ⟨rfl, written⟩
    · dsimp only
      rw [kept]
      exact sound.cells cell
    · refine .inr (sound.pending ⟨move.1, ?_⟩)
      dsimp only
      rw [written, mover]
      exact .head _
  points := fun thread => by
    obtain ⟨visit, rest, point, result, mover, accessed, rfl⟩ := step_cases stepped
    by_cases same : thread = move.1
    · subst same
      have before := sound.points move.1
      rw [mover] at before
      dsimp only
      rw [Function.update_self]
      intro current others old started atPoint
      cases accessed with
      | leave | exchange | again => rcases atPoint with atPoint | atPoint <;> cases atPoint
      | retry larger =>
        cases started
        rcases atPoint with atPoint | atPoint
        · cases atPoint
          exact larger
        · cases atPoint
      | store recorded =>
        cases started
        rcases atPoint with atPoint | atPoint
        · cases atPoint
        · cases atPoint
          exact before visit rest old rfl (.inl rfl)
    · dsimp only
      rw [Function.update_of_ne same]
      exact sound.points thread

end Step

end Reserving

end Blockchain
