import MyBlockchain.ReserveTable.ConcurrentReservation

namespace Blockchain

namespace Reserving

variable {Thread : Type} [DecidableEq Thread] {calls : Thread → List (KVRWSet × Nat)}
  {world after : Reserving Thread} {move : Thread × Bool} {moves : List (Thread × Bool)} {cell : ReserveCell}
  {least : Nat}

/-- A call that stores its ID does so before the call with the smallest ID has left the cell. -/
def StoresInTime (calls : Thread → List (KVRWSet × Nat)) (world : Reserving Thread) (thread : Thread) : Prop :=
  ∀ visit rest old, world.threads thread = ⟨visit :: rest, .store old⟩ →
    ∀ least, IsLeast (ids calls visit.cell) least → world.Pending least visit.cell

/-- The call with the smallest ID is not done with the cell, or the cell holds its ID. -/
def Held (world : Reserving Thread) (cell : ReserveCell) (least : Nat) : Prop :=
  world.Pending least cell ∨ world.cells cell = least

/-- The smallest ID is not in the cell and no call is left to bring it there. -/
def Lost (world : Reserving Thread) (cell : ReserveCell) (least : Nat) : Prop :=
  ¬ world.Pending least cell ∧ world.cells cell ≠ least

theorem pending_kept {thread : Thread} {visit : Visit} {rest : List Visit} {point : LoopPoint} {transactionID : Nat}
    (mover : world.threads thread = ⟨visit :: rest, point⟩) (pending : world.Pending transactionID cell)
    {cells : ReserveCell → Nat} {new : ReserveThread}
    (kept : new.visits = visit :: rest ∨ new.visits = rest ∧ visit ≠ ⟨transactionID, cell⟩) :
    Pending { cells, threads := Function.update world.threads thread new } transactionID cell := by
  obtain ⟨other, member⟩ := pending
  refine ⟨other, ?_⟩
  dsimp only
  by_cases same : other = thread
  · subst same
    rw [mover] at member
    rw [Function.update_self]
    rcases kept with kept | ⟨kept, differs⟩
    · rw [kept]
      exact member
    · rw [kept]
      exact (List.mem_cons.mp member).resolve_left (Ne.symm differs)
  · rwa [Function.update_of_ne same]

omit [DecidableEq Thread] in
/-- A smallest ID that stands in its cell cannot be exchanged for another one. -/
theorem Sound.exchange_smaller (sound : world.Sound calls) (isLeast : IsLeast (ids calls cell) least)
    (nonzero : least ≠ 0) {thread : Thread} {visit : Visit} {rest : List Visit} {old : Nat}
    (mover : world.threads thread = ⟨visit :: rest, .exchange old⟩) (here : visit.cell = cell) : old ≠ least := by
  have above : least ≤ visit.transactionID := by
    apply isLeast.2
    rw [← here]
    exact sound.pending ⟨thread, by rw [mover]; exact .head _⟩
  have loaded := sound.points thread visit rest old (by rw [mover]) (.inr (by rw [mover]))
  omega

theorem Held.step (isLeast : IsLeast (ids calls cell) least) (nonzero : least ≠ 0) (sound : world.Sound calls)
    (inTime : world.StoresInTime calls move.1) (stepped : world.step move = some after)
    (held : world.Held cell least) : after.Held cell least := by
  obtain ⟨visit, rest, point, result, mover, accessed, rfl⟩ := step_cases stepped
  by_cases here : visit.cell = cell
  · subst here
    cases accessed with
    | leave small taken =>
      rcases held with pending | stands
      · by_cases own : visit = ⟨least, visit.cell⟩
        · -- the call with the smallest ID leaves: it has found no larger ID in the cell
          have id : visit.transactionID = least := congrArg Visit.transactionID own
          have bound := isLeast.2 ((sound.cells visit.cell).resolve_left taken)
          exact .inr (Nat.le_antisymm (id ▸ small) bound)
        · exact .inl (pending_kept mover pending (.inr ⟨rfl, own⟩))
      · exact .inr stands
    | retry | again =>
      rcases held with pending | stands
      · exact .inl (pending_kept mover pending (.inl rfl))
      · exact .inr stands
    | store old => exact .inl (pending_kept mover (inTime visit rest old mover least isLeast) (.inl rfl))
    | exchange old equal =>
      rcases held with pending | stands
      · by_cases own : visit = ⟨least, visit.cell⟩
        · have id : visit.transactionID = least := congrArg Visit.transactionID own
          refine .inr ?_
          dsimp only
          rw [Function.update_self, id]
        · exact .inl (pending_kept mover pending (.inr ⟨rfl, own⟩))
      · exact absurd (equal.symm.trans stands) (sound.exchange_smaller isLeast nonzero mover rfl)
  · have elsewhere : visit ≠ ⟨least, cell⟩ := fun same => here (congrArg Visit.cell same)
    rcases held with pending | stands
    · refine .inl (pending_kept mover pending ?_)
      cases accessed with
      | leave | exchange => exact .inr ⟨rfl, elsewhere⟩
      | retry | store | again => exact .inl rfl
    · refine .inr ?_
      cases accessed with
      | leave | retry | again => exact stands
      | store | exchange =>
        dsimp only
        rwa [Function.update_of_ne (Ne.symm here)]

theorem Lost.step (stepped : world.step move = some after) (lost : world.Lost cell least) :
    after.Lost cell least := by
  refine ⟨fun pending => lost.1 (step_pending stepped pending), ?_⟩
  obtain ⟨visit, rest, point, result, mover, accessed, rfl⟩ := step_cases stepped
  have written : Function.update world.cells visit.cell visit.transactionID cell ≠ least := by
    by_cases same : cell = visit.cell
    · subst same
      rw [Function.update_self]
      rintro rfl
      exact lost.1 ⟨move.1, by rw [mover]; exact .head _⟩
    · rw [Function.update_of_ne same]
      exact lost.2
  cases accessed with
  | leave | retry | again => exact lost.2
  | store | exchange => exact written

/-- A store after the call with the smallest ID has left is never repaired. -/
theorem lost_of_late_store {visit : Visit} {rest : List Visit} {old : Nat}
    (mover : world.threads move.1 = ⟨visit :: rest, .store old⟩) (late : ¬ world.Pending least visit.cell)
    (stepped : world.step move = some after) : after.Lost visit.cell least := by
  refine ⟨fun pending => late (step_pending stepped pending), ?_⟩
  obtain ⟨other, others, point, result, same, accessed, rfl⟩ := step_cases stepped
  rw [mover] at same
  cases same
  cases accessed with
  | store =>
    dsimp only
    rw [Function.update_self]
    rintro rfl
    exact late ⟨move.1, by rw [mover]; exact .head _⟩

theorem run_held (isLeast : IsLeast (ids calls cell) least) (nonzero : least ≠ 0) (sound : world.Sound calls)
    (inTime : Runs.Along step (fun world move => world.StoresInTime calls move.1) world moves)
    (ran : world.run moves = some after) (held : world.Held cell least) : after.Held cell least := by
  refine (Runs.invariant_along (fun world => world.Sound calls ∧ world.Held cell least)
    (fun stepped inTime before => ?_) ran inTime ⟨sound, held⟩).2
  exact ⟨before.1.step stepped, before.2.step isLeast nonzero before.1 inTime stepped⟩

theorem along_of_least (ran : world.run moves = some after)
    (final : ∀ cell least, IsLeast (ids calls cell) least → after.cells cell = least) :
    Runs.Along step (fun world move => world.StoresInTime calls move.1) world moves := by
  induction moves generalizing world with
  | nil => exact trivial
  | cons move rest ih =>
    obtain ⟨next, stepped, ran⟩ := Option.bind_eq_some_iff.mp ran
    constructor
    · intro visit others old mover least isLeast
      by_contra late
      have lost : after.Lost visit.cell least :=
        Runs.invariant (Lost · visit.cell least) Lost.step ran (lost_of_late_store mover late stepped)
      exact lost.2 (final visit.cell least isLeast)
    · intro other same
      rw [stepped] at same
      cases same
      exact ih ran

end Reserving

/-- Once all calls have returned, every cell holds the smallest ID of the calls that reserve it if and only if
no call has stored its own ID in a cell after the call with the smallest ID had left it. -/
theorem concurrent_reservation_iff {Thread : Type} [DecidableEq Thread] (calls : Thread → List (KVRWSet × Nat))
    (nonzero : ∀ thread, ∀ call ∈ calls thread, call.2 ≠ 0) (moves : List (Thread × Bool))
    (after : Reserving Thread) (ran : (Reserving.start calls).run moves = some after) (returned : after.Returned) :
    (∀ cell least, IsLeast (Reserving.ids calls cell) least → after.cells cell = least) ↔
      Runs.Along Reserving.step (fun world move => world.StoresInTime calls move.1) (Reserving.start calls) moves := by
  constructor
  · exact Reserving.along_of_least ran
  · intro inTime cell least isLeast
    have notZero : least ≠ 0 := by
      obtain ⟨thread, call, member, -, rfl⟩ := isLeast.1
      exact nonzero thread call member
    have held := Reserving.run_held isLeast notZero (Reserving.start_sound calls) inTime ran
      (.inl (Reserving.start_pending.mpr isLeast.1))
    refine held.resolve_left fun pending => ?_
    obtain ⟨thread, member⟩ := pending
    rw [returned thread] at member
    cases member

namespace Reserving

/-- Two threads that read one key, with the IDs 1 and 2. -/
def readers : Bool → List (KVRWSet × Nat)
  | false => [(⟨[⟨[1], [], []⟩], []⟩, 1)]
  | true => [(⟨[⟨[1], [], []⟩], []⟩, 2)]

/-- The second thread has loaded 0 when the first goes through its loop, and stores 2 afterwards. -/
def lateStore : List (Bool × Bool) :=
  [true, false, false, false, false, true, true, true].map fun thread => (thread, false)

/-- One thread after the other. -/
def inTurn : List (Bool × Bool) :=
  [false, false, false, false, true].map fun thread => (thread, false)

theorem readers_least : IsLeast (ids readers (.reader ([], [1]))) 1 := by
  constructor
  · exact ⟨false, _, .head _, ⟨_, .head _, rfl⟩, rfl⟩
  · rintro transactionID ⟨thread, call, member, -, rfl⟩
    cases thread with
    | false => rw [List.mem_singleton.mp member]
    | true =>
      rw [List.mem_singleton.mp member]
      decide

end Reserving

theorem concurrent_reservation_in_turn : ∃ after : Reserving Bool,
    (Reserving.start Reserving.readers).run Reserving.inTurn = some after ∧
    ((∀ cell least, IsLeast (Reserving.ids Reserving.readers cell) least → after.cells cell = least) ↔
      Runs.Along Reserving.step (fun world move => world.StoresInTime Reserving.readers move.1)
        (Reserving.start Reserving.readers) Reserving.inTurn) := by
  refine ⟨_, rfl, concurrent_reservation_iff Reserving.readers ?_ Reserving.inTurn _ rfl ?_⟩
  · intro thread
    cases thread <;> decide
  · intro thread
    cases thread <;> rfl

theorem late_store_overwrites_minimum : ∃ after : Reserving Bool,
    (Reserving.start Reserving.readers).run Reserving.lateStore = some after ∧ after.Returned ∧
    IsLeast (Reserving.ids Reserving.readers (.reader ([], [1]))) 1 ∧ after.cells (.reader ([], [1])) = 2 := by
  refine ⟨_, rfl, ?_, Reserving.readers_least, rfl⟩
  intro thread
  cases thread <;> rfl

end Blockchain
