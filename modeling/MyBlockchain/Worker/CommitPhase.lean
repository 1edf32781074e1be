import MyBlockchain.Worker.ReadPhase

namespace Blockchain

open Overwrite

/-- The branches of `commitList` on a dependency; `commitUpdate` never fails. -/
def TransactionDependency.outcome (trDependency : TransactionDependency) : TransactionResult :=
  if trDependency.waw then .ABORT
  else if !trDependency.war || !trDependency.raw then .COMMIT
  else .ABORT

theorem TransactionDependency.outcome_commit_iff (trDependency : TransactionDependency) :
    trDependency.outcome = .COMMIT ↔
      ¬ trDependency.waw = true ∧ ¬ (trDependency.war = true ∧ trDependency.raw = true) := by
  obtain ⟨raw, waw, war⟩ := trDependency
  cases raw <;> cases waw <;> cases war <;> decide

theorem TransactionDependency.outcome_cases (trDependency : TransactionDependency) :
    trDependency.outcome = .COMMIT ∨ trDependency.outcome = .ABORT := by
  unfold outcome
  split
  · exact .inr rfl
  · split
    · exact .inl rfl
    · exact .inr rfl

namespace Shared

variable {Slot : Type} (slotOf : SlotOf Slot)

/-- What the commit phase will decide for a transaction, in the state in which that phase starts. -/
def outcome (shared : Shared Slot) (r : Ref) : TransactionResult :=
  if (shared.heap r).transactionResult = .ABORT_NO_RETRY then .ABORT_NO_RETRY
  else
    let table := shared.provider.reserveTable.getD (.new 0)
    (table.dependencyAnalysis (shared.heap r).kvrwSet (shared.heap r).tid).outcome

def passing (shared : Shared Slot) (refs : List Ref) : List Ref :=
  refs.filter fun r => shared.outcome r = .COMMIT

theorem passing_append_singleton (read : Shared Slot) (done : List Ref) (r : Ref) :
    read.passing (done ++ [r]) = read.passing done ++ if read.outcome r = .COMMIT then [r] else [] := by
  unfold passing
  split <;> simp [*]

def effects (shared : Shared Slot) (refs : List Ref) : List (Slot × Option Bytes) :=
  refs.flatMap fun r => (shared.heap r).kvrwSet.effects slotOf

/-- A worker that may commit a transaction finds the table and the buffered write set. -/
def Prepared (shared : Shared Slot) (iteration : Nat × Ref) : Prop :=
  (shared.heap iteration.2).transactionResult ≠ .ABORT_NO_RETRY →
    shared.reserveTable iteration.1 = some shared.provider.destroyed.length ∧
    shared.provider.reserveTable.isSome ∧
    shared.database.rwSetBuffer (shared.heap iteration.2).tid = some iteration.2 ∧
    shared.database.commitPhase = false

/-- The database after the first passing transaction: later ones find the latch up. -/
def latched [DecidableEq Slot] (shared : Shared Slot) (passing : List Ref) : DatabaseImpl Slot :=
  match passing with
  | [] => shared.database
  | first :: _ =>
    { shared.database with
      db := overwrite shared.database.db (shared.effects slotOf [first])
      commitPhase := true }

/-- The state of a commit phase in which the listed iterations have happened. -/
structure CommitDone [DecidableEq Slot] (read : Shared Slot) (done : List Ref) (shared : Shared Slot) :
    Prop where
  waiting : ∀ r, r ∉ done → shared.heap r = read.heap r
  decided : ∀ r ∈ done, shared.heap r = (read.heap r).setTransactionResult (read.outcome r)
  provider : shared.provider = read.provider
  pointers : shared.reserveTable = read.reserveTable
  database : shared.database = read.latched slotOf (read.passing done)

variable [DecidableEq Slot] {slotOf} {read shared : Shared Slot} {done : List Ref}

theorem CommitDone.refl (read : Shared Slot) : CommitDone slotOf read [] read where
  waiting _ _ := rfl
  decided := by simp
  provider := rfl
  pointers := rfl
  database := rfl

theorem CommitDone.decide (committed : CommitDone slotOf read done shared) {r : Ref} (new : r ∉ done)
    {database : DatabaseImpl Slot} (after : database = read.latched slotOf (read.passing (done ++ [r]))) :
    CommitDone slotOf read (done ++ [r])
      ({ shared with database }.setTransactionResult r (read.outcome r)) where
  waiting other out := by
    simp only [List.mem_append, List.mem_singleton, not_or] at out
    simp only [setTransactionResult, Function.update_of_ne out.2]
    exact committed.waiting other out.1
  decided other member := by
    by_cases same : other = r
    · subst same
      simp [setTransactionResult, committed.waiting other new]
    · have earlier : other ∈ done := by simpa [same] using member
      simp only [setTransactionResult, Function.update_of_ne same]
      exact committed.decided other earlier
  provider := committed.provider
  pointers := committed.pointers
  database := after

theorem CommitDone.commitUpdate (committed : CommitDone slotOf read done shared) {r : Ref} (new : r ∉ done)
    (passes : read.outcome r = .COMMIT) (buffered : read.database.rwSetBuffer (read.heap r).tid = some r)
    (down : read.database.commitPhase = false) :
    shared.database.commitUpdate slotOf shared.heap (read.heap r).tid =
      some (read.latched slotOf (read.passing (done ++ [r])), true) := by
  rw [passing_append_singleton, if_pos passes, committed.database]
  cases earlier : read.passing done with
  | nil =>
    have object := committed.waiting r new
    rw [latched, DatabaseImpl.commitUpdate_first slotOf shared.heap down buffered, object]
    simp [latched, effects]
  | cons first rest => exact DatabaseImpl.commitUpdate_latched _ _ _ rfl

omit [DecidableEq Slot] in
theorem outcome_congr {first second : Shared Slot} {r : Ref} (heap : first.heap r = second.heap r)
    (provider : first.provider = second.provider) : first.outcome r = second.outcome r := by
  rw [outcome, outcome, heap, provider]

variable (slotOf) in
theorem commitTransaction_eq (shared : Shared Slot) (worker : Nat) (r : Ref)
    (live : (shared.heap r).transactionResult ≠ .ABORT_NO_RETRY →
      shared.reserveTable worker = some shared.provider.destroyed.length ∧ shared.provider.reserveTable.isSome)
    {database : DatabaseImpl Slot} (updated : shared.outcome r = .COMMIT →
      shared.database.commitUpdate slotOf shared.heap (shared.heap r).tid = some (database, true)) :
    shared.commitTransaction slotOf worker r =
      some ({ shared with
        database := if shared.outcome r = TransactionResult.COMMIT then database else shared.database }.setTransactionResult r
          (shared.outcome r)) := by
  unfold commitTransaction
  dsimp only
  by_cases failed : (shared.heap r).transactionResult = .ABORT_NO_RETRY
  · have decided : shared.outcome r = .ABORT_NO_RETRY := by rw [outcome, if_pos failed]
    have kept : (shared.heap r).setTransactionResult .ABORT_NO_RETRY = shared.heap r := by
      rw [← failed]
      rfl
    rw [if_pos failed, decided, if_neg (by decide)]
    simp [setTransactionResult, kept]
  · obtain ⟨pointer, there⟩ := live failed
    obtain ⟨table, owned⟩ := Option.isSome_iff_exists.mp there
    have decided : shared.outcome r =
        (table.dependencyAnalysis (shared.heap r).kvrwSet (shared.heap r).tid).outcome := by
      rw [outcome, if_neg failed, owned]
      rfl
    rw [if_neg failed, pointer]
    simp only [Option.bind_eq_bind, Option.bind_some, ReserveTableProvider.deref, if_true, owned]
    rw [decided] at updated ⊢
    unfold TransactionDependency.outcome at updated ⊢
    split
    · rfl
    · next notWaw =>
      rw [if_neg notWaw] at updated
      split
      · next noConflict =>
        rw [if_pos noConflict] at updated
        rw [updated rfl]
        rfl
      · rfl

theorem CommitDone.step (committed : CommitDone slotOf read done shared) (worker : Nat) {r : Ref}
    (new : r ∉ done) (prepared : read.Prepared (worker, r)) :
    ∃ next, shared.commitTransaction slotOf worker r = some next ∧
      CommitDone slotOf read (done ++ [r]) next := by
  have object : shared.heap r = read.heap r := committed.waiting r new
  have decided : shared.outcome r = read.outcome r := outcome_congr object committed.provider
  have passes : read.outcome r = .COMMIT → (read.heap r).transactionResult ≠ .ABORT_NO_RETRY := by
    intro commit failed
    rw [outcome, if_pos failed] at commit
    cases commit
  have updated : shared.outcome r = .COMMIT →
      shared.database.commitUpdate slotOf shared.heap (shared.heap r).tid =
        some (read.latched slotOf (read.passing (done ++ [r])), true) := by
    intro commit
    rw [decided] at commit
    obtain ⟨-, -, buffered, down⟩ := prepared (passes commit)
    rw [object]
    exact committed.commitUpdate new commit buffered down
  have ran := commitTransaction_eq slotOf shared worker r (fun live => ?live) updated
  case live =>
    rw [object] at live
    obtain ⟨pointer, there, -⟩ := prepared live
    rw [committed.pointers, committed.provider]
    exact ⟨pointer, there⟩
  refine ⟨_, ran, ?_⟩
  rw [decided]
  apply committed.decide new
  split
  · rfl
  · next other =>
    rw [committed.database, passing_append_singleton, if_neg other, List.append_nil]

variable (slotOf) in
theorem commitAll_done (read : Shared Slot) {schedule : List (Nat × Ref)}
    (nodup : (schedule.map Prod.snd).Nodup) (prepared : ∀ iteration ∈ schedule, read.Prepared iteration) :
    ∃ final, read.commitAll slotOf schedule = some final ∧
      CommitDone slotOf read (schedule.map Prod.snd) final := by
  induction schedule using List.reverseRecOn with
  | nil => exact ⟨read, rfl, .refl read⟩
  | append_singleton schedule iteration ih =>
    rw [List.map_append, List.map_singleton] at nodup ⊢
    obtain ⟨before, -, apart⟩ := List.nodup_append.mp nodup
    have new : iteration.2 ∉ schedule.map Prod.snd := fun member => apart _ member _ (by simp) rfl
    obtain ⟨middle, run, committed⟩ := ih before fun i member => prepared i (List.mem_append_left _ member)
    obtain ⟨final, last, committed⟩ := committed.step iteration.1 new (prepared iteration (by simp))
    refine ⟨final, ?_, committed⟩
    unfold commitAll at run ⊢
    rw [List.foldlM_append, run]
    simpa using last

end Shared

end Blockchain
