import MyBlockchain.Common.LightweightSemaphore
import MyBlockchain.Library.CountingSemaphore

namespace Blockchain.LightweightSemaphore

open CountingSemaphore (Status)

/-- The thread counts as one that waits, in `m_count`. -/
def Stage.waiting : Stage → Nat
  | .sleep .. | .adjust .. | .adjustTake .. | .adjustBack .. => 1
  | _ => 0

def Stage.posting : Stage → Nat
  | .post left => left
  | _ => 0

/-- What the number of waiting threads is in `m_count`. -/
def debt (semaphore : LightweightSemaphore) : Nat := (-semaphore.count).toNat

def Purpose.patient (purpose : Purpose) (demand : Demand) : Bool :=
  match purpose with
  | .attempt _ => false
  | .wait timeout_usecs => timeout_usecs < 0 && 0 < demand.max

def Stage.status : Stage → Status
  | .done result => .done result
  | .load purpose demand | .exchange purpose demand _ _ => .taking purpose.held demand.max (purpose.patient demand)
  | .spin _ demand timeout_usecs _ | .spinExchange _ demand timeout_usecs _ _ _ | .sleep demand timeout_usecs _ _ =>
    .taking 0 demand.max ((Purpose.wait timeout_usecs).patient demand)
  | .adjust demand _ | .adjustTake demand _ | .adjustBack demand _ _ _ => .taking 0 demand.max false
  | .add count => .raising count
  | .post _ => .done 0

/-- What a step can do to the permits that are there and to the thread that makes it. `limit` bounds what it grabs. -/
inductive Change (limit : Int → Prop) : Int → Status → Int → Status → Prop
  | stutter (available : Int) (status : Status) : Change limit available status available status
  | finish (available : Int) (permits room : Nat) :
      Change limit available (.taking permits room false) available (.done permits)
  | grab (available : Int) (permits room count : Nat) (patient : Bool) (positive : 0 < count) (fits : count ≤ room)
      (enough : limit count) :
      Change limit available (.taking permits room patient) (available - count)
        (.taking (permits + count) (room - count) false)
  | grabFinish (available : Int) (permits room count : Nat) (patient : Bool) (positive : 0 < count)
      (fits : count ≤ room) (enough : limit count) :
      Change limit available (.taking permits room patient) (available - count) (.done (permits + count))
  | signal (available : Int) (count : Nat) : Change limit available (.raising count) (available + count) (.done 0)

theorem Change.balance {limit : Int → Prop} {here there : Int} {status final : Status}
    (change : Change limit here status there final) : there + final.permits = here + status.permits := by
  cases change with
  | stutter | finish => rfl
  | grab | grabFinish | signal =>
    simp only [Status.permits]
    omega

def Call.max : Call → Nat
  | .tryWait | .wait _ => 1
  | .tryWaitMany max | .waitMany max _ => max
  | .signal _ => 0

def Call.patient : Call → Bool
  | .wait timeout_usecs => timeout_usecs < 0
  | .waitMany max timeout_usecs => timeout_usecs < 0 && 0 < max
  | _ => false

def Call.Admits (call : Call) : Status → Prop
  | .done permits => permits ≤ call.max ∧ (call.patient = true → 0 < permits)
  | .taking permits room patient => permits + room ≤ call.max ∧ (call.patient = true → patient = true ∨ 0 < permits)
  | .raising permits => call = .signal permits

theorem Call.begin_admits (call : Call) : call.Admits call.begin.status := by
  cases call with
  | tryWait => exact ⟨Nat.le_refl _, fun patient => by cases patient⟩
  | wait timeout_usecs =>
    refine ⟨Nat.le_refl _, fun patient => .inl ?_⟩
    simpa [Purpose.patient, Call.patient, Demand.max] using patient
  | tryWaitMany max => exact ⟨by simp [Purpose.held, Demand.max, Call.max], fun patient => by cases patient⟩
  | waitMany max timeout_usecs =>
    exact ⟨by simp [Purpose.held, Demand.max, Call.max], .inl⟩
  | signal count => rfl

theorem Change.admits {limit : Int → Prop} {here there : Int} {status final : Status} {call : Call}
    (change : Change limit here status there final) (admits : call.Admits status) : call.Admits final := by
  cases change with
  | stutter => exact admits
  | finish permits room =>
    exact ⟨Nat.le_trans (Nat.le_add_right ..) admits.1, fun patient => (admits.2 patient).resolve_left Bool.false_ne_true⟩
  | grab permits room count patient positive fits enough =>
    refine ⟨?_, fun _ => .inr (by omega)⟩
    have bound := admits.1
    omega
  | grabFinish permits room count patient positive fits enough =>
    refine ⟨?_, fun _ => by omega⟩
    have bound := admits.1
    omega
  | signal count =>
    cases admits
    exact ⟨Nat.le_refl 0, fun patient => by cases patient⟩

variable {maxSpins : Nat} {semaphore after : LightweightSemaphore} {stage next : Stage} {choice : Choice}

theorem Demand.newCount_grab (demand : Demand) (wanted : 0 < demand.max) {oldCount : Int} (positive : 0 < oldCount) :
    ∃ count : Nat, demand.newCount oldCount = oldCount - count ∧ 0 < count ∧ count ≤ demand.max ∧ count ≤ oldCount := by
  cases demand with
  | one => exact ⟨1, rfl, Nat.one_pos, Nat.le_refl 1, by omega⟩
  | many max =>
    simp only [newCount]
    by_cases more : oldCount > max
    · exact ⟨max, by rw [if_pos more], wanted, Nat.le_refl max, by omega⟩
    · refine ⟨oldCount.toNat, ?_, by omega, ?_, by omega⟩
      · rw [if_neg more]
        omega
      · change oldCount.toNat ≤ max
        omega

theorem Demand.newCount_nonneg (demand : Demand) {oldCount : Int} (positive : 0 < oldCount) :
    0 ≤ demand.newCount oldCount := by
  cases demand with
  | one =>
    simp only [newCount]
    omega
  | many max =>
    simp only [newCount]
    split <;> omega

theorem Demand.newCount_none (demand : Demand) (nothing : ¬ 0 < demand.max) {oldCount : Int} (positive : 0 < oldCount) :
    demand.newCount oldCount = oldCount := by
  cases demand with
  | one => exact absurd Nat.one_pos nothing
  | many max =>
    have zero : max = 0 := Nat.eq_zero_of_not_pos nothing
    subst zero
    simp only [newCount]
    rw [if_pos (by simpa using positive)]
    omega

theorem newCount_debt (demand : Demand) (positive : 0 < semaphore.count) :
    { semaphore with count := demand.newCount semaphore.count }.debt = semaphore.debt := by
  have nonneg := demand.newCount_nonneg positive
  simp only [debt]
  omega

theorem Purpose.patient_none (purpose : Purpose) {demand : Demand} (nothing : ¬ 0 < demand.max) :
    purpose.patient demand = false := by
  cases purpose with
  | attempt held => rfl
  | wait timeout_usecs => simp only [patient, nothing, decide_false, Bool.and_false]

def Stage.Quiet (stage : Stage) : Prop := stage.waiting = 0 ∧ stage.posting = 0

theorem Demand.acquired_quiet (demand : Demand) : demand.acquired.Quiet := by
  cases demand with
  | one => exact ⟨rfl, rfl⟩
  | many max =>
    rw [acquired]
    split <;> exact ⟨rfl, rfl⟩

theorem tryLoop_quiet (purpose : Purpose) (demand : Demand) (oldCount : Int) :
    (tryLoop maxSpins purpose demand oldCount).Quiet := by
  unfold tryLoop
  split
  · exact ⟨rfl, rfl⟩
  · split
    · exact ⟨rfl, rfl⟩
    · split <;> exact ⟨rfl, rfl⟩

variable {limit : Int → Prop} {available : Int}

theorem tryLoop_change (purpose : Purpose) (demand : Demand) (oldCount : Int) :
    Change limit available (.taking purpose.held demand.max (purpose.patient demand)) available
      (tryLoop maxSpins purpose demand oldCount).status := by
  unfold tryLoop
  split
  · exact .stutter ..
  · cases purpose with
    | attempt held => exact .finish ..
    | wait timeout_usecs =>
      dsimp only
      split
      · exact .stutter ..
      · rename_i nothing
        rw [(Purpose.wait timeout_usecs).patient_none nothing]
        exact .finish ..

theorem Demand.acquired_change (demand : Demand) (wanted : 0 < demand.max) (patient : Bool) (enough : limit 1) :
    Change limit available (.taking 0 demand.max patient) (available - 1) demand.acquired.status := by
  cases demand with
  | one => exact .grabFinish available 0 1 1 patient Nat.one_pos (Nat.le_refl 1) enough
  | many max =>
    rw [acquired]
    split
    · exact .grab available 0 max 1 patient Nat.one_pos wanted enough
    · exact .grabFinish available 0 max 1 patient Nat.one_pos wanted enough

theorem exchange_change (purpose : Purpose) (demand : Demand) {oldCount : Int} (positive : 0 < oldCount)
    (enough : ∀ count ≤ oldCount, limit count) :
    Change limit oldCount (.taking purpose.held demand.max (purpose.patient demand)) (demand.newCount oldCount)
      (.done (purpose.held + (oldCount - demand.newCount oldCount).toNat)) := by
  by_cases wanted : 0 < demand.max
  · obtain ⟨count, grabbed, some, fits, within⟩ := demand.newCount_grab wanted positive
    rw [grabbed, Int.sub_sub_self, Int.toNat_natCast]
    exact .grabFinish _ _ _ count _ some fits (enough count within)
  · rw [demand.newCount_none wanted positive, purpose.patient_none wanted, Int.sub_self]
    exact .finish ..

/-- As many permits are there as are counted, and as many as have been posted. -/
def Covers (semaphore : LightweightSemaphore) (count : Int) : Prop :=
  count ≤ semaphore.count ∨ count ≤ semaphore.sema

/-- What a step does: the threads that wait are in `m_count` below zero, in `m_sema` or in a post to come, and so they
are after it. -/
structure Effect (semaphore : LightweightSemaphore) (stage : Stage) (after : LightweightSemaphore) (next : Stage) :
    Prop where
  debt : next.waiting + semaphore.debt + semaphore.sema + stage.posting =
    stage.waiting + after.debt + after.sema + next.posting
  change : Change semaphore.Covers (semaphore.count + stage.waiting) stage.status (after.count + next.waiting)
    next.status

theorem Effect.of_same (waits : next.waiting = stage.waiting) (posts : next.posting = stage.posting)
    (change : Change semaphore.Covers (semaphore.count + stage.waiting) stage.status
      (semaphore.count + stage.waiting) next.status) : Effect semaphore stage semaphore next where
  debt := by rw [waits, posts]
  change := by rwa [waits]

theorem Effect.of_tryLoop (calm : stage.Quiet) {purpose : Purpose} {demand : Demand}
    (taking : stage.status = .taking purpose.held demand.max (purpose.patient demand)) :
    Effect semaphore stage semaphore (tryLoop maxSpins purpose demand semaphore.count) :=
  .of_same ((tryLoop_quiet ..).1.trans calm.1.symm) ((tryLoop_quiet ..).2.trans calm.2.symm) <| by
    rw [taking]
    exact tryLoop_change ..

theorem Effect.of_exchange (calm : stage.Quiet) {purpose : Purpose} {demand : Demand} (positive : 0 < semaphore.count)
    (taking : stage.status = .taking purpose.held demand.max (purpose.patient demand)) :
    Effect semaphore stage { semaphore with count := demand.newCount semaphore.count }
      (.done (purpose.held + (semaphore.count - demand.newCount semaphore.count).toNat)) where
  debt := by
    rw [calm.1, calm.2, newCount_debt demand positive]
    rfl
  change := by
    have taken := @exchange_change semaphore.Covers purpose demand _ positive fun _ within => Or.inl within
    rw [calm.1, taking]
    simpa only [Stage.waiting, Stage.status, Int.natCast_zero, Int.add_zero] using taken

theorem Effect.of_token (waiting : stage.waiting = 1) (posting : stage.posting = 0) {demand : Demand}
    (wanted : 0 < demand.max) {patient : Bool} (taking : stage.status = .taking 0 demand.max patient)
    (token : 0 < semaphore.sema) :
    Effect semaphore stage { semaphore with sema := semaphore.sema - 1 } demand.acquired where
  debt := by
    rw [waiting, posting, demand.acquired_quiet.1, demand.acquired_quiet.2]
    simp only [LightweightSemaphore.debt]
    omega
  change := by
    have got := @Demand.acquired_change semaphore.Covers (semaphore.count + 1) demand wanted patient
      (.inr (by exact_mod_cast token))
    rw [waiting, taking, demand.acquired_quiet.1]
    simpa only [Int.natCast_one, Int.natCast_zero, Int.add_zero, Int.add_sub_cancel] using got

theorem Effect.of_subtract (calm : stage.Quiet) {demand : Demand} (wanted : 0 < demand.max) {timeout_usecs : Int}
    (taking : stage.status = .taking 0 demand.max ((Purpose.wait timeout_usecs).patient demand)) :
    Effect semaphore stage { semaphore with count := semaphore.count - 1 }
      (if 0 < semaphore.count then demand.acquired
        else if waits : timeout_usecs = 0 then .adjust demand wanted
        else .sleep demand timeout_usecs wanted waits) := by
  by_cases positive : 0 < semaphore.count
  · rw [if_pos positive]
    refine ⟨?_, ?_⟩
    · rw [calm.1, calm.2, demand.acquired_quiet.1, demand.acquired_quiet.2]
      simp only [LightweightSemaphore.debt]
      omega
    · have got := @Demand.acquired_change semaphore.Covers semaphore.count demand wanted
        ((Purpose.wait timeout_usecs).patient demand) (.inl positive)
      rw [calm.1, taking, demand.acquired_quiet.1]
      simpa only [Int.natCast_zero, Int.add_zero] using got
  · rw [if_neg positive]
    -- one more waits, and the count says so
    have deeper : { semaphore with count := semaphore.count - 1 }.debt = semaphore.debt + 1 := by
      simp only [LightweightSemaphore.debt]
      omega
    split
    · rename_i zero
      subst zero
      refine ⟨?_, ?_⟩
      · rw [calm.1, calm.2, deeper]
        simp only [Stage.waiting, Stage.posting]
        omega
      · rw [calm.1, taking]
        simpa [Stage.waiting, Stage.status, Purpose.patient] using Change.stutter ..
    · refine ⟨?_, ?_⟩
      · rw [calm.1, calm.2, deeper]
        simp only [Stage.waiting, Stage.posting]
        omega
      · rw [calm.1, taking]
        simpa [Stage.waiting, Stage.status] using Change.stutter ..

theorem released (toRelease : Int) :
    (if toRelease > 0 then Stage.post toRelease.toNat else .done 0).waiting = 0 ∧
      (if toRelease > 0 then Stage.post toRelease.toNat else .done 0).posting = toRelease.toNat ∧
      (if toRelease > 0 then Stage.post toRelease.toNat else .done 0).status = .done 0 := by
  split
  · exact ⟨rfl, rfl, rfl⟩
  · refine ⟨rfl, ?_, rfl⟩
    simp only [Stage.posting]
    omega

/-- The `fetch_add` of `signal`, which finds how many of the new permits are for threads that wait. -/
theorem Effect.of_add (count : Nat) {toRelease : Int}
    (least : toRelease = if -semaphore.count < count then -semaphore.count else count) :
    Effect semaphore (.add count) { semaphore with count := semaphore.count + count }
      (if toRelease > 0 then .post toRelease.toNat else .done 0) where
  debt := by
    rw [(released toRelease).1, (released toRelease).2.1, least]
    simp only [Stage.waiting, Stage.posting, LightweightSemaphore.debt]
    split <;> omega
  change := by
    rw [(released toRelease).1, (released toRelease).2.2]
    simpa only [Stage.waiting, Stage.status, Int.natCast_zero, Int.add_zero] using Change.signal semaphore.count count

theorem step_effect (stepped : step maxSpins stage choice semaphore = some (after, next)) :
    Effect semaphore stage after next := by
  cases stage <;> cases choice <;> simp only [step, reduceCtorEq, Option.some.injEq, Prod.mk.injEq] at stepped
  case load.go purpose demand =>
    obtain ⟨rfl, rfl⟩ := stepped
    exact .of_tryLoop ⟨rfl, rfl⟩ rfl
  case exchange.go purpose demand oldCount positive =>
    split at stepped <;> cases stepped
    · rename_i same
      subst same
      exact .of_exchange ⟨rfl, rfl⟩ positive rfl
    · exact .of_tryLoop ⟨rfl, rfl⟩ rfl
  case exchange.weak purpose demand oldCount positive =>
    obtain ⟨rfl, rfl⟩ := stepped
    exact .of_tryLoop ⟨rfl, rfl⟩ rfl
  case spin.go left demand timeout_usecs wanted =>
    cases left with
    | succ left =>
      cases stepped
      split <;> exact .of_same rfl rfl (.stutter ..)
    | zero =>
      cases stepped
      exact .of_subtract ⟨rfl, rfl⟩ wanted rfl
  case spinExchange.go left demand timeout_usecs wanted oldCount positive =>
    split at stepped <;> cases stepped
    · rename_i same
      subst same
      have swapped := @Effect.of_exchange semaphore (.spinExchange left demand timeout_usecs wanted _ positive)
        ⟨rfl, rfl⟩ (.wait timeout_usecs) demand positive rfl
      simpa only [Purpose.held, Nat.zero_add] using swapped
    · exact .of_same rfl rfl (.stutter ..)
  case sleep.go demand timeout_usecs wanted waits =>
    split at stepped <;> cases stepped
    rename_i token
    exact .of_token rfl rfl wanted rfl token
  case sleep.timeOut demand timeout_usecs wanted waits =>
    split at stepped <;> cases stepped
    rename_i limited
    refine .of_same rfl rfl ?_
    have impatient : (Purpose.wait timeout_usecs).patient demand = false := by
      simp only [Purpose.patient, Bool.and_eq_false_imp, decide_eq_true_eq]
      omega
    simp only [Stage.status, impatient]
    exact .stutter ..
  case adjust.go demand wanted =>
    obtain ⟨rfl, rfl⟩ := stepped
    split <;> exact .of_same rfl rfl (.stutter ..)
  case adjustTake.go demand wanted =>
    split at stepped <;> cases stepped
    · rename_i token
      exact .of_token rfl rfl wanted rfl token
    · exact .of_same rfl rfl (.stutter ..)
  case adjustBack.go demand wanted oldCount negative =>
    split at stepped <;> cases stepped
    · rename_i same
      subst same
      refine ⟨?_, ?_⟩
      · simp only [Stage.waiting, Stage.posting, LightweightSemaphore.debt]
        omega
      · simpa only [Stage.waiting, Stage.status, Int.natCast_one, Int.natCast_zero, Int.add_zero] using Change.finish ..
    · exact .of_same rfl rfl (.stutter ..)
  case add.go count =>
    obtain ⟨rfl, rfl⟩ := stepped
    exact .of_add count rfl
  case post.go left =>
    cases left with
    | succ left =>
      cases stepped
      refine ⟨?_, .stutter ..⟩
      simp only [Stage.waiting, Stage.posting, LightweightSemaphore.debt]
      omega
    | zero =>
      cases stepped
      exact .of_same rfl rfl (.stutter ..)

end Blockchain.LightweightSemaphore
