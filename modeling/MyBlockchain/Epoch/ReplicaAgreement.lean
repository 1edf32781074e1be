import MyBlockchain.Epoch.Replica
import MyBlockchain.Epoch.Serializable

namespace Blockchain

open Interleaving Overwrite Shared

namespace Shared

variable {Slot : Type} {slotOf : SlotOf Slot} {chaincode : Chaincode} {start other : Shared Slot}

section Congruence

variable (heap : start.heap = other.heap) (db : start.database.db = other.database.db)

include heap db

theorem invoke_congr : start.invoke slotOf chaincode = other.invoke slotOf chaincode := by
  funext r
  rw [invoke, invoke, heap, db]

theorem executed_congr : start.executed slotOf chaincode = other.executed slotOf chaincode := by
  funext r
  rw [executed, executed, heap, invoke_congr heap db]

theorem accepted_congr {refs others : List Ref} (perm : refs.Perm others) (r : Ref) :
    start.Accepted slotOf chaincode refs r ↔ other.Accepted slotOf chaincode others r := by
  have ranks : start.rank = other.rank := by
    funext s
    rw [rank, rank, heap]
  have reads : start.readKeys slotOf chaincode = other.readKeys slotOf chaincode := by
    funext s
    rw [readKeys, readKeys, executed_congr heap db]
  have writes : start.writeKeys slotOf chaincode = other.writeKeys slotOf chaincode := by
    funext s
    rw [writeKeys, writeKeys, executed_congr heap db]
  have reservers : start.reservers slotOf chaincode refs = other.reservers slotOf chaincode others := by
    ext s
    simp only [Shared.reservers, Set.mem_ofPred_eq, perm.mem_iff, invoke_congr heap db]
  rw [Accepted, Accepted, ranks, reads, writes, reservers]

end Congruence

theorem outcome_cases (read : Shared Slot) (r : Ref) :
    read.outcome r = .COMMIT ∨ read.outcome r = .ABORT ∨ read.outcome r = .ABORT_NO_RETRY := by
  unfold outcome
  split
  · exact .inr (.inr rfl)
  · rcases TransactionDependency.outcome_cases _ with commit | abort
    · exact .inl commit
    · exact .inr (.inl abort)

theorem ReadDone.outcome_congr {epoch : Nat} {done others : List (Nat × Ref)} {read second : Shared Slot}
    (first : ReadDone slotOf chaincode start epoch done read)
    (again : ReadDone slotOf chaincode other epoch others second)
    (ready : start.EpochStart epoch (done.map Prod.snd)) (ready_ : other.EpochStart epoch (others.map Prod.snd))
    (heap : start.heap = other.heap) (db : start.database.db = other.database.db)
    (perm : (done.map Prod.snd).Perm (others.map Prod.snd)) {r : Ref} (member : r ∈ done.map Prod.snd) :
    read.outcome r = second.outcome r := by
  have listed : r ∈ others.map Prod.snd := perm.mem_iff.mp member
  have commits : read.outcome r = .COMMIT ↔ second.outcome r = .COMMIT := by
    rw [first.outcome_commit_iff ready member, again.outcome_commit_iff ready_ listed]
    exact accepted_congr heap db perm r
  have failures : read.outcome r = .ABORT_NO_RETRY ↔ second.outcome r = .ABORT_NO_RETRY := by
    rw [first.outcome_failed_iff ready member, again.outcome_failed_iff ready_ listed,
      invoke_congr heap db]
  rcases read.outcome_cases r with commit | abort | failure
  · rw [commit, commits.mp commit]
  · rcases second.outcome_cases r with commit | abort_ | failure
    · rw [commits.mpr commit] at abort
      cases abort
    · rw [abort, abort_]
    · rw [failures.mpr failure] at abort
      cases abort
  · rw [failure, failures.mp failure]

end Shared

namespace Replica

variable {Slot : Type} [DecidableEq Slot] {slotOf : SlotOf Slot} {chaincode : Chaincode}
  {proto : TransactionProto} {crypto : BlockCrypto}

section Trace

variable {replica after : Replica Slot} {schedule : Schedule} {outcome : EpochOutcome Slot}
  {read final : Shared Slot} {finished : FinishEpoch} {refs : List Ref}
  (trace : EpochTrace slotOf chaincode proto crypto replica schedule after outcome read final finished)
  (sound : replica.Sound) (arrives : replica.Arrives refs) (valid : schedule.Of (replica.retried ++ refs))

include trace valid

theorem EpochTrace.final_heap {r : Ref} (member : r ∈ replica.retried ++ refs) :
    final.heap r = (replica.shared.executed slotOf chaincode r).setTransactionResult (read.outcome r) :=
  trace.ran.heap (valid.executes.mem_iff.mpr member) (valid.commits.mem_iff.mpr member)

theorem EpochTrace.final_other {r : Ref} (out : r ∉ replica.retried ++ refs) :
    final.heap r = replica.shared.heap r := by
  rw [trace.ran.committed.waiting r fun member => out (valid.commits.mem_iff.mp member),
    trace.ran.executed.waiting r fun member => out (valid.executes.mem_iff.mp member)]

include sound arrives

theorem EpochTrace.sound_after : after.Sound := by
  have aborted : ∀ r ∈ after.retried, r ∈ replica.retried ++ refs ∧
      after.shared.heap r = FinishEpoch.retry (replica.epoch + 1) (final.heap r) := by
    intro r member
    rw [trace.retried, trace.looped.next] at member
    obtain ⟨listed, abort⟩ := List.mem_filter.mp (show r ∈ FinishEpoch.aborted final.heap schedule.order from member)
    refine ⟨valid.order.mem_iff.mp listed, ?_⟩
    rw [trace.shared]
    exact (trace.looped.heap r listed).trans (if_pos (of_decide_eq_true abort))
  constructor
  case queue => exact trace.queue
  case fresh =>
    intro r member
    rw [(aborted r member).2]
    exact ⟨rfl, rfl⟩
  case epochs =>
    intro r member
    rw [(aborted r member).2, trace.epoch]
    rfl
  case nonzero =>
    intro r member
    rw [(aborted r member).2, trace.final_heap valid (aborted r member).1]
    exact (sound.ready arrives).nonzero r (aborted r member).1
  case tables =>
    intro table owned
    rw [trace.epoch]
    rw [trace.shared, show ({ final with heap := finished.heap } : Shared Slot).provider = final.provider from rfl,
      trace.ran.committed.provider] at owned
    rcases trace.ran.executed.table with ⟨-, unchanged⟩ | ⟨address, owns, -⟩
    · rw [unchanged] at owned
      exact Nat.lt_succ_of_lt (sound.tables table owned)
    · obtain ⟨current, here, epoch, -⟩ := owns.table
      rw [here] at owned
      obtain rfl := Option.some.inj owned
      rw [epoch]
      exact Nat.lt_succ_self _

end Trace

/-- Two servers that agree run the same epoch. -/
structure Twice (slotOf : SlotOf Slot) (chaincode : Chaincode) (proto : TransactionProto)
    (crypto crypto₂ : BlockCrypto) (refs : List Ref) (first second after after₂ : Replica Slot)
    (schedule schedule₂ : Schedule) (outcome outcome₂ : EpochOutcome Slot) (read read₂ final final₂ : Shared Slot)
    (finished finished₂ : FinishEpoch) : Prop where
  agrees : first.Agrees second
  sound : first.Sound
  sound₂ : second.Sound
  arrives : first.Arrives refs
  arrives₂ : second.Arrives refs
  valid : schedule.Of (first.retried ++ refs)
  valid₂ : schedule₂.Of (second.retried ++ refs)
  trace : EpochTrace slotOf chaincode proto crypto first schedule after outcome read final finished
  trace₂ : EpochTrace slotOf chaincode proto crypto₂ second schedule₂ after₂ outcome₂ read₂ final₂ finished₂
  sha256 : crypto.sha256 = crypto₂.sha256
  resultByte : crypto.resultByte = crypto₂.resultByte

namespace Twice

variable {crypto₂ : BlockCrypto} {refs : List Ref} {first second after after₂ : Replica Slot}
  {schedule schedule₂ : Schedule} {outcome outcome₂ : EpochOutcome Slot} {read read₂ final final₂ : Shared Slot}
  {finished finished₂ : FinishEpoch}
  (twice : Twice slotOf chaincode proto crypto crypto₂ refs first second after after₂ schedule schedule₂
    outcome outcome₂ read read₂ final final₂ finished finished₂)

include twice

theorem refs_perm : (first.retried ++ refs).Perm (second.retried ++ refs) :=
  twice.agrees.retried.append_right refs

theorem ready : first.shared.EpochStart first.epoch (schedule.executes.map Prod.snd) :=
  (twice.sound.ready twice.arrives).perm twice.valid.executes

theorem ready₂ : second.shared.EpochStart first.epoch (schedule₂.executes.map Prod.snd) := by
  rw [twice.agrees.epoch]
  exact (twice.sound₂.ready twice.arrives₂).perm twice.valid₂.executes

theorem outcomes {r : Ref} (member : r ∈ first.retried ++ refs) : read.outcome r = read₂.outcome r := by
  have executed₂ : ReadDone slotOf chaincode second.shared first.epoch schedule₂.executes read₂ := by
    rw [twice.agrees.epoch]
    exact twice.trace₂.ran.executed
  refine twice.trace.ran.executed.outcome_congr executed₂ twice.ready twice.ready₂ twice.agrees.heap
    twice.agrees.db ?_ (twice.valid.executes.mem_iff.mpr member)
  exact (twice.valid.executes.trans twice.refs_perm).trans twice.valid₂.executes.symm

theorem heaps : final.heap = final₂.heap := by
  funext r
  by_cases member : r ∈ first.retried ++ refs
  · rw [twice.trace.final_heap twice.valid member,
      twice.trace₂.final_heap twice.valid₂ (twice.refs_perm.mem_iff.mp member), twice.outcomes member,
      executed_congr twice.agrees.heap twice.agrees.db]
  · rw [twice.trace.final_other twice.valid member,
      twice.trace₂.final_other twice.valid₂ fun listed => member (twice.refs_perm.mem_iff.mpr listed),
      twice.agrees.heap]

theorem orders : schedule.order.Perm schedule₂.order :=
  (twice.valid.order.trans twice.refs_perm).trans twice.valid₂.order.symm

theorem finished_heaps : finished.heap = finished₂.heap := by
  funext r
  by_cases member : r ∈ schedule.order
  · rw [twice.trace.looped.heap r member, twice.trace₂.looped.heap r (twice.orders.mem_iff.mp member),
      loop_heap, loop_heap, twice.agrees.epoch, twice.heaps]
  · rw [twice.trace.looped.waiting r member,
      twice.trace₂.looped.waiting r fun listed => member (twice.orders.mem_iff.mpr listed), loop_heap,
      loop_heap, twice.heaps]

theorem queues : finished.transactionQueue.Perm finished₂.transactionQueue := by
  rw [twice.trace.looped.queue, twice.trace₂.looped.queue]
  simp only [loop_queue, loop_heap, twice.sound.queue, twice.sound₂.queue, List.nil_append,
    FinishEpoch.recorded, twice.heaps]
  exact twice.orders.filter _

theorem popped : BlockStorageToFile.popAll finished.heap finished.transactionQueue =
    BlockStorageToFile.popAll finished₂.heap finished₂.transactionQueue := by
  rw [← twice.finished_heaps]
  refine BlockStorageToFile.popAll_eq_of_perm twice.queues fun r hr s hs same => ?_
  have listed : ∀ t ∈ finished.transactionQueue, t ∈ first.retried ++ refs ∧
      (finished.heap t).tid = (first.shared.heap t).tid := by
    intro t member
    rw [twice.trace.looped.queue] at member
    simp only [loop_queue, loop_heap, twice.sound.queue, List.nil_append] at member
    have ordered := (List.mem_filter.mp member).1
    have current := twice.valid.order.mem_iff.mp ordered
    refine ⟨current, ?_⟩
    rw [twice.trace.looped.heap t ordered, loop_heap, twice.trace.final_heap twice.valid current]
    split <;> rfl
  by_contra different
  refine (twice.sound.ready twice.arrives).tid_ne (listed r hr).1 (listed s hs).1 different ?_
  rw [← (listed r hr).2, ← (listed s hs).2, same]

theorem results_eq : outcome.results = outcome₂.results := by
  rw [twice.trace.results, twice.trace₂.results, twice.heaps]

theorem data_eq : outcome.data = outcome₂.data := by
  rw [twice.trace.data, twice.trace₂.data, twice.popped, twice.finished_heaps, twice.sha256]

theorem resultString_eq : outcome.resultString = outcome₂.resultString := by
  rw [twice.trace.resultString, twice.trace₂.resultString, twice.popped, twice.finished_heaps,
    twice.resultByte]

theorem agrees_after (db : outcome.db = outcome₂.db) : after.Agrees after₂ where
  heap := by rw [twice.trace.shared, twice.trace₂.shared]; exact twice.finished_heaps
  db := by
    rw [twice.trace.shared, twice.trace₂.shared]
    rw [twice.trace.db, twice.trace₂.db] at db
    exact db
  epoch := by rw [twice.trace.epoch, twice.trace₂.epoch, twice.agrees.epoch]
  retried := by
    rw [twice.trace.retried, twice.trace₂.retried, twice.trace.looped.next, twice.trace₂.looped.next]
    simp only [loop, FinishEpoch.aborted, twice.heaps]
    exact twice.orders.filter _

theorem dbs : read.database.db = read₂.database.db := by
  rw [twice.trace.ran.executed.db, twice.trace₂.ran.executed.db, twice.agrees.db]

theorem passing_perm : (read.passing (schedule.commits.map Prod.snd)).Perm
    (read₂.passing (schedule₂.commits.map Prod.snd)) := by
  have same : read.passing (schedule.commits.map Prod.snd) = read₂.passing (schedule.commits.map Prod.snd) :=
    List.filter_congr fun r member => by
      rw [twice.outcomes (twice.valid.commits.mem_iff.mp member)]
  rw [same]
  exact ((twice.valid.commits.trans twice.refs_perm).trans twice.valid₂.commits.symm).filter _

theorem outcome_eq_iff : outcome = outcome₂ ↔ outcome.db = outcome₂.db := by
  constructor
  · rintro rfl
    rfl
  · intro db
    have results := twice.results_eq
    have data := twice.data_eq
    have resultString := twice.resultString_eq
    cases outcome
    cases outcome₂
    simp_all

end Twice

end Replica

theorem Shared.latched_db_eq_iff {Slot : Type} [DecidableEq Slot] {slotOf : SlotOf Slot}
    {read read₂ : Shared Slot} {passing passing₂ : List Ref} (db : read.database.db = read₂.database.db)
    (perm : passing.Perm passing₂) :
    (read.latched slotOf passing).db = (read₂.latched slotOf passing₂).db ↔
      ∀ r ∈ passing.head?, ∀ s ∈ passing₂.head?,
        overwrite read.database.db (read.effects slotOf [r]) =
          overwrite read₂.database.db (read₂.effects slotOf [s]) := by
  cases passing with
  | nil =>
    obtain rfl := List.nil_perm.mp perm
    simpa [latched] using db
  | cons first rest =>
    cases passing₂ with
    | nil => exact absurd (List.perm_nil.mp perm) (by simp)
    | cons first₂ rest₂ => simp [latched]

structure EpochPair (Slot : Type) where
  first : Replica Slot
  second : Replica Slot
  refs : List Ref
  schedule : Schedule
  schedule₂ : Schedule
  after : Replica Slot
  after₂ : Replica Slot
  outcome : EpochOutcome Slot
  outcome₂ : EpochOutcome Slot

namespace EpochPair

variable {Slot : Type} [DecidableEq Slot] (slotOf : SlotOf Slot) (chaincode : Chaincode)

/-- Both servers get the same transactions; each has its own schedule and its own key. -/
structure Runs (proto : TransactionProto) (crypto crypto₂ : BlockCrypto) (pair : EpochPair Slot) : Prop where
  arrives : pair.first.Arrives pair.refs
  arrives₂ : pair.second.Arrives pair.refs
  valid : pair.schedule.Of (pair.first.retried ++ pair.refs)
  valid₂ : pair.schedule₂.Of (pair.second.retried ++ pair.refs)
  run : pair.first.runEpoch slotOf chaincode proto crypto pair.schedule = some (pair.after, pair.outcome)
  run₂ : pair.second.runEpoch slotOf chaincode proto crypto₂ pair.schedule₂ = some (pair.after₂, pair.outcome₂)

/-- The transactions that pass the dependency analysis first in the two commit orders leave the same
database. -/
def Settled (pair : EpochPair Slot) : Prop :=
  let read := pair.first.shared.executeAll slotOf chaincode pair.schedule.executes
  let read₂ := pair.second.shared.executeAll slotOf chaincode pair.schedule₂.executes
  ∀ r ∈ (read.passing (pair.schedule.commits.map Prod.snd)).head?,
    ∀ s ∈ (read₂.passing (pair.schedule₂.commits.map Prod.snd)).head?,
      overwrite read.database.db (read.effects slotOf [r]) = overwrite read₂.database.db (read₂.effects slotOf [s])

/-- The epochs of two servers, one after the other. -/
inductive History (proto : TransactionProto) (crypto crypto₂ : BlockCrypto) :
    Replica Slot → Replica Slot → List (EpochPair Slot) → Prop
  | nil (first second : Replica Slot) : History proto crypto crypto₂ first second []
  | cons (pair : EpochPair Slot) (pairs : List (EpochPair Slot))
      (runs : pair.Runs slotOf chaincode proto crypto crypto₂)
      (rest : History proto crypto crypto₂ pair.after pair.after₂ pairs) :
      History proto crypto crypto₂ pair.first pair.second (pair :: pairs)

variable {slotOf chaincode} {proto : TransactionProto} {crypto crypto₂ : BlockCrypto}

theorem Runs.step {pair : EpochPair Slot} (runs : pair.Runs slotOf chaincode proto crypto crypto₂)
    (agrees : pair.first.Agrees pair.second) (sound : pair.first.Sound) (sound₂ : pair.second.Sound)
    (sha256 : crypto.sha256 = crypto₂.sha256) (resultByte : crypto.resultByte = crypto₂.resultByte) :
    (pair.outcome = pair.outcome₂ ↔ pair.Settled slotOf chaincode) ∧
    (pair.outcome = pair.outcome₂ → pair.after.Agrees pair.after₂) ∧ pair.after.Sound ∧ pair.after₂.Sound := by
  obtain ⟨read, final, finished, trace⟩ := Replica.trace_of_run sound runs.arrives runs.valid runs.run
  obtain ⟨read₂, final₂, finished₂, trace₂⟩ := Replica.trace_of_run sound₂ runs.arrives₂ runs.valid₂ runs.run₂
  have twice : Replica.Twice slotOf chaincode proto crypto crypto₂ pair.refs pair.first pair.second pair.after
      pair.after₂ pair.schedule pair.schedule₂ pair.outcome pair.outcome₂ read read₂ final final₂ finished finished₂ :=
    ⟨agrees, sound, sound₂, runs.arrives, runs.arrives₂, runs.valid, runs.valid₂, trace, trace₂, sha256, resultByte⟩
  refine ⟨?_, fun same => twice.agrees_after (by rw [same]), trace.sound_after sound runs.arrives runs.valid,
    trace₂.sound_after sound₂ runs.arrives₂ runs.valid₂⟩
  rw [twice.outcome_eq_iff, trace.db, trace₂.db, trace.ran.committed.database, trace₂.ran.committed.database,
    latched_db_eq_iff twice.dbs twice.passing_perm, Settled, trace.ran.between, trace₂.ran.between]

end EpochPair

/-- Two servers that start alike see the same results, databases and blocks after every epoch exactly when
in every epoch the two transactions that pass first have the same effect. -/
theorem replicas_agree_iff {Slot : Type} [DecidableEq Slot] (slotOf : SlotOf Slot) (chaincode : Chaincode)
    (proto : TransactionProto) (crypto crypto₂ : BlockCrypto) (sha256 : crypto.sha256 = crypto₂.sha256)
    (resultByte : crypto.resultByte = crypto₂.resultByte) (first second : Replica Slot)
    (agrees : first.Agrees second) (sound : first.Sound) (sound₂ : second.Sound) (pairs : List (EpochPair Slot))
    (history : EpochPair.History slotOf chaincode proto crypto crypto₂ first second pairs) :
    (∀ pair ∈ pairs, pair.outcome = pair.outcome₂) ↔ ∀ pair ∈ pairs, pair.Settled slotOf chaincode := by
  induction history with
  | nil first second => simp
  | cons pair pairs runs rest ih =>
    obtain ⟨settled, agree, sound, sound₂⟩ := runs.step agrees sound sound₂ sha256 resultByte
    rw [List.forall_mem_cons, List.forall_mem_cons, settled]
    exact and_congr_right fun here => ih (agree (settled.mpr here)) sound sound₂

section TwoCounters

def counterReplica : Replica Bytes where
  shared := counterEpoch Bytes
  storage := { transactionQueue := [], blockNum := 0, files := fun _ => none }
  epoch := 1
  retried := []

def counterSchedule (order : List Ref) : Schedule where
  workloads := order.map fun r => (r, [r])
  executes := order.map fun r => (r, r)
  commits := order.map fun r => (r, r)
  order := order.reverse

def counterPair (order order₂ : List Ref) : EpochPair Bytes :=
  let run (order : List Ref) : Replica Bytes × EpochOutcome Bytes :=
    (counterReplica.runEpoch LevelDBStorage.slotOf (ORMTestChaincode.InvokeChaincode counterInputs) counterProto
      counterCrypto (counterSchedule order)).getD (counterReplica, ⟨fun _ => .PENDING, fun _ => none, [], none⟩)
  { first := counterReplica, second := counterReplica, refs := [1, 2]
    schedule := counterSchedule order, schedule₂ := counterSchedule order₂
    after := (run order).1, after₂ := (run order₂).1, outcome := (run order).2, outcome₂ := (run order₂).2 }

theorem counterReplica_sound : counterReplica.Sound where
  queue := rfl
  fresh := by simp [counterReplica]
  epochs := by simp [counterReplica]
  nonzero := by simp [counterReplica]
  tables := by simp [counterReplica, counterEpoch, ReserveTableProvider.initial]

theorem counterReplica_arrives : counterReplica.Arrives [1, 2] where
  distinct := (counterEpoch_ready Bytes).distinct
  nonzero := (counterEpoch_ready Bytes).nonzero
  epochs := (counterEpoch_ready Bytes).epochs
  fresh := (counterEpoch_ready Bytes).fresh

theorem counterSchedule_of {order refs : List Ref} (perm : order.Perm refs) : (counterSchedule order).Of refs := by
  have sequential : ((order.map fun r => (r, [r])).map iterations).flatten = order.map fun r => (r, r) := by
    clear perm
    induction order with
    | nil => rfl
    | cons r order ih => simpa [iterations] using ih
  have split : ((order.map fun r => (r, [r])).flatMap Prod.snd) = order := by
    rw [List.flatMap_map]
    exact List.flatMap_singleton' order
  refine ⟨?_, ?_, ?_, (List.reverse_perm order).trans perm⟩
  · rw [counterSchedule, split]
    exact perm
  · rw [counterSchedule, ← sequential]
    exact .sequential _
  · rw [counterSchedule, ← sequential]
    exact .sequential _

theorem counterPair_runs {order order₂ : List Ref} (perm : order.Perm [1, 2]) (perm₂ : order₂.Perm [1, 2]) :
    (counterPair order order₂).Runs LevelDBStorage.slotOf (ORMTestChaincode.InvokeChaincode counterInputs)
      counterProto counterCrypto counterCrypto := by
  have run : ∀ {order : List Ref}, order.Perm [1, 2] → ∃ result,
      counterReplica.runEpoch LevelDBStorage.slotOf (ORMTestChaincode.InvokeChaincode counterInputs)
        counterProto counterCrypto (counterSchedule order) = some result := by
    intro order perm
    obtain ⟨after, outcome, -, -, -, ran, -⟩ := Replica.runEpoch_trace LevelDBStorage.slotOf
      (ORMTestChaincode.InvokeChaincode counterInputs) counterProto counterCrypto counterReplica_sound
      counterReplica_arrives (counterSchedule_of perm)
    exact ⟨(after, outcome), ran⟩
  obtain ⟨result, ran⟩ := run perm
  obtain ⟨result₂, ran₂⟩ := run perm₂
  refine ⟨counterReplica_arrives, counterReplica_arrives, counterSchedule_of perm, counterSchedule_of perm₂, ?_, ?_⟩
  · simp [counterPair, ran]
  · simp [counterPair, ran₂]

theorem replicas_agree_iff_counters :
    (∀ pair ∈ [counterPair [1, 2] [2, 1]], pair.outcome = pair.outcome₂) ↔
      ∀ pair ∈ [counterPair [1, 2] [2, 1]],
        pair.Settled LevelDBStorage.slotOf (ORMTestChaincode.InvokeChaincode counterInputs) :=
  replicas_agree_iff _ _ counterProto counterCrypto counterCrypto rfl rfl counterReplica counterReplica
    ⟨rfl, rfl, rfl, .refl _⟩ counterReplica_sound counterReplica_sound _
    (.cons (counterPair [1, 2] [2, 1]) [] (counterPair_runs (.refl _) (.swap _ _ _)) (.nil _ _))

/-- The two servers commit the same two transactions in different orders, and keep different counters. -/
theorem counters_differ :
    ∃ pair : EpochPair Bytes, pair.first = counterReplica ∧ pair.second = counterReplica ∧
      pair.Runs LevelDBStorage.slotOf (ORMTestChaincode.InvokeChaincode counterInputs) counterProto
        counterCrypto counterCrypto ∧
      pair.outcome.db (bytesOf "b") = none ∧ pair.outcome₂.db (bytesOf "b") = some (bytesOf "1") :=
  ⟨counterPair [1, 2] [2, 1], rfl, rfl, counterPair_runs (.refl _) (.swap _ _ _), by decide, by decide⟩

end TwoCounters

end Blockchain
