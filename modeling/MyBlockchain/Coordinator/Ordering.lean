import MyBlockchain.Coordinator.History
import MyBlockchain.Library.EventLog

namespace Blockchain

open EventLog

/-- A commit phase of an epoch comes after the execution of every workload of that epoch. -/
def commitRequires (event other needed : Event) : Prop :=
  ∃ workload id later worker, event = .reached workload id .startCommit ∧
    other = .reached later worker .deployed ∧ later.epoch = workload.epoch ∧
    needed = .reached later worker .finishExecute

/-- Execution in an epoch comes after the commit phases of the epochs before. -/
def executeRequires (event other needed : Event) : Prop :=
  ∃ workload id later worker, event = .reached workload id .startExecute ∧
    other = .reached later worker .deployed ∧ later.epoch < workload.epoch ∧
    needed = .reached later worker .finishCommit

theorem CoordinatorPc.Allows.commit {pc : CoordinatorPc} {id other : Nat} {mode : Mode}
    (committing : pc.Allows id .committing) (allows : pc.Allows other mode) :
    (mode = .idleStart ∨ mode = .idleCommit) ∨ (mode = .hasRead ∨ mode = .committing) := by
  cases pc <;> simp only [Allows] at committing allows <;> grind

/-- No step of a worker deploys, and only a worker that may commit begins to. -/
theorem WorkerInstance.advance_stage {worker next : WorkerInstance} {mode : Mode} {stage : Stage}
    (h : worker.In mode) (step : worker.advance = some (next, some stage)) :
    stage ≠ .deployed ∧ (stage = .startCommit → mode = .committing) := by
  obtain ⟨signal, state, workload, pc⟩ := worker
  cases mode with
  | idleStart | idleCommit | assigned | hasRead =>
    obtain ⟨rfl, rfl, rfl⟩ := h
    simp [advance, waitForSignal] at step
  | created =>
    obtain ⟨rfl, rfl, rfl⟩ := h
    simp [advance] at step
  | reading =>
    obtain ⟨rfl | ⟨rest, rfl⟩ | rfl, rfl, rfl⟩ := h
    · cases step
      exact ⟨by decide, by simp⟩
    · cases rest with
      | nil =>
        cases step
        exact ⟨by decide, by simp⟩
      | cons r rest => cases step
    · cases step
  | committing =>
    obtain ⟨rfl | ⟨rest, rfl⟩ | rfl, rfl, rfl⟩ := h
    · cases step
      exact ⟨by decide, fun _ => rfl⟩
    · cases rest with
      | nil =>
        cases step
        exact ⟨by decide, fun _ => rfl⟩
      | cons r rest => cases step
    · cases step

namespace Server

variable {Slot : Type} {server next : Server Slot}

structure Ordered (server : Server Slot) : Prop where
  commit : Barrier commitRequires server.log
  execute : Barrier executeRequires server.log

theorem CoordinatorStep.log {transactionList : List Ref} (step : CoordinatorStep server transactionList next) :
    next.log = server.log ∨ next.log = server.log ++ [.finished server.epochChan] ∨
      ∃ workload rest id, server.pc = .deployWorkload workload rest ∧
        next.log = server.log ++ [.reached workload id .deployed] := by
  cases step with
  | goto | signal | make | increment => exact .inl rfl
  | create workload pc => exact .inr (.inr ⟨_, _, _, pc, rfl⟩)
  | assign workload id rest pc => exact .inr (.inr ⟨_, _, _, pc, rfl⟩)
  | finish => exact .inr (.inl rfl)

theorem Phase.executed (phase : server.Phase) {id other : Nat} (listed : id ∈ server.workerIDs)
    (committing : (server.workers id).In .committing) (member : other ∈ server.workerIDs) :
    Stage.finishExecute ∈ (server.workers other).stages := by
  obtain ⟨mode, allows, here⟩ := phase.mode id listed
  obtain rfl := WorkerInstance.In.unique here committing
  obtain ⟨found, allowed, there⟩ := phase.mode other member
  rcases allows.commit allowed with (rfl | rfl) | (rfl | rfl)
  · rw [WorkerInstance.In.stages_idle (.inl there)]
    decide
  · rw [WorkerInstance.In.stages_idle (.inr there)]
    decide
  · exact WorkerInstance.In.finishExecute (.inl there)
  · exact WorkerInstance.In.finishExecute (.inr there)

theorem History.uncommitted (history : server.History) (phase : server.Phase) {workload : Workload}
    {rest : List Nat} (pc : server.pc = .deployWorkload workload rest) {other : Workload} {id : Nat}
    (logged : .reached other id .startCommit ∈ server.log) : other.epoch < server.epochChan := by
  obtain ⟨listed, -, said⟩ := history.known other id _ logged
  by_cases current : (server.workers id).workload = other
  · obtain ⟨mode, allows, here⟩ := phase.mode id listed
    have started : Stage.startCommit ∈ (server.workers id).stages := by
      have member := mem_history.mpr logged
      rw [said, stagesOf, if_pos current] at member
      obtain ⟨stage, inStages, equal⟩ := List.mem_map.mp member
      cases equal
      exact inStages
    rw [pc] at allows
    rcases allows with rfl | rfl | rfl
    · rw [← current]
      exact history.stale id listed here.2.2 (WorkerInstance.In.stages_idle (.inl here))
    · obtain ⟨pc | ⟨rest, pc⟩ | pc, state, -⟩ := here <;>
        simp [WorkerInstance.stages, pc, state] at started
    · simp [WorkerInstance.stages, here.1] at started
  · exact history.replaced other id _ logged current

theorem Ordered.coordinator (ordered : server.Ordered) (history : server.History) (phase : server.Phase)
    {transactionList : List Ref} (step : server.coordinatorStep transactionList = some next) : next.Ordered := by
  rcases (coordinatorStep_cases phase step).log with log | log | ⟨workload, rest, id, pc, log⟩
  · exact ⟨by rw [log]; exact ordered.commit, by rw [log]; exact ordered.execute⟩
  · constructor
    · rw [log]
      refine ordered.commit.append_singleton _ ?_ ?_
      · rintro _ - _ ⟨_, _, _, _, -, same, -⟩
        cases same
      · rintro _ - _ ⟨_, _, _, _, same, -⟩
        cases same
    · rw [log]
      refine ordered.execute.append_singleton _ ?_ ?_
      · rintro _ - _ ⟨_, _, _, _, -, same, -⟩
        cases same
      · rintro _ - _ ⟨_, _, _, _, same, -⟩
        cases same
  · have epoch := (history.pending workload rest pc).1
    constructor
    · rw [log]
      refine ordered.commit.append_singleton _ ?_ ?_
      · rintro _ logged _ ⟨other, i, _, _, rfl, same, equal, -⟩
        cases same
        have less := history.uncommitted phase pc logged
        omega
      · rintro _ - _ ⟨_, _, _, _, same, -⟩
        cases same
    · rw [log]
      refine ordered.execute.append_singleton _ ?_ ?_
      · rintro _ logged _ ⟨other, i, _, _, rfl, same, less, -⟩
        cases same
        have bound := (history.known other i _ logged).2.1
        omega
      · rintro _ - _ ⟨_, _, _, _, same, -⟩
        cases same

theorem History.completed (history : server.History) {workload : Workload} {id : Nat} {stage : Stage}
    (logged : .reached workload id stage ∈ server.log) (before : workload.epoch < server.epochChan) :
    Blockchain.history server.log workload.address = Stage.all.map (.reached workload id) := by
  obtain ⟨listed, -, said⟩ := history.known workload id stage logged
  rw [said, stagesOf]
  split
  · rename_i same
    by_cases all : (server.workers id).stages = Stage.all
    · rw [all]
    · have now := history.running id listed all
      rw [same] at now
      omega
  · rfl

theorem Ordered.worker [DecidableEq Slot] {slotOf : SlotOf Slot} {chaincode : Chaincode}
    (ordered : server.Ordered) (history : server.History) (phase : server.Phase) {id : Nat}
    (member : id ∈ server.workerIDs) (step : server.workerStep slotOf chaincode id = some next) :
    next.Ordered := by
  obtain ⟨worker, stage, shared, executed, move, rfl⟩ := workerStep_cases step
  obtain ⟨mode, -, before⟩ := phase.mode id member
  cases stage with
  | none => exact ⟨by simpa using ordered.commit, by simpa using ordered.execute⟩
  | some stage =>
    have started : stage ≠ .deployed ∧ (stage = .startCommit → mode = .committing) := by
      cases move with
      | advance advanced => exact WorkerInstance.advance_stage before advanced
    have mine := history.known _ id .deployed (history.current id member)
    constructor
    · refine ordered.commit.append_singleton _ ?_ ?_
      · rintro _ - _ ⟨_, _, _, _, -, same, -⟩
        cases same
        exact started.1 rfl
      · rintro _ logged _ ⟨_, _, later, j, same, rfl, -, rfl⟩
        cases same
        obtain rfl := started.2 rfl
        have old : .reached later j .deployed ∈ server.log := by simpa using logged
        obtain ⟨listed, -, said⟩ := history.known later j .deployed old
        rw [← mem_history, said]
        refine List.mem_map_of_mem ?_
        rw [stagesOf]
        split
        · exact phase.executed member before listed
        · decide
    · refine ordered.execute.append_singleton _ ?_ ?_
      · rintro _ - _ ⟨_, _, _, _, -, same, -⟩
        cases same
        exact started.1 rfl
      · rintro _ logged _ ⟨_, _, later, j, same, rfl, less, rfl⟩
        cases same
        have old : .reached later j .deployed ∈ server.log := by simpa using logged
        rw [← mem_history, history.completed old (Nat.lt_of_lt_of_le less mine.2.1)]
        exact List.mem_map_of_mem (by decide)

theorem initial_ordered (heap : Heap) (db : Contents Slot) (epochChan : Nat) :
    (initial heap db epochChan).Ordered :=
  ⟨barrier_nil, barrier_nil⟩

end Server

end Blockchain
