import MyBlockchain.Coordinator.AriaCoordinator

namespace Blockchain

/-- What a worker is doing, as far as signal and state show it. -/
inductive Mode
  | idleStart | idleCommit | created | assigned | reading | hasRead | committing
  deriving DecidableEq

namespace WorkerInstance

def In (worker : WorkerInstance) : Mode → Prop
  | .idleStart => worker.pc = .waitRead ∧ worker.workerState = .READY ∧ worker.ariaGlobalState = .START
  | .idleCommit => worker.pc = .waitRead ∧ worker.workerState = .READY ∧ worker.ariaGlobalState = .Aria_COMMIT
  | .created => worker.pc = .start ∧ worker.workerState = .READY ∧ worker.ariaGlobalState = .START
  | .assigned => worker.pc = .waitRead ∧ worker.workerState = .ASSIGNED ∧ worker.ariaGlobalState = .START
  | .reading =>
    (worker.pc = .waitRead ∨ (∃ rest, worker.pc = .executing rest) ∨ worker.pc = .executed) ∧
      worker.workerState = .ASSIGNED ∧ worker.ariaGlobalState = .Aria_READ
  | .hasRead => worker.pc = .waitCommit ∧ worker.workerState = .FINISH_READ ∧ worker.ariaGlobalState = .Aria_READ
  | .committing =>
    (worker.pc = .waitCommit ∨ (∃ rest, worker.pc = .committing rest) ∨ worker.pc = .committed) ∧
      worker.workerState = .FINISH_READ ∧ worker.ariaGlobalState = .Aria_COMMIT

end WorkerInstance

inductive Mode.Next : Mode → Mode → Prop
  | stay (mode : Mode) : Next mode mode
  | start : Next .created .assigned
  | read : Next .reading .hasRead
  | commit : Next .committing .idleCommit

def CoordinatorPc.Allows (pc : CoordinatorPc) (id : Nat) (mode : Mode) : Prop :=
  match pc with
  | .begin | .finish | .increment => mode = .idleStart ∨ mode = .idleCommit
  | .broadcastStart rest => mode = .idleStart ∨ mode = .idleCommit ∧ id ∈ rest
  | .getWorkload | .deployWorkload _ _ | .broadcastRead _ =>
    mode = .idleStart ∨ mode = .reading ∨ mode = .hasRead
  | .syncAssigned workerID =>
    if id = workerID then mode = .created ∨ mode = .assigned
    else mode = .idleStart ∨ mode = .reading ∨ mode = .hasRead
  | .signalRead workerID =>
    if id = workerID then mode = .assigned else mode = .idleStart ∨ mode = .reading ∨ mode = .hasRead
  | .syncRead rest => mode = .idleStart ∨ mode = .hasRead ∨ mode = .reading ∧ id ∈ rest
  | .waitFinishRead workerID rest =>
    mode = .idleStart ∨ mode = .hasRead ∨ mode = .reading ∧ id ∈ workerID :: rest
  | .broadcastCommit rest =>
    mode = .idleStart ∨ mode = .idleCommit ∨ mode = .committing ∨ mode = .hasRead ∧ id ∈ rest
  | .syncCommit rest => mode = .idleStart ∨ mode = .idleCommit ∨ mode = .committing ∧ id ∈ rest
  | .waitReady workerID rest =>
    mode = .idleStart ∨ mode = .idleCommit ∨ mode = .committing ∧ id ∈ workerID :: rest

theorem CoordinatorPc.Allows.next {pc : CoordinatorPc} {id : Nat} {mode next : Mode} (allows : pc.Allows id mode)
    (step : mode.Next next) : pc.Allows id next := by
  cases step with
  | stay => exact allows
  | start | read | commit =>
    cases pc <;> simp only [Allows] at allows ⊢ <;> grind

def CoordinatorPc.visits : CoordinatorPc → List Nat
  | .broadcastStart rest | .deployWorkload _ rest | .broadcastRead rest | .syncRead rest
  | .broadcastCommit rest | .syncCommit rest => rest
  | .syncAssigned id | .signalRead id => [id]
  | .waitFinishRead id rest | .waitReady id rest => id :: rest
  | .begin | .getWorkload | .finish | .increment => []

/-- The value of `globalState` where it matters. -/
def CoordinatorPc.signal : CoordinatorPc → Option AriaGlobalState
  | .broadcastStart _ | .getWorkload | .deployWorkload _ _ | .syncAssigned _ | .signalRead _ => some .START
  | .broadcastRead _ => some .Aria_READ
  | .broadcastCommit _ => some .Aria_COMMIT
  | _ => none

namespace WorkerInstance

theorem In.unique {worker : WorkerInstance} {mode other : Mode} (h : worker.In mode) (same : worker.In other) :
    mode = other := by
  cases mode <;> cases other <;> first | rfl | (exfalso; simp only [In] at h same; grind)

theorem stages_take (worker : WorkerInstance) : ∃ count, worker.stages = Stage.all.take count := by
  unfold stages
  split
  · exact ⟨1, rfl⟩
  · split
    · exact ⟨5, rfl⟩
    · exact ⟨1, rfl⟩
  · exact ⟨2, rfl⟩
  · exact ⟨3, rfl⟩
  · exact ⟨3, rfl⟩
  · exact ⟨4, rfl⟩
  · exact ⟨5, rfl⟩
  · exact ⟨0, rfl⟩
  · exact ⟨0, rfl⟩

theorem In.stages_idle {worker : WorkerInstance} (h : worker.In .idleStart ∨ worker.In .idleCommit) :
    worker.stages = Stage.all := by
  rcases h with ⟨pc, state, -⟩ | ⟨pc, state, -⟩ <;> simp [stages, pc, state]

theorem In.stages_assigned {worker : WorkerInstance} (h : worker.In .created ∨ worker.In .assigned) :
    worker.stages = [.deployed] := by
  rcases h with ⟨pc, state, -⟩ | ⟨pc, state, -⟩ <;> simp [stages, pc, state]

theorem In.finishExecute {worker : WorkerInstance} (h : worker.In .hasRead ∨ worker.In .committing) :
    Stage.finishExecute ∈ worker.stages := by
  rcases h with ⟨pc, -⟩ | ⟨pc | ⟨rest, pc⟩ | pc, -⟩ <;> simp [stages, pc, Stage.all]

theorem advance_spec {worker next : WorkerInstance} {mode : Mode} {stage : Option Stage} (h : worker.In mode)
    (step : worker.advance = some (next, stage)) :
    next.workload = worker.workload ∧ next.stages = worker.stages ++ stage.toList ∧
      ∃ after, mode.Next after ∧ next.In after := by
  obtain ⟨signal, state, workload, pc⟩ := worker
  cases mode with
  | idleStart | idleCommit | assigned | hasRead =>
    obtain ⟨rfl, rfl, rfl⟩ := h
    simp [advance, waitForSignal] at step
  | created =>
    obtain ⟨rfl, rfl, rfl⟩ := h
    cases step
    exact ⟨rfl, rfl, .assigned, .start, rfl, rfl, rfl⟩
  | reading =>
    obtain ⟨rfl | ⟨rest, rfl⟩ | rfl, rfl, rfl⟩ := h
    · cases step
      exact ⟨rfl, rfl, .reading, .stay _, .inr (.inl ⟨_, rfl⟩), rfl, rfl⟩
    · cases rest with
      | nil =>
        cases step
        exact ⟨rfl, rfl, .reading, .stay _, .inr (.inr rfl), rfl, rfl⟩
      | cons r rest => cases step
    · cases step
      exact ⟨rfl, rfl, .hasRead, .read, rfl, rfl, rfl⟩
  | committing =>
    obtain ⟨rfl | ⟨rest, rfl⟩ | rfl, rfl, rfl⟩ := h
    · cases step
      exact ⟨rfl, rfl, .committing, .stay _, .inr (.inl ⟨_, rfl⟩), rfl, rfl⟩
    · cases rest with
      | nil =>
        cases step
        exact ⟨rfl, rfl, .committing, .stay _, .inr (.inr rfl), rfl, rfl⟩
      | cons r rest => cases step
    · cases step
      exact ⟨rfl, rfl, .idleCommit, .commit, rfl, rfl, rfl⟩

theorem In.iterate {worker : WorkerInstance} {mode : Mode} (h : worker.In mode) {pc : WorkerPc}
    (same : ∃ r rest, worker.pc = .executing (r :: rest) ∧ pc = .executing rest ∨
      worker.pc = .committing (r :: rest) ∧ pc = .committing rest) :
    { worker with pc }.In mode ∧ { worker with pc }.stages = worker.stages := by
  obtain ⟨signal, state, workload, old⟩ := worker
  obtain ⟨r, rest, ⟨rfl, rfl⟩ | ⟨rfl, rfl⟩⟩ := same <;> cases mode <;> simp_all [In, stages]

end WorkerInstance

namespace Server

variable {Slot : Type} {slotOf : SlotOf Slot} {chaincode : Chaincode}

inductive WorkerStep [DecidableEq Slot] (slotOf : SlotOf Slot) (chaincode : Chaincode) (server : Server Slot)
    (id : Nat) : WorkerInstance → Option Stage → Shared Slot → List Execution → Prop
  | advance {next : WorkerInstance} {stage : Option Stage}
      (step : (server.workers id).advance = some (next, stage)) :
      WorkerStep slotOf chaincode server id next stage server.shared server.executed
  | execute {r : Ref} {rest : List Ref} (pc : (server.workers id).pc = .executing (r :: rest)) :
      WorkerStep slotOf chaincode server id { server.workers id with pc := .executing rest } none
        (server.shared.executeTransaction slotOf chaincode id r)
        (server.executed ++ [server.execution slotOf chaincode r])
  | commit {r : Ref} {rest : List Ref} {shared : Shared Slot}
      (pc : (server.workers id).pc = .committing (r :: rest))
      (step : server.shared.commitTransaction slotOf id r = some shared) :
      WorkerStep slotOf chaincode server id { server.workers id with pc := .committing rest } none shared
        server.executed

theorem workerStep_cases [DecidableEq Slot] {server next : Server Slot} {id : Nat}
    (step : server.workerStep slotOf chaincode id = some next) :
    ∃ worker stage shared executed, WorkerStep slotOf chaincode server id worker stage shared executed ∧
      next = { server with
        shared
        executed
        workers := Function.update server.workers id worker
        log := server.log ++ stage.toList.map (.reached (server.workers id).workload id) } := by
  unfold workerStep at step
  dsimp only at step
  split at step
  · rename_i r rest pc
    cases step
    exact ⟨_, _, _, _, .execute pc, by simp [setWorker]⟩
  · rename_i r rest pc
    obtain ⟨shared, committed, rfl⟩ := Option.map_eq_some_iff.mp step
    exact ⟨_, _, _, _, .commit pc committed, by simp [setWorker]⟩
  · obtain ⟨⟨worker, stage⟩, advanced, rfl⟩ := Option.map_eq_some_iff.mp step
    refine ⟨worker, stage, server.shared, server.executed, .advance advanced, ?_⟩
    cases stage <;> simp [setWorker, record]

theorem WorkerStep.spec [DecidableEq Slot] {server : Server Slot} {id : Nat} {worker : WorkerInstance}
    {stage : Option Stage} {shared : Shared Slot} {executed : List Execution}
    (step : WorkerStep slotOf chaincode server id worker stage shared executed) {mode : Mode}
    (h : (server.workers id).In mode) :
    worker.workload = (server.workers id).workload ∧
      worker.stages = (server.workers id).stages ++ stage.toList ∧
      ∃ after, mode.Next after ∧ worker.In after := by
  cases step with
  | advance step => exact WorkerInstance.advance_spec h step
  | execute pc =>
    obtain ⟨same, stages⟩ := h.iterate ⟨_, _, .inl ⟨pc, rfl⟩⟩
    exact ⟨rfl, by simpa using stages, mode, .stay mode, same⟩
  | commit pc =>
    obtain ⟨same, stages⟩ := h.iterate ⟨_, _, .inr ⟨pc, rfl⟩⟩
    exact ⟨rfl, by simpa using stages, mode, .stay mode, same⟩

structure Phase (server : Server Slot) : Prop where
  nounce : 1 ≤ server.IDNounce
  visits : ∀ id ∈ server.pc.visits, id ∈ server.workerIDs
  signal : ∀ state ∈ server.pc.signal, server.globalState = state
  mode : ∀ id ∈ server.workerIDs, ∃ mode, server.pc.Allows id mode ∧ (server.workers id).In mode

variable {server next : Server Slot}

theorem initial_phase (heap : Heap) (db : Contents Slot) (epochChan : Nat) :
    (initial heap db epochChan).Phase where
  nounce := Nat.le_refl 1
  visits _ member := by cases member
  signal _ member := by cases member
  mode _ member := by cases member

theorem Phase.goto (phase : server.Phase) (pc : CoordinatorPc) (globalState : AriaGlobalState)
    (visits : ∀ id ∈ pc.visits, id ∈ server.workerIDs) (signal : ∀ state ∈ pc.signal, globalState = state)
    (mode : ∀ id mode, server.pc.Allows id mode → (server.workers id).In mode → id ∈ server.workerIDs →
      pc.Allows id mode) : Phase { server with globalState, pc } where
  nounce := phase.nounce
  visits := visits
  signal := signal
  mode id member := by
    obtain ⟨found, allows, here⟩ := phase.mode id member
    exact ⟨found, mode id found allows here member, here⟩

theorem Phase.change (phase : server.Phase) (pc : CoordinatorPc) (workerID : Nat) (worker : WorkerInstance)
    (visits : ∀ id ∈ pc.visits, id ∈ server.workerIDs)
    (signal : ∀ state ∈ pc.signal, server.globalState = state)
    (others : ∀ id mode, id ≠ workerID → server.pc.Allows id mode → pc.Allows id mode)
    (changed : workerID ∈ server.workerIDs → ∀ mode, server.pc.Allows workerID mode →
      (server.workers workerID).In mode → ∃ after, pc.Allows workerID after ∧ worker.In after) :
    ((server.setWorker workerID worker).setPc pc).Phase where
  nounce := phase.nounce
  visits := visits
  signal := signal
  mode id member := by
    obtain ⟨found, allows, here⟩ := phase.mode id member
    by_cases same : id = workerID
    · subst same
      simpa [setPc, setWorker] using changed member found allows here
    · refine ⟨found, others id found same allows, ?_⟩
      simpa [setPc, setWorker, same] using here

theorem Phase.worker [DecidableEq Slot] (phase : server.Phase) {id : Nat} (member : id ∈ server.workerIDs)
    (step : server.workerStep slotOf chaincode id = some next) : next.Phase := by
  obtain ⟨worker, stage, shared, executed, move, rfl⟩ := workerStep_cases step
  refine ⟨phase.nounce, phase.visits, phase.signal, fun other listed => ?_⟩
  obtain ⟨found, allows, here⟩ := phase.mode other listed
  by_cases same : other = id
  · subst same
    obtain ⟨-, -, after, next, there⟩ := move.spec here
    refine ⟨after, allows.next next, ?_⟩
    simpa using there
  · exact ⟨found, allows, by simpa [same] using here⟩

theorem Phase.mem_workerIDs (phase : server.Phase) (id : Nat) :
    id ∈ server.workerIDs ↔ 1 ≤ id ∧ id < server.IDNounce := by
  have nounce := phase.nounce
  rw [workerIDs, List.mem_range'_1]
  omega

theorem Phase.create (phase : server.Phase) (workload : Workload) (rest : server.pc = .deployWorkload workload []) :
    ((server.createWorker workload).setPc (.syncAssigned server.IDNounce)).Phase where
  nounce := Nat.le_succ_of_le phase.nounce
  visits id member := by
    have nounce := phase.nounce
    obtain rfl := List.mem_singleton.mp member
    simp only [workerIDs, setPc, createWorker, setWorker, List.mem_range'_1]
    omega
  signal := by
    have signal := phase.signal
    rw [rest] at signal
    exact signal
  mode id member := by
    have start : server.globalState = .START := phase.signal .START (by rw [rest]; rfl)
    by_cases same : id = server.IDNounce
    · subst same
      exact ⟨.created, by simp [setPc, createWorker, CoordinatorPc.Allows],
        by simp [setPc, createWorker, setWorker, WorkerInstance.In, start]⟩
    · have old : id ∈ server.workerIDs := by
        have nounce := phase.nounce
        rw [phase.mem_workerIDs]
        simp only [workerIDs, setPc, createWorker, setWorker, List.mem_range'_1] at member
        omega
      obtain ⟨found, allows, here⟩ := phase.mode id old
      refine ⟨found, ?_, by simpa [setPc, createWorker, setWorker, same] using here⟩
      rw [rest] at allows
      simpa [setPc, CoordinatorPc.Allows, same] using allows

theorem Phase.broadcast (phase : server.Phase) {pc : CoordinatorPc} {workerID : Nat} (onlyAssigned : Bool)
    (visits : ∀ id ∈ pc.visits, id ∈ server.workerIDs)
    (signal : ∀ state ∈ pc.signal, server.globalState = state)
    (others : ∀ id mode, id ≠ workerID → server.pc.Allows id mode → pc.Allows id mode)
    (skipped : ∀ mode, server.pc.Allows workerID mode → (server.workers workerID).In mode →
      onlyAssigned = true → (server.workers workerID).workerState = .READY → pc.Allows workerID mode)
    (changed : ∀ mode, server.pc.Allows workerID mode → (server.workers workerID).In mode →
      ¬ (onlyAssigned = true ∧ (server.workers workerID).workerState = .READY) →
      ∃ after, pc.Allows workerID after ∧
        { server.workers workerID with ariaGlobalState := server.globalState }.In after) :
    ((server.broadcastTo onlyAssigned workerID).setPc pc).Phase := by
  unfold broadcastTo
  dsimp only
  split
  · rename_i ready
    refine phase.goto _ _ visits signal fun id mode allows here _ => ?_
    by_cases same : id = workerID
    · subst same
      exact skipped mode allows here ready.1 ready.2
    · exact others id mode same allows
  · rename_i assigned
    exact phase.change _ _ _ visits signal others fun _ mode allows here => changed mode allows here assigned

section Loops

variable {id : Nat} {rest : List Nat}

theorem Phase.broadcastStart (phase : server.Phase) (pc : server.pc = .broadcastStart (id :: rest)) :
    ((server.broadcastTo false id).setPc (.broadcastStart rest)).Phase := by
  have visits := phase.visits
  have signal := phase.signal
  rw [pc] at visits signal
  have start : server.globalState = .START := signal .START rfl
  refine phase.broadcast false (fun other member => visits other (.tail _ member)) signal ?_ (by simp) ?_
  · intro other mode different allows
    simp only [pc, CoordinatorPc.Allows] at allows ⊢
    grind
  · intro mode allows here _
    refine ⟨.idleStart, .inl rfl, ?_⟩
    rw [pc] at allows
    rcases allows with rfl | ⟨rfl, -⟩ <;> exact ⟨here.1, here.2.1, start⟩

theorem Phase.broadcastRead (phase : server.Phase) (pc : server.pc = .broadcastRead (id :: rest)) :
    ((server.broadcastTo true id).setPc (.broadcastRead rest)).Phase := by
  have visits := phase.visits
  have signal := phase.signal
  rw [pc] at visits signal
  have read : server.globalState = .Aria_READ := signal .Aria_READ rfl
  refine phase.broadcast true (fun other member => visits other (.tail _ member)) signal
    (fun other mode _ allows => by rw [pc] at allows; exact allows)
    (fun mode allows _ _ _ => by rw [pc] at allows; exact allows) fun mode allows here assigned => ?_
  rw [pc] at allows
  rcases allows with rfl | rfl | rfl
  · exact absurd ⟨rfl, here.2.1⟩ assigned
  · exact ⟨.reading, .inr (.inl rfl), here.1, here.2.1, read⟩
  · exact ⟨.hasRead, .inr (.inr rfl), here.1, here.2.1, read⟩

theorem Phase.broadcastCommit (phase : server.Phase) (pc : server.pc = .broadcastCommit (id :: rest)) :
    ((server.broadcastTo true id).setPc (.broadcastCommit rest)).Phase := by
  have visits := phase.visits
  have signal := phase.signal
  rw [pc] at visits signal
  have commit : server.globalState = .Aria_COMMIT := signal .Aria_COMMIT rfl
  refine phase.broadcast true (fun other member => visits other (.tail _ member)) signal
    (fun other mode different allows => ?_) (fun mode allows here _ ready => ?_)
    fun mode allows here assigned => ?_
  · rw [pc] at allows
    rcases allows with rfl | rfl | rfl | ⟨rfl, member⟩
    · exact .inl rfl
    · exact .inr (.inl rfl)
    · exact .inr (.inr (.inl rfl))
    · exact .inr (.inr (.inr ⟨rfl, (List.mem_cons.mp member).resolve_left different⟩))
  · rw [pc] at allows
    rcases allows with rfl | rfl | rfl | ⟨rfl, -⟩
    · exact .inl rfl
    · exact .inr (.inl rfl)
    · exact .inr (.inr (.inl rfl))
    · rw [here.2.1] at ready
      cases ready
  · rw [pc] at allows
    rcases allows with rfl | rfl | rfl | ⟨rfl, -⟩
    · exact absurd ⟨rfl, here.2.1⟩ assigned
    · exact absurd ⟨rfl, here.2.1⟩ assigned
    · exact ⟨.committing, .inr (.inr (.inl rfl)), here.1, here.2.1, commit⟩
    · exact ⟨.committing, .inr (.inr (.inl rfl)), .inl here.1, here.2.1, commit⟩

theorem Phase.assign (phase : server.Phase) {workload : Workload}
    (pc : server.pc = .deployWorkload workload (id :: rest)) (ready : (server.workers id).workerState = .READY) :
    ((server.setWorker id { server.workers id with workload, workerState := .ASSIGNED }).setPc
      (.signalRead id)).Phase := by
  have visits := phase.visits
  have signal := phase.signal
  rw [pc] at visits signal
  refine phase.change _ _ _ (fun other member => ?_) signal (fun other mode different allows => ?_)
    fun _ mode allows here => ?_
  · rw [List.mem_singleton.mp member]
    exact visits id (.head _)
  · rw [pc] at allows
    simpa [CoordinatorPc.Allows, different] using allows
  · refine ⟨.assigned, by simp [CoordinatorPc.Allows], ?_⟩
    rw [pc] at allows
    rcases allows with rfl | rfl | rfl
    · exact ⟨here.1, rfl, here.2.2⟩
    · rw [here.2.1] at ready
      cases ready
    · rw [here.2.1] at ready
      cases ready

theorem Phase.syncAssigned (phase : server.Phase) (pc : server.pc = .syncAssigned id)
    (assigned : (server.workers id).workerState = .ASSIGNED) : (server.setPc (.signalRead id)).Phase := by
  have visits := phase.visits
  have signal := phase.signal
  rw [pc] at visits signal
  refine phase.goto _ _ visits signal fun other mode allows here _ => ?_
  rw [pc] at allows
  by_cases same : other = id
  · subst same
    simp only [CoordinatorPc.Allows, if_true] at allows ⊢
    rcases allows with rfl | rfl
    · rw [here.2.1] at assigned
      cases assigned
    · rfl
  · simpa [CoordinatorPc.Allows, same] using allows

theorem Phase.signalRead (phase : server.Phase) (pc : server.pc = .signalRead id) :
    ((server.setWorker id { server.workers id with ariaGlobalState := .Aria_READ }).setPc .getWorkload).Phase := by
  have signal := phase.signal
  rw [pc] at signal
  refine phase.change _ _ _ (by simp [CoordinatorPc.visits]) signal (fun other mode different allows => ?_)
    fun _ mode allows here => ?_
  · rw [pc] at allows
    simpa [CoordinatorPc.Allows, different] using allows
  · rw [pc] at allows
    simp only [CoordinatorPc.Allows, if_true] at allows
    subst allows
    exact ⟨.reading, .inr (.inl rfl), .inl here.1, here.2.1, rfl⟩

theorem Phase.hasRead (phase : server.Phase)
    (pc : server.pc = .syncRead (id :: rest) ∨ server.pc = .waitFinishRead id rest)
    (finished : (server.workers id).workerState ≠ .ASSIGNED) : (server.setPc (.syncRead rest)).Phase := by
  have visits : ∀ other ∈ id :: rest, other ∈ server.workerIDs := by
    intro other member
    refine phase.visits other ?_
    rcases pc with pc | pc <;> rw [pc] <;> exact member
  refine phase.goto _ _ (fun other member => visits other (.tail _ member)) (by simp [CoordinatorPc.signal])
    fun other mode allows here _ => ?_
  have before : mode = .idleStart ∨ mode = .hasRead ∨ mode = .reading ∧ other ∈ id :: rest := by
    rcases pc with pc | pc <;> rw [pc] at allows <;> exact allows
  rcases before with rfl | rfl | ⟨rfl, member⟩
  · exact .inl rfl
  · exact .inr (.inl rfl)
  · refine .inr (.inr ⟨rfl, (List.mem_cons.mp member).resolve_left ?_⟩)
    rintro rfl
    exact finished here.2.1

theorem Phase.hasCommitted (phase : server.Phase)
    (pc : server.pc = .syncCommit (id :: rest) ∨ server.pc = .waitReady id rest)
    (ready : (server.workers id).workerState = .READY) : (server.setPc (.syncCommit rest)).Phase := by
  have visits : ∀ other ∈ id :: rest, other ∈ server.workerIDs := by
    intro other member
    refine phase.visits other ?_
    rcases pc with pc | pc <;> rw [pc] <;> exact member
  refine phase.goto _ _ (fun other member => visits other (.tail _ member)) (by simp [CoordinatorPc.signal])
    fun other mode allows here _ => ?_
  have before : mode = .idleStart ∨ mode = .idleCommit ∨ mode = .committing ∧ other ∈ id :: rest := by
    rcases pc with pc | pc <;> rw [pc] at allows <;> exact allows
  rcases before with rfl | rfl | ⟨rfl, member⟩
  · exact .inl rfl
  · exact .inr (.inl rfl)
  · refine .inr (.inr ⟨rfl, (List.mem_cons.mp member).resolve_left ?_⟩)
    rintro rfl
    rw [here.2.1] at ready
    cases ready

end Loops

theorem Phase.onward (phase : server.Phase) (pc : CoordinatorPc)
    (visits : ∀ id ∈ pc.visits, id ∈ server.pc.visits ∨ id ∈ server.workerIDs)
    (signal : ∀ state ∈ pc.signal, state ∈ server.pc.signal)
    (mode : ∀ id mode, server.pc.Allows id mode → id ∈ server.workerIDs → pc.Allows id mode) :
    (server.setPc pc).Phase :=
  phase.goto pc server.globalState (fun id member => (visits id member).elim (phase.visits id) fun listed => listed)
    (fun state member => phase.signal state (signal state member))
    fun id found allows _ member => mode id found allows member

theorem Phase.coordinator (phase : server.Phase) {transactionList : List Ref}
    (step : server.coordinatorStep transactionList = some next) : next.Phase := by
  unfold coordinatorStep at step
  split at step
  case h_1 pc =>
    cases step
    refine phase.goto _ _ (fun _ member => member) (fun _ same => Option.some.inj same)
      fun id mode allows _ member => ?_
    rw [pc] at allows
    exact allows.imp_right fun commit => ⟨commit, member⟩
  case h_2 pc =>
    cases step
    refine phase.onward _ (by simp [CoordinatorPc.visits]) (by simp [pc, CoordinatorPc.signal])
      fun id mode allows _ => ?_
    simp only [pc, CoordinatorPc.Allows] at allows ⊢
    grind
  case h_3 id rest pc =>
    cases step
    exact phase.broadcastStart pc
  case h_4 pc =>
    split at step
    · cases step
      refine phase.goto _ _ (fun _ member => member) (fun _ same => Option.some.inj same)
        fun id mode allows _ _ => ?_
      rw [pc] at allows
      exact allows
    · split at step
      · cases step
        have made := phase.onward (.deployWorkload (server.makeWorkload transactionList) server.workerIDs)
          (fun _ member => .inr member) (by simp [pc, CoordinatorPc.signal]) fun id mode allows _ => by
            rw [pc] at allows
            exact allows
        exact ⟨made.nounce, made.visits, made.signal, made.mode⟩
      · cases step
  case h_5 workload pc =>
    cases step
    have created := phase.create workload pc
    exact ⟨created.nounce, created.visits, created.signal, created.mode⟩
  case h_6 workload id rest pc =>
    dsimp only at step
    split at step
    · next ready =>
      cases step
      have assigned := phase.assign pc ready
      exact ⟨assigned.nounce, assigned.visits, assigned.signal, assigned.mode⟩
    · cases step
      refine phase.onward _ (fun other member => .inl ?_) (by simp [pc, CoordinatorPc.signal])
        fun other mode allows _ => ?_
      · rw [pc]
        exact .tail _ member
      · rw [pc] at allows
        exact allows
  case h_7 id pc =>
    split at step
    · next assigned =>
      cases step
      exact phase.syncAssigned pc assigned
    · cases step
  case h_8 id pc =>
    cases step
    exact phase.signalRead pc
  case h_9 pc =>
    cases step
    refine phase.onward _ (fun _ member => .inr member) (by simp [CoordinatorPc.signal])
      fun id mode allows member => ?_
    rw [pc] at allows
    rcases allows with rfl | rfl | rfl
    · exact .inl rfl
    · exact .inr (.inr ⟨rfl, member⟩)
    · exact .inr (.inl rfl)
  case h_10 id rest pc =>
    cases step
    exact phase.broadcastRead pc
  case h_11 pc =>
    cases step
    refine phase.goto _ _ (fun _ member => member) (fun _ same => Option.some.inj same)
      fun id mode allows _ member => ?_
    rw [pc] at allows
    rcases allows with rfl | rfl | ⟨-, none⟩
    · exact .inl rfl
    · exact .inr (.inr (.inr ⟨rfl, member⟩))
    · cases none
  case h_12 id rest pc =>
    split at step
    · next finished =>
      cases step
      refine phase.hasRead (.inl pc) fun assigned => ?_
      rw [assigned] at finished
      rcases finished with other | other <;> cases other
    · cases step
      refine phase.onward _ (fun other member => .inl ?_) (by simp [CoordinatorPc.signal])
        fun other mode allows _ => ?_
      · rw [pc]
        exact member
      · rw [pc] at allows
        exact allows
  case h_13 id rest pc =>
    split at step
    · next finished =>
      cases step
      refine phase.hasRead (.inr pc) fun assigned => ?_
      rw [assigned] at finished
      cases finished
    · cases step
  case h_14 pc =>
    cases step
    refine phase.onward _ (fun _ member => .inr member) (by simp [CoordinatorPc.signal])
      fun id mode allows member => ?_
    rw [pc] at allows
    rcases allows with rfl | rfl | rfl | ⟨-, none⟩
    · exact .inl rfl
    · exact .inr (.inl rfl)
    · exact .inr (.inr ⟨rfl, member⟩)
    · cases none
  case h_15 id rest pc =>
    cases step
    exact phase.broadcastCommit pc
  case h_16 pc =>
    cases step
    refine phase.onward _ (by simp [CoordinatorPc.visits]) (by simp [CoordinatorPc.signal])
      fun id mode allows _ => ?_
    rw [pc] at allows
    rcases allows with rfl | rfl | ⟨-, none⟩
    · exact .inl rfl
    · exact .inr rfl
    · cases none
  case h_17 id rest pc =>
    split at step
    · next ready =>
      cases step
      exact phase.hasCommitted (.inl pc) ready
    · cases step
      refine phase.onward _ (fun other member => .inl ?_) (by simp [CoordinatorPc.signal])
        fun other mode allows _ => ?_
      · rw [pc]
        exact member
      · rw [pc] at allows
        exact allows
  case h_18 id rest pc =>
    split at step
    · next ready =>
      cases step
      exact phase.hasCommitted (.inr pc) ready
    · cases step
  case h_19 pc =>
    cases step
    have finished := phase.onward .increment (by simp [CoordinatorPc.visits]) (by simp [CoordinatorPc.signal])
      fun id mode allows _ => by
        rw [pc] at allows
        exact allows
    exact ⟨finished.nounce, finished.visits, finished.signal, finished.mode⟩
  case h_20 pc =>
    cases step
    have began := phase.onward .begin (by simp [CoordinatorPc.visits]) (by simp [CoordinatorPc.signal])
      fun id mode allows _ => by
        rw [pc] at allows
        exact allows
    exact ⟨began.nounce, began.visits, began.signal, began.mode⟩

end Server

end Blockchain
