import MyBlockchain.Coordinator.Invariants
import MyBlockchain.Coordinator.TransactionBuffer
import MyBlockchain.Transaction.ManagerLists

namespace Blockchain

def Workload.placements (workload : Workload) : List (Ref × Nat) :=
  workload.transactionList.map fun r => (r, workload.epoch)

def TransactionManagerImpl.Monitors (manager : TransactionManagerImpl) (r : Ref) : Prop :=
  r ∈ manager.unfinished ∨ r ∈ manager.nextEpochTrWrapper.transactionList

theorem Server.Invariants.settled {Slot : Type} {server : Server Slot} (invariants : server.Invariants)
    (pc : server.pc = .finish) {workload : Workload} {id : Nat} {stage : Stage}
    (logged : .reached workload id stage ∈ server.log) (epoch : workload.epoch = server.epochChan) :
    (∀ stage ∈ Stage.all, .reached workload id stage ∈ server.log) ∧
      ∀ r ∈ workload.transactionList, (server.shared.heap r).transactionResult ≠ .PENDING := by
  obtain ⟨phase, history, -, executions⟩ := invariants
  obtain ⟨listed, rfl⟩ := history.holder logged epoch
  obtain ⟨mode, allows, here⟩ := phase.mode id listed
  rw [pc] at allows
  have idle : (server.workers id).In .idleStart ∨ (server.workers id).In .idleCommit := by
    rcases allows with rfl | rfl
    · exact .inl here
    · exact .inr here
  have said := (history.known _ id stage logged).2.2
  rw [Server.stagesOf, if_pos rfl, WorkerInstance.In.stages_idle idle] at said
  constructor
  · intro stage member
    rw [← mem_history, said]
    exact List.mem_map_of_mem member
  · obtain ⟨done, split, decided⟩ := (executions.progress (by simp [pc]) id listed epoch).committed
    rw [(WorkerInstance.In.left_idle idle).2, List.append_nil] at split
    rw [split]
    exact decided

namespace BlockServer

variable {Slot : Type} {system next : BlockServer Slot}

def epochOf (system : BlockServer Slot) (r : Ref) : Nat := (system.server.shared.heap r).epoch

/-- What workloads have been made of so far, and what waits in the buffer, as it was sent. -/
def placements (system : BlockServer Slot) : List (Ref × Nat) := system.workloads.flatMap Workload.placements

def waiting (system : BlockServer Slot) : List (Ref × Nat) :=
  system.transactionBuffer.map fun r => (r, system.epochOf r)

/-- The epoch of the coordinator, that of the manager and that of the comm module. -/
structure Clock (system : BlockServer Slot) : Prop where
  signal : system.manager.lastEpochFinishSignal ≤ system.manager.epoch
  announced : system.manager.lastEpochFinishSignal = system.manager.epoch ↔
    system.server.epochChan = system.manager.epoch + 1 ∨
      system.server.epochChan = system.manager.epoch ∧ system.server.pc = .increment
  chan : system.server.epochChan ≤ system.manager.epoch + 1
  ahead : system.server.epochChan = system.manager.epoch + 1 →
    ¬ system.server.pc.Closed ∧ system.server.pc ≠ .increment
  finishing : system.manager.finishing = true → system.manager.lastEpochFinishSignal = system.manager.epoch
  opened : system.manager.lastEpochFinishSignal = system.manager.epoch → system.manager.epoch < system.receivedEpoch
  next : system.manager.nextEpochTrWrapper.transactionList ≠ [] → system.manager.epoch < system.receivedEpoch
  sending : ∀ trWrapper, system.manager.pc = .sendCurrent trWrapper → trWrapper.transactionList ≠ [] →
    system.receivedEpoch ≤ system.manager.epoch

/-- What the coordinator has of the manager's transactions, in the order of their epochs. -/
structure Buffered (system : BlockServer Slot) : Prop where
  held : ∀ r ∈ system.transactionBuffer, system.manager.Monitors r
  running : ∀ r ∈ system.server.current, system.manager.Monitors r
  sorted : system.transactionBuffer.Pairwise fun r s => system.epochOf r ≤ system.epochOf s
  lower : ∀ r ∈ system.transactionBuffer, system.server.epochChan ≤ system.epochOf r
  closed : system.server.pc.Closed →
    system.transactionBuffer ≠ [] ∧ ∀ r ∈ system.transactionBuffer, system.server.epochChan < system.epochOf r
  ended : system.server.pc = .increment → ∀ r ∈ system.transactionBuffer, system.server.epochChan < system.epochOf r

def Done (system : BlockServer Slot) (r : Ref) : Prop :=
  (system.server.shared.heap r).transactionResult ≠ .PENDING ∧
  ∃ workload ∈ system.workloads, workload.epoch = system.manager.epoch ∧ r ∈ workload.transactionList ∧
    ∃ id, .reached workload id .finishExecute ∈ system.server.log ∧
      .reached workload id .finishCommit ∈ system.server.log

structure Placed (system : BlockServer Slot) : Prop where
  placed : system.manager.sendings.Perm (system.placements ++ system.waiting)
  workloads : ∀ workload ∈ system.workloads, workload.transactionList ≠ [] ∧
    workload.transactionList.length ≤ coordinatorMaxTransactionPerWorkload ∧
    ((∃ id, .reached workload id .deployed ∈ system.server.log) ∨
      ∃ rest, system.server.pc = .deployWorkload workload rest)
  done : system.manager.lastEpochFinishSignal = system.manager.epoch → ∀ r ∈ system.manager.unfinished, system.Done r

structure HandOff (system : BlockServer Slot) : Prop where
  invariants : system.server.Invariants
  lists : system.manager.Lists id system.server.shared.heap
  clock : system.Clock
  buffered : system.Buffered
  placed : system.Placed

theorem initial_handOff (heap : Heap) (db : Contents Slot) (blockNum : Nat) (files : Nat → Option Block) :
    (initial heap db blockNum files).HandOff where
  invariants := Server.initial_invariants heap db 1
  lists := TransactionManagerImpl.new_lists id blockNum files heap
  clock := by
    constructor <;> simp [initial, TransactionManagerImpl.new, Server.initial, TransactionWrapper.new,
      TransactionManagerImpl.finishing]
  buffered := by constructor <;> simp [initial, Server.initial, CoordinatorPc.Closed]
  placed := by
    constructor <;> simp [initial, TransactionManagerImpl.new, TransactionManagerImpl.sendings, placements, waiting]

theorem HandOff.monitored (handOff : system.HandOff) {r : Ref} (monitors : system.manager.Monitors r) :
    system.epochOf r = system.manager.epoch ∧ r ∈ system.manager.unfinished ∨
      system.epochOf r = system.manager.epoch + 1 ∧ r ∈ system.manager.nextEpochTrWrapper.transactionList := by
  rcases monitors with unfinished | next
  · exact .inl ⟨handOff.lists.current r unfinished, unfinished⟩
  · exact .inr ⟨handOff.lists.next r next, next⟩

theorem HandOff.announced_running (handOff : system.HandOff)
    (signal : system.manager.lastEpochFinishSignal = system.manager.epoch) {r : Ref}
    (member : r ∈ system.server.current) : system.epochOf r = system.manager.epoch + 1 := by
  have epoch := handOff.invariants.executions.epochs r member
  rcases handOff.clock.announced.mp signal with ahead | ⟨-, pc⟩
  · exact epoch.trans ahead
  · rw [handOff.invariants.executions.announced pc] at member
    cases member

theorem HandOff.announced_buffer (handOff : system.HandOff)
    (signal : system.manager.lastEpochFinishSignal = system.manager.epoch) {r : Ref}
    (member : r ∈ system.transactionBuffer) : system.epochOf r = system.manager.epoch + 1 := by
  rcases handOff.clock.announced.mp signal with ahead | ⟨same, pc⟩
  · have lower := handOff.buffered.lower r member
    rcases handOff.monitored (handOff.buffered.held r member) with ⟨epoch, -⟩ | ⟨epoch, -⟩ <;> omega
  · have ended := handOff.buffered.ended pc r member
    rcases handOff.monitored (handOff.buffered.held r member) with ⟨epoch, -⟩ | ⟨epoch, -⟩ <;> omega

theorem HandOff.finishing_outside (handOff : system.HandOff) {tr : Ref} {rest : List Ref}
    {trWrapper : TransactionWrapper} (pc : system.manager.pc = .finishing (tr :: rest) trWrapper) :
    tr ∉ system.transactionBuffer ∧ tr ∉ system.server.current := by
  have signal := handOff.clock.finishing (by rw [TransactionManagerImpl.finishing, pc])
  have mine : system.epochOf tr = system.manager.epoch :=
    handOff.lists.current tr (by rw [TransactionManagerImpl.unfinished, pc]; exact .head _)
  constructor
  · intro waiting
    have next := handOff.announced_buffer signal waiting
    omega
  · intro running
    have next := handOff.announced_running signal running
    omega

theorem Done.mono {r : Ref} (done : system.Done r)
    (result : (system.server.shared.heap r).transactionResult ≠ .PENDING →
      (next.server.shared.heap r).transactionResult ≠ .PENDING)
    (workloads : ∀ workload ∈ system.workloads, workload ∈ next.workloads)
    (epoch : next.manager.epoch = system.manager.epoch)
    (log : ∀ event ∈ system.server.log, event ∈ next.server.log) : next.Done r := by
  obtain ⟨decided, workload, made, same, member, id, executed, committed⟩ := done
  exact ⟨result decided, workload, workloads _ made, same.trans epoch.symm, member, id, log _ executed, log _ committed⟩

theorem HandOff.coordinates (handOff : system.HandOff) {server : Server Slot} (invariants : server.Invariants)
    (shared : server.shared = system.server.shared) (epochChan : server.epochChan = system.server.epochChan)
    (current : server.current = system.server.current) (log : ∀ event ∈ system.server.log, event ∈ server.log)
    (before : system.server.pc ≠ .increment) (after : server.pc ≠ .increment)
    (closed : server.pc.Closed → system.transactionBuffer ≠ [] ∧
      ∀ r ∈ system.transactionBuffer, system.server.epochChan < system.epochOf r)
    (deployed : ∀ workload rest, system.server.pc = .deployWorkload workload rest →
      (∃ id, .reached workload id .deployed ∈ server.log) ∨ ∃ less, server.pc = .deployWorkload workload less) :
    HandOff { system with server } := by
  have monitored := fun r member => handOff.monitored (handOff.buffered.held r member)
  obtain ⟨-, lists, clock, buffered, placed⟩ := handOff
  have epochOf : ∀ r, BlockServer.epochOf { system with server } r = system.epochOf r := fun r => by
    rw [BlockServer.epochOf, shared]
    rfl
  refine ⟨invariants, by rw [shared]; exact lists, { clock with
    announced := ?_, chan := by rw [epochChan]; exact clock.chan, ahead := ?_ }, ?_, ?_⟩
  · have announced := clock.announced
    simp only [before, and_false, or_false] at announced
    simpa [after, epochChan] using announced
  · intro ahead
    have chan : system.server.epochChan = system.manager.epoch + 1 := epochChan.symm.trans ahead
    refine ⟨fun late => ?_, after⟩
    obtain ⟨nonempty, later⟩ := closed late
    obtain ⟨r, member⟩ := List.exists_mem_of_ne_nil _ nonempty
    have ended := later r member
    rcases monitored r member with ⟨epoch, -⟩ | ⟨epoch, -⟩ <;> omega
  · constructor
    case held => exact buffered.held
    case running =>
      rw [current]
      exact buffered.running
    case sorted =>
      simp only [epochOf]
      exact buffered.sorted
    case lower =>
      simp only [epochOf, epochChan]
      exact buffered.lower
    case closed =>
      simp only [epochOf, epochChan]
      exact closed
    case ended => exact fun here => absurd here after
  · constructor
    case placed =>
      simp only [waiting, epochOf]
      exact placed.placed
    case workloads =>
      intro workload made
      obtain ⟨nonempty, room, known⟩ := placed.workloads workload made
      refine ⟨nonempty, room, ?_⟩
      rcases known with ⟨id, logged⟩ | ⟨rest, pc⟩
      · exact .inl ⟨id, log _ logged⟩
      · exact deployed workload rest pc
    case done =>
      intro signal r member
      refine (placed.done signal r member).mono (fun decided => ?_) (fun _ h => h) rfl log
      show (server.shared.heap r).transactionResult ≠ _
      rw [shared]
      exact decided

theorem HandOff.makes (handOff : system.HandOff) {transactionList rest : List Ref}
    (pc : system.server.pc = .getWorkload) (nonempty : transactionList ≠ [])
    (split : system.transactionBuffer = transactionList ++ rest)
    (room : transactionList.length ≤ coordinatorMaxTransactionPerWorkload)
    (epochs : ∀ r ∈ transactionList, system.epochOf r = system.server.epochChan) {server : Server Slot}
    (step : system.server.coordinatorStep transactionList = some server) :
    HandOff { system with
      server, transactionBuffer := rest
      workloads := system.workloads ++ [system.server.makeWorkload transactionList] } := by
  obtain ⟨invariants, lists, clock, buffered, placed⟩ := handOff
  have next := invariants.coordinator step
  have made : server = { system.server with
      made := system.server.made + 1
      current := system.server.current ++ transactionList
      pc := .deployWorkload (system.server.makeWorkload transactionList) system.server.workerIDs } := by
    simp only [Server.coordinatorStep, pc, nonempty, if_false] at step
    obtain ⟨-, same⟩ := Option.ite_none_right_eq_some.mp step
    exact (Option.some.inj same).symm
  subst made
  have kept : ∀ r ∈ rest, r ∈ system.transactionBuffer := fun r member => by
    rw [split]
    exact List.mem_append_right _ member
  refine ⟨next, lists, { clock with announced := ?_, ahead := ?_ }, ?_, ?_⟩
  · have announced := clock.announced
    simpa [pc] using announced
  · exact fun _ => ⟨fun closed => closed, by simp⟩
  · constructor
    case held => exact fun r member => buffered.held r (kept r member)
    case running =>
      intro r member
      rcases List.mem_append.mp member with old | new
      · exact buffered.running r old
      · exact buffered.held r (by rw [split]; exact List.mem_append_left _ new)
    case sorted =>
      have sorted := buffered.sorted
      rw [split] at sorted
      exact (List.pairwise_append.mp sorted).2.1
    case lower => exact fun r member => buffered.lower r (kept r member)
    case closed => exact fun closed => closed.elim
    case ended => exact fun here => by cases here
  · constructor
    case placed =>
      refine placed.placed.trans ?_
      have mine : transactionList.map (fun r => (r, system.epochOf r)) =
          (system.server.makeWorkload transactionList).placements :=
        List.map_congr_left fun r member => by rw [epochs r member]; rfl
      rw [waiting, split, List.map_append, mine]
      simp only [placements, waiting, List.flatMap_append, List.flatMap_singleton, List.append_assoc]
      rfl
    case workloads =>
      intro workload member
      rcases List.mem_append.mp member with old | new
      · obtain ⟨nonempty, room, known⟩ := placed.workloads workload old
        refine ⟨nonempty, room, .inl (known.resolve_right ?_)⟩
        rintro ⟨more, here⟩
        rw [pc] at here
        cases here
      · cases List.mem_singleton.mp new
        exact ⟨nonempty, room, .inr ⟨_, rfl⟩⟩
    case done =>
      intro signal r member
      exact (placed.done signal r member).mono (fun h => h) (fun _ h => List.mem_append_left _ h) rfl fun _ h => h

/-- With a batch of the next epoch there, all of the current list is on its way. -/
theorem HandOff.current_sent (handOff : system.HandOff) (opened : system.manager.epoch < system.receivedEpoch)
    {r : Ref} (member : r ∈ system.manager.unfinished) : (r, system.epochOf r) ∈ system.manager.sendings := by
  refine (handOff.lists.complete r (.inl member)).resolve_left fun unsent => ?_
  by_cases sending : ∃ trWrapper, system.manager.pc = .sendCurrent trWrapper
  · obtain ⟨trWrapper, here⟩ := sending
    rw [TransactionManagerImpl.unsent, here] at unsent
    have latest := handOff.clock.sending trWrapper here (List.ne_nil_of_mem unsent)
    omega
  · have inNext := handOff.lists.sendingNext (fun trWrapper here => sending ⟨trWrapper, here⟩) r unsent
    have other := handOff.lists.next r inNext
    have mine := handOff.lists.current r member
    omega

theorem HandOff.finishes (handOff : system.HandOff) (pc : system.server.pc = .finish) {server : Server Slot}
    (step : system.server.coordinatorStep [] = some server) :
    HandOff { system with server, manager.lastEpochFinishSignal := system.server.epochChan } := by
  have monitored := fun r member => handOff.monitored (handOff.buffered.held r member)
  have currentSent (opened : system.manager.epoch < system.receivedEpoch) (r : Ref)
      (member : r ∈ system.manager.unfinished) := handOff.current_sent opened member
  obtain ⟨invariants, lists, clock, buffered, placed⟩ := handOff
  have next := invariants.coordinator step
  have closed : system.server.pc.Closed := by rw [pc]; trivial
  obtain ⟨nonempty, later⟩ := buffered.closed closed
  have behind : system.server.epochChan ≤ system.manager.epoch := by
    have chan := clock.chan
    have apart : system.server.epochChan ≠ system.manager.epoch + 1 := fun same => (clock.ahead same).1 closed
    omega
  have unannounced : system.manager.lastEpochFinishSignal ≠ system.manager.epoch := by
    intro same
    rcases clock.announced.mp same with ahead | ⟨-, here⟩
    · omega
    · rw [pc] at here
      cases here
  have opened : system.server.epochChan = system.manager.epoch → system.manager.epoch < system.receivedEpoch := by
    intro same
    obtain ⟨r, member⟩ := List.exists_mem_of_ne_nil _ nonempty
    have ended := later r member
    rcases monitored r member with ⟨epoch, -⟩ | ⟨-, inNext⟩
    · omega
    · exact clock.next (List.ne_nil_of_mem inNext)
  have made : server = { system.server with
      current := [], pc := .increment, log := system.server.log ++ [.finished system.server.epochChan] } := by
    simp only [Server.coordinatorStep, pc] at step
    exact (Option.some.inj step).symm
  subst made
  refine ⟨next, lists.signal _, ⟨behind, ?_, clock.chan, ?_, ?_, opened, clock.next, clock.sending⟩, ?_, ?_⟩
  · constructor
    · exact fun same => .inr ⟨same, rfl⟩
    · rintro (ahead | ⟨same, -⟩)
      · simp only at ahead
        omega
      · exact same
  · intro ahead
    simp only at ahead
    omega
  · exact fun finishing => absurd (clock.finishing finishing) unannounced
  · exact ⟨buffered.held, fun r member => (by cases member), buffered.sorted, buffered.lower,
      fun late => late.elim, fun _ => later⟩
  · constructor
    case placed => exact placed.placed
    case workloads =>
      intro workload member
      obtain ⟨some, room, known⟩ := placed.workloads workload member
      refine ⟨some, room, .inl ?_⟩
      rcases known with ⟨id, logged⟩ | ⟨rest, here⟩
      · exact ⟨id, List.mem_append_left _ logged⟩
      · rw [pc] at here
        cases here
    case done =>
      intro same r member
      have epoch : system.epochOf r = system.server.epochChan := (lists.current r member).trans same.symm
      have sent := currentSent (opened same) r member
      rw [placed.placed.mem_iff] at sent
      rcases List.mem_append.mp sent with placement | waits
      · obtain ⟨workload, listed, mine⟩ := List.mem_flatMap.mp placement
        obtain ⟨s, inWorkload, equal⟩ := List.mem_map.mp mine
        obtain ⟨rfl, its⟩ := Prod.mk.inj equal
        obtain ⟨-, -, known⟩ := placed.workloads workload listed
        have deployed : ¬ ∃ rest, system.server.pc = .deployWorkload workload rest := by simp [pc]
        obtain ⟨id, logged⟩ := known.resolve_right deployed
        obtain ⟨stages, decided⟩ := invariants.settled pc logged (its.trans epoch)
        refine ⟨decided s inWorkload, workload, listed, its.trans (epoch.trans same), inWorkload, id, ?_, ?_⟩
        · exact List.mem_append_left _ (stages _ (by decide))
        · exact List.mem_append_left _ (stages _ (by decide))
      · obtain ⟨s, inBuffer, equal⟩ := List.mem_map.mp waits
        obtain ⟨rfl, -⟩ := Prod.mk.inj equal
        have ended := later s inBuffer
        omega

theorem HandOff.increments (handOff : system.HandOff) (pc : system.server.pc = .increment) {server : Server Slot}
    (step : system.server.coordinatorStep [] = some server) : HandOff { system with server } := by
  obtain ⟨invariants, lists, clock, buffered, placed⟩ := handOff
  have next := invariants.coordinator step
  have ended := buffered.ended pc
  have behind : system.server.epochChan ≤ system.manager.epoch := by
    have chan := clock.chan
    have apart : system.server.epochChan ≠ system.manager.epoch + 1 := fun same => (clock.ahead same).2 pc
    omega
  have made : server = { system.server with
      epochChan := system.server.epochChan + 1, executed := [], pc := .begin } := by
    simp only [Server.coordinatorStep, pc] at step
    exact (Option.some.inj step).symm
  subst made
  refine ⟨next, lists, { clock with announced := ?_, chan := Nat.succ_le_succ behind, ahead := ?_ }, ?_, ?_⟩
  · rw [clock.announced]
    simp only [pc, and_true, Nat.add_right_cancel_iff, reduceCtorEq, and_false, or_false]
    omega
  · exact fun _ => ⟨fun closed => closed, by simp⟩
  · exact ⟨buffered.held, buffered.running, buffered.sorted, ended, fun closed => closed.elim,
      fun here => by cases here⟩
  · constructor
    case placed => exact placed.placed
    case workloads =>
      intro workload member
      obtain ⟨some, room, known⟩ := placed.workloads workload member
      refine ⟨some, room, .inl (known.resolve_right ?_)⟩
      rintro ⟨rest, here⟩
      rw [pc] at here
      cases here
    case done =>
      exact fun signal r member =>
        (placed.done signal r member).mono (fun h => h) (fun _ h => h) rfl fun _ h => h

theorem HandOff.goes (handOff : system.HandOff) (open_ : system.server.pc ≠ .getWorkload)
    (unfinished : system.server.pc ≠ .finish) {server : Server Slot}
    (step : system.server.coordinatorStep [] = some server) : HandOff { system with server } := by
  have invariants := handOff.invariants.coordinator step
  cases Server.coordinatorStep_cases handOff.invariants.phase step with
  | goto pc globalState goes =>
    refine handOff.coordinates invariants rfl rfl rfl (fun _ h => h) goes.before.2 goes.after (fun closed => ?_)
      fun workload rest here => .inr (goes.deploying workload rest here)
    exact handOff.buffered.closed ((goes.closed closed).resolve_right fun here => open_ here.1)
  | signal pc id state goes =>
    refine handOff.coordinates invariants rfl rfl rfl (fun _ h => h) goes.before.2 goes.after (fun closed => ?_)
      fun workload rest here => .inr (goes.deploying workload rest here)
    exact handOff.buffered.closed ((goes.closed closed).resolve_right fun here => open_ here.1)
  | make pc => exact absurd pc open_
  | create workload pc =>
    refine handOff.coordinates invariants rfl rfl rfl (fun _ h => List.mem_append_left _ h) (by simp [pc])
      (by simp [Server.record, Server.setPc]) (fun closed => closed.elim) fun other rest here => ?_
    rw [pc] at here
    cases here
    exact .inl ⟨_, List.mem_append_right _ (.head _)⟩
  | assign workload id rest pc =>
    refine handOff.coordinates invariants rfl rfl rfl (fun _ h => List.mem_append_left _ h) (by simp [pc])
      (by simp [Server.record, Server.setPc]) (fun closed => closed.elim) fun other rest here => ?_
    rw [pc] at here
    cases here
    exact .inl ⟨_, List.mem_append_right _ (.head _)⟩
  | finish pc => exact absurd pc unfinished
  | increment pc => exact handOff.increments pc step

theorem HandOff.coordinator (handOff : system.HandOff) (step : system.coordinatorStep = some next) :
    next.HandOff := by
  unfold coordinatorStep at step
  split at step
  · rename_i pc
    obtain ⟨⟨transactionList, rest⟩, found, step⟩ := Option.bind_eq_some_iff.mp step
    obtain ⟨server, stepped, same⟩ := Option.bind_eq_some_iff.mp step
    obtain ⟨split, closes, room, epochs⟩ := getWorkload_spec found handOff.buffered.sorted handOff.buffered.lower
    cases same
    by_cases empty : transactionList = []
    · subst empty
      obtain rfl : system.transactionBuffer = rest := split
      have invariants := handOff.invariants.coordinator stepped
      simp only [Server.coordinatorStep, pc, if_true, Option.some.injEq] at stepped
      subst stepped
      have closed := handOff.coordinates invariants rfl rfl rfl (fun _ h => h) (by simp [pc]) (by simp)
        (fun _ => closes rfl) (by simp [pc])
      simpa using closed
    · simpa only [empty, if_false] using handOff.makes pc empty split room epochs stepped
  · rename_i pc
    obtain ⟨server, stepped, same⟩ := Option.bind_eq_some_iff.mp step
    cases same
    exact handOff.finishes pc stepped
  · rename_i open_ unfinished
    obtain ⟨server, stepped, same⟩ := Option.bind_eq_some_iff.mp step
    cases same
    exact handOff.goes open_ unfinished stepped

theorem HandOff.world (handOff : system.HandOff) {server : Server Slot} (invariants : server.Invariants)
    (epoch : ∀ r ∈ system.manager.received, (server.shared.heap r).epoch = system.epochOf r)
    (announced : system.manager.lastEpochFinishSignal = system.manager.epoch → ∀ r ∈ system.manager.unfinished,
      server.shared.heap r = system.server.shared.heap r)
    (current : server.current = system.server.current) (epochChan : server.epochChan = system.server.epochChan)
    (pc : server.pc = system.server.pc) (log : ∀ event ∈ system.server.log, event ∈ server.log) :
    HandOff { system with server } := by
  obtain ⟨-, lists, clock, buffered, placed⟩ := handOff
  have received : ∀ r ∈ system.transactionBuffer, r ∈ system.manager.received := fun r member =>
    lists.mem_received (buffered.held r member)
  have epochOf : ∀ r ∈ system.transactionBuffer,
      BlockServer.epochOf { system with server } r = system.epochOf r := fun r member => epoch r (received r member)
  refine ⟨invariants, ?_, ?_, ?_, ?_⟩
  · refine lists.world (fun r member => epoch r member) fun finishing r member decided => ?_
    rw [announced (clock.finishing finishing) r member]
    exact decided
  · exact { clock with
      announced := by rw [epochChan, pc]; exact clock.announced
      chan := by rw [epochChan]; exact clock.chan
      ahead := by rw [epochChan, pc]; exact clock.ahead }
  · constructor
    case held => exact buffered.held
    case running =>
      rw [current]
      exact buffered.running
    case sorted =>
      refine buffered.sorted.imp_of_mem fun hr hs before => ?_
      rw [epochOf _ hr, epochOf _ hs]
      exact before
    case lower =>
      intro r member
      rw [epochOf r member, epochChan]
      exact buffered.lower r member
    case closed =>
      rw [pc, epochChan]
      intro closed
      obtain ⟨nonempty, later⟩ := buffered.closed closed
      exact ⟨nonempty, fun r member => by rw [epochOf r member]; exact later r member⟩
    case ended =>
      rw [pc, epochChan]
      intro here r member
      rw [epochOf r member]
      exact buffered.ended here r member
  · constructor
    case placed =>
      have waiting : BlockServer.waiting { system with server } = system.waiting :=
        List.map_congr_left fun r member => by rw [epochOf r member]
      rw [waiting]
      exact placed.placed
    case workloads =>
      intro workload made
      obtain ⟨nonempty, room, known⟩ := placed.workloads workload made
      refine ⟨nonempty, room, ?_⟩
      rw [pc]
      exact known.imp_left fun ⟨id, logged⟩ => ⟨id, log _ logged⟩
    case done =>
      intro signal r member
      refine (placed.done signal r member).mono (fun decided => ?_) (fun _ h => h) rfl log
      rw [announced signal r member]
      exact decided

theorem HandOff.worker [DecidableEq Slot] {slotOf : SlotOf Slot} {chaincode : Chaincode} (handOff : system.HandOff)
    {id : Nat} (member : id ∈ system.server.workerIDs) {server : Server Slot}
    (step : system.server.workerStep slotOf chaincode id = some server) : HandOff { system with server } := by
  have invariants := handOff.invariants.worker member step
  have frame := Server.workerStep_frame handOff.invariants.executions handOff.invariants.history
    handOff.invariants.phase member step
  refine handOff.world invariants (fun r _ => frame.epoch r) (fun signal r unfinished => ?_) frame.current
    frame.epochChan frame.pc frame.log
  refine frame.others r fun running => ?_
  have next := handOff.announced_running signal running
  have mine : system.epochOf r = system.manager.epoch := handOff.lists.current r unfinished
  omega

theorem HandOff.create (handOff : system.HandOff) {r : Ref} (transaction : MockTransaction)
    (unknown : r ∉ system.manager.received) :
    HandOff { system with
      server.shared.heap := Function.update system.server.shared.heap r transaction } := by
  have kept : ∀ other ∈ system.manager.received,
      Function.update system.server.shared.heap r transaction other = system.server.shared.heap other := by
    intro other member
    refine Function.update_of_ne ?_ ..
    rintro rfl
    exact unknown member
  have invariants := handOff.invariants.environment (fun member =>
    unknown (handOff.lists.mem_received (handOff.buffered.running r member))) transaction
  refine handOff.world invariants (fun other member => ?_) (fun _ other member => ?_) rfl rfl rfl fun _ h => h
  · exact congrArg MockTransaction.epoch (kept other member)
  · exact kept other (handOff.lists.mem_received (.inl member))

theorem HandOff.manages (handOff : system.HandOff) {manager : TransactionManagerImpl} {heap : Heap}
    {receivedEpoch : Nat} (invariants : Server.Invariants { system.server with shared.heap := heap })
    (lists : manager.Lists id heap) (epoch : manager.epoch = system.manager.epoch)
    (signal : manager.lastEpochFinishSignal = system.manager.lastEpochFinishSignal)
    (finishing : manager.finishing = true → manager.lastEpochFinishSignal = manager.epoch)
    (latest : system.receivedEpoch ≤ receivedEpoch)
    (next : manager.nextEpochTrWrapper.transactionList ≠ [] → manager.epoch < receivedEpoch)
    (sending : ∀ trWrapper, manager.pc = .sendCurrent trWrapper → trWrapper.transactionList ≠ [] →
      receivedEpoch ≤ manager.epoch)
    (monitors : ∀ r, r ∈ system.transactionBuffer ∨ r ∈ system.server.current → manager.Monitors r)
    (epochOf : ∀ r ∈ system.transactionBuffer, (heap r).epoch = system.epochOf r)
    (sendings : manager.sendings = system.manager.sendings)
    (done : manager.lastEpochFinishSignal = manager.epoch → ∀ r ∈ manager.unfinished,
      r ∈ system.manager.unfinished ∧ heap r = system.server.shared.heap r) :
    HandOff { system with server.shared.heap := heap, manager, receivedEpoch } := by
  obtain ⟨-, -, clock, buffered, placed⟩ := handOff
  have same : ∀ r ∈ system.transactionBuffer,
      BlockServer.epochOf { system with server.shared.heap := heap, manager, receivedEpoch } r = system.epochOf r :=
    epochOf
  refine ⟨invariants, lists, ?_, ?_, ?_⟩
  · constructor
    case signal => rw [signal, epoch]; exact clock.signal
    case announced => rw [signal, epoch]; exact clock.announced
    case chan => rw [epoch]; exact clock.chan
    case ahead => rw [epoch]; exact clock.ahead
    case finishing => exact finishing
    case opened =>
      intro here
      rw [signal, epoch] at here
      rw [epoch]
      exact Nat.lt_of_lt_of_le (clock.opened here) latest
    case next => exact next
    case sending => exact sending
  · constructor
    case held => exact fun r member => monitors r (.inl member)
    case running => exact fun r member => monitors r (.inr member)
    case sorted =>
      refine buffered.sorted.imp_of_mem fun hr hs before => ?_
      rw [same _ hr, same _ hs]
      exact before
    case lower =>
      intro r member
      rw [same r member]
      exact buffered.lower r member
    case closed =>
      intro closed
      obtain ⟨nonempty, later⟩ := buffered.closed closed
      exact ⟨nonempty, fun r member => by rw [same r member]; exact later r member⟩
    case ended =>
      intro here r member
      rw [same r member]
      exact buffered.ended here r member
  · constructor
    case placed =>
      have waiting : BlockServer.waiting { system with server.shared.heap := heap, manager, receivedEpoch } =
          system.waiting := List.map_congr_left fun r member => by rw [same r member]
      rw [waiting, sendings]
      exact placed.placed
    case workloads => exact placed.workloads
    case done =>
      intro here r member
      obtain ⟨old, object⟩ := done here r member
      rw [signal, epoch] at here
      refine (placed.done here r old).mono (fun decided => ?_) (fun _ h => h) epoch fun _ h => h
      show (heap r).transactionResult ≠ _
      rw [object]
      exact decided

theorem HandOff.monitors (handOff : system.HandOff) {r : Ref}
    (member : r ∈ system.transactionBuffer ∨ r ∈ system.server.current) : system.manager.Monitors r :=
  member.elim (handOff.buffered.held r) (handOff.buffered.running r)

theorem HandOff.managerGoes (handOff : system.HandOff) {pc : ManagerPc} (goes : system.manager.Goes pc)
    {receivedEpoch : Nat} (latest : system.receivedEpoch ≤ receivedEpoch) :
    HandOff { system with manager := system.manager.setPc pc, receivedEpoch } := by
  obtain ⟨unfinished, unsent, finishing⟩ := goes.same
  refine handOff.manages handOff.invariants (handOff.lists.goto goes) rfl rfl (by rw [finishing]; simp) latest
    (fun nonempty => Nat.lt_of_lt_of_le (handOff.clock.next nonempty) latest) (fun trWrapper here => ?_)
    (fun r member => ?_) (fun _ _ => rfl) rfl fun _ r member => ⟨by rwa [unfinished] at member, rfl⟩
  · cases goes <;> cases here
  · have monitors := handOff.monitors member
    rwa [TransactionManagerImpl.Monitors, unfinished]

theorem HandOff.receivesCurrent (handOff : system.HandOff) {batch : List Ref} (pc : system.manager.pc = .getCurrent)
    (offers : system.manager.Offers system.server.shared.heap system.manager.epoch batch)
    (latest : system.receivedEpoch ≤ system.received (some batch)) :
    HandOff { system with
      manager := system.manager.receiveCurrent batch, receivedEpoch := system.received (some batch) } := by
  have unfinished : (system.manager.receiveCurrent batch).unfinished = system.manager.unfinished ++ batch := by
    simp [TransactionManagerImpl.unfinished, pc, TransactionManagerImpl.receiveCurrent,
      TransactionWrapper.pushTransactionUncheck, TransactionWrapper.setEpoch]
  have epoch : batch ≠ [] → system.received (some batch) = system.manager.epoch := by
    intro nonempty
    obtain ⟨r, rest, rfl⟩ := List.exists_cons_of_ne_nil nonempty
    simp [received, TransactionManagerImpl.requested, pc]
  refine handOff.manages handOff.invariants (handOff.lists.receiveCurrent pc offers) rfl rfl
    (fun finishing => by cases finishing) latest
    (fun nonempty => Nat.lt_of_lt_of_le (handOff.clock.next nonempty) latest) (fun trWrapper here nonempty => ?_)
    (fun r member => ?_) (fun _ _ => rfl) rfl fun signal r member => ⟨?_, rfl⟩
  · cases here
    exact Nat.le_of_eq (epoch nonempty)
  · have monitors := handOff.monitors member
    rw [TransactionManagerImpl.Monitors, unfinished]
    exact monitors.imp_left fun old => List.mem_append_left _ old
  · rw [unfinished] at member
    refine (List.mem_append.mp member).resolve_right fun inBatch => ?_
    -- once the epoch is announced the comm module has gone on to the next one
    have opened := handOff.clock.opened signal
    have same := epoch (List.ne_nil_of_mem inBatch)
    omega

theorem HandOff.receivesNext (handOff : system.HandOff) {batch : List Ref} (pc : system.manager.pc = .getNext)
    (offers : system.manager.Offers system.server.shared.heap (system.manager.epoch + 1) batch)
    (latest : system.receivedEpoch ≤ system.received (some batch)) :
    HandOff { system with
      manager := system.manager.receiveNext id batch, receivedEpoch := system.received (some batch) } := by
  have unfinished : (system.manager.receiveNext id batch).unfinished = system.manager.unfinished := by
    simp [TransactionManagerImpl.unfinished, pc, TransactionManagerImpl.receiveNext]
  refine handOff.manages handOff.invariants (handOff.lists.receiveNext pc rfl offers) rfl rfl
    (fun finishing => by cases finishing) latest (fun nonempty => ?_) (fun trWrapper here => by cases here)
    (fun r member => ?_) (fun _ _ => rfl) rfl fun _ r member => ⟨by rwa [unfinished] at member, rfl⟩
  · cases batch with
    | nil =>
      have old : system.manager.nextEpochTrWrapper.transactionList ≠ [] := by
        simpa [TransactionManagerImpl.receiveNext, TransactionWrapper.pushTransactionUncheck,
          TransactionWrapper.setEpoch] using nonempty
      exact Nat.lt_of_lt_of_le (handOff.clock.next old) latest
    | cons r rest =>
      simp [received, TransactionManagerImpl.requested, pc, TransactionManagerImpl.receiveNext]
  · have monitors := handOff.monitors member
    rw [TransactionManagerImpl.Monitors, unfinished]
    exact monitors.imp_right fun old => List.mem_append_left _ old

theorem HandOff.finishesEpoch (handOff : system.HandOff) (pc : system.manager.pc = .check)
    (signal : system.manager.lastEpochFinishSignal = system.manager.epoch) {receivedEpoch : Nat}
    (latest : system.receivedEpoch ≤ receivedEpoch) :
    HandOff { system with
      manager := system.manager.finishEpoch id system.server.shared.heap, receivedEpoch } := by
  have all : system.manager.unfinished = system.manager.currentEpochTrWrapper.transactionList := by
    rw [TransactionManagerImpl.unfinished, pc]
  have unfinished : (system.manager.finishEpoch id system.server.shared.heap).unfinished = system.manager.unfinished := by
    rw [all]
    rfl
  refine handOff.manages handOff.invariants (handOff.lists.finishEpoch pc fun r member => ?_) rfl rfl
    (fun _ => signal) latest (fun nonempty => Nat.lt_of_lt_of_le (handOff.clock.next nonempty) latest)
    (fun trWrapper here => by cases here) (fun r member => ?_) (fun _ _ => rfl) rfl
    fun _ r member => ⟨by rwa [unfinished] at member, rfl⟩
  · exact (handOff.placed.done signal r (by rwa [all])).1
  · have monitors := handOff.monitors member
    rwa [TransactionManagerImpl.Monitors, unfinished]

theorem HandOff.finishesTransaction (handOff : system.HandOff) {tr : Ref} {rest : List Ref}
    {trWrapper : TransactionWrapper} (pc : system.manager.pc = .finishing (tr :: rest) trWrapper)
    {receivedEpoch : Nat} (latest : system.receivedEpoch ≤ receivedEpoch) :
    HandOff { system with
      server.shared.heap := (system.manager.finishTransaction id system.server.shared.heap tr rest trWrapper).2
      manager := (system.manager.finishTransaction id system.server.shared.heap tr rest trWrapper).1
      receivedEpoch } := by
  have lists := handOff.lists
  have signal := handOff.clock.finishing (by rw [TransactionManagerImpl.finishing, pc])
  have unfinished : system.manager.unfinished = tr :: rest := by rw [TransactionManagerImpl.unfinished, pc]
  have mine : system.epochOf tr = system.manager.epoch := lists.current tr (by rw [unfinished]; exact .head _)
  have next : ∀ r, r ∈ system.transactionBuffer ∨ r ∈ system.server.current →
      r ≠ tr ∧ r ∈ system.manager.nextEpochTrWrapper.transactionList := by
    intro r member
    have epoch : system.epochOf r = system.manager.epoch + 1 :=
      member.elim (handOff.announced_buffer signal) (handOff.announced_running signal)
    refine ⟨?_, ?_⟩
    · rintro rfl
      omega
    · rcases handOff.monitored (handOff.monitors member) with ⟨other, -⟩ | ⟨-, inNext⟩
      · omega
      · exact inNext
  have after := lists.finishTransaction rfl pc
  have decided := lists.decided (by rw [TransactionManagerImpl.finishing, pc]) tr (by rw [unfinished]; exact .head _)
  cases result : (system.server.shared.heap tr).transactionResult with
  | PENDING => exact absurd result decided
  | COMMIT | ABORT_NO_RETRY =>
    rw [TransactionManagerImpl.finishTransaction_recorded rest trWrapper (by simp [result])] at after ⊢
    refine handOff.manages handOff.invariants after rfl rfl (fun _ => signal) latest
      (fun nonempty => Nat.lt_of_lt_of_le (handOff.clock.next nonempty) latest) (fun _ here => by cases here)
      (fun r member => .inr (next r member).2) (fun _ _ => rfl) rfl fun _ r member => ⟨?_, rfl⟩
    rw [unfinished]
    exact .tail _ member
  | ABORT =>
    obtain ⟨here, same, shape⟩ := TransactionManagerImpl.finishTransaction_retried system.manager rest
      result (lists.retries _ _ (.inl pc)) lists.wrapper
    rw [same] at after ⊢
    have invariants := handOff.invariants.environment
      (show tr ∉ system.server.current from fun member => (next tr (.inr member)).1 rfl)
      (FinishEpoch.retry (system.manager.epoch + 1) (system.server.shared.heap tr))
    refine handOff.manages invariants after rfl rfl (fun _ => signal) latest
      (fun _ => Nat.lt_of_lt_of_le (handOff.clock.opened signal) latest) (fun _ sending => ?_)
      (fun r member => .inr (List.mem_append_left _ (next r member).2))
      (fun r member => congrArg MockTransaction.epoch (Function.update_of_ne (next r (.inl member)).1 ..)) rfl
      fun _ r member => ?_
    · rcases shape with rfl | rfl <;> cases sending
    · have inRest : r ∈ rest := by rcases shape with rfl | rfl <;> exact member
      obtain ⟨notRest, -⟩ := lists.apart unfinished
      refine ⟨by rw [unfinished]; exact .tail _ inRest, Function.update_of_ne ?_ ..⟩
      rintro rfl
      exact notRest inRest

/-- What is sent belongs at the back of the buffer: a batch of this epoch is only sent while there is
nothing of the next one. -/
theorem HandOff.sending_late (handOff : system.HandOff) {trWrapper : TransactionWrapper} {pc : ManagerPc}
    (sends : system.manager.Sends trWrapper pc) {r : Ref} (member : r ∈ trWrapper.transactionList) :
    (∀ s, s ∈ system.transactionBuffer ∨ s ∈ trWrapper.transactionList → system.epochOf s ≤ system.epochOf r) ∧
      system.server.epochChan ≤ system.epochOf r ∧
      (system.server.pc.Closed ∨ system.server.pc = .increment → system.server.epochChan < system.epochOf r) := by
  obtain ⟨-, unsent, -⟩ := sends.same system.server.shared.heap
  have listed : ∀ s ∈ trWrapper.transactionList, s ∈ system.manager.unsent := fun s inWrapper => by
    rw [unsent]
    exact List.mem_append_left _ inWrapper
  have chan := handOff.clock.chan
  have behind : system.server.pc.Closed ∨ system.server.pc = .increment →
      system.server.epochChan ≠ system.manager.epoch + 1 := fun here ahead =>
    here.elim (handOff.clock.ahead ahead).1 (handOff.clock.ahead ahead).2
  by_cases sending : ∃ batch, system.manager.pc = .sendCurrent batch
  · obtain ⟨batch, here⟩ := sending
    obtain rfl : trWrapper = batch := by
      cases sends with
      | current pc => rw [pc] at here; cases here; rfl
      | next pc | full pc | rest pc => rw [pc] at here; cases here
    have latest := handOff.clock.sending trWrapper here (List.ne_nil_of_mem member)
    have unannounced : system.manager.lastEpochFinishSignal ≠ system.manager.epoch := fun signal => by
      have opened := handOff.clock.opened signal
      omega
    have none : ∀ s, system.manager.Monitors s → system.epochOf s = system.manager.epoch := by
      intro s monitors
      rcases handOff.monitored monitors with ⟨epoch, -⟩ | ⟨-, inNext⟩
      · exact epoch
      · have opened := handOff.clock.next (List.ne_nil_of_mem inNext)
        omega
    have current : ∀ s ∈ trWrapper.transactionList, system.epochOf s = system.manager.epoch := fun s inWrapper =>
      none s (handOff.lists.unsent_mem (listed s inWrapper))
    have announced := handOff.clock.announced
    rw [current r member]
    refine ⟨fun s known => Nat.le_of_eq ?_, ?_, fun closed => ?_⟩
    · exact known.elim (fun inBuffer => none s (handOff.buffered.held s inBuffer)) (current s)
    · by_contra above
      exact unannounced (announced.mpr (.inl (by omega)))
    · rcases closed with closed | ended
      · obtain ⟨nonempty, later⟩ := handOff.buffered.closed closed
        obtain ⟨s, inBuffer⟩ := List.exists_mem_of_ne_nil _ nonempty
        rw [← none s (handOff.buffered.held s inBuffer)]
        exact later s inBuffer
      · have apart := behind (.inr ended)
        have other : system.server.epochChan ≠ system.manager.epoch := fun same =>
          unannounced (announced.mpr (.inr ⟨same, ended⟩))
        omega
  · have next : ∀ s ∈ trWrapper.transactionList, system.epochOf s = system.manager.epoch + 1 := fun s inWrapper =>
      handOff.lists.next s (handOff.lists.sendingNext (fun batch here => sending ⟨batch, here⟩) s (listed s inWrapper))
    rw [next r member]
    refine ⟨fun s known => ?_, chan, fun closed => ?_⟩
    · rcases known with inBuffer | inWrapper
      · rcases handOff.monitored (handOff.buffered.held s inBuffer) with ⟨epoch, -⟩ | ⟨epoch, -⟩ <;> omega
      · exact Nat.le_of_eq (next s inWrapper)
    · have apart := behind closed
      omega

theorem HandOff.sends (handOff : system.HandOff) {trWrapper : TransactionWrapper} {pc : ManagerPc}
    (sends : system.manager.Sends trWrapper pc) {receivedEpoch : Nat} (latest : system.receivedEpoch ≤ receivedEpoch) :
    HandOff { system with
      manager := (system.manager.send system.server.shared.heap trWrapper pc).1
      transactionBuffer := system.transactionBuffer ++ trWrapper.transactionList.reverse
      receivedEpoch } := by
  obtain ⟨unfinished, unsent, finishing⟩ := sends.same system.server.shared.heap
  have lists := handOff.lists.send sends
  have listed : ∀ r ∈ trWrapper.transactionList, r ∈ system.manager.unsent := fun r member => by
    rw [unsent]
    exact List.mem_append_left _ member
  have monitors : ∀ r, system.manager.Monitors r →
      (system.manager.send system.server.shared.heap trWrapper pc).1.Monitors r := fun r monitors => by
    rw [TransactionManagerImpl.Monitors, unfinished]
    exact monitors
  have late := fun r => @HandOff.sending_late _ _ handOff _ _ sends r
  obtain ⟨invariants, old, clock, buffered, placed⟩ := handOff
  refine ⟨invariants, lists, ?_, ?_, ?_⟩
  · refine { clock with
      finishing := fun busy => clock.finishing (by rwa [finishing] at busy)
      opened := fun signal => Nat.lt_of_lt_of_le (clock.opened signal) latest
      next := fun nonempty => Nat.lt_of_lt_of_le (clock.next nonempty) latest
      sending := fun _ here => ?_ }
    cases sends <;> cases here
  · constructor
    case held =>
      intro r member
      refine monitors r ((List.mem_append.mp member).elim (buffered.held r) fun new => ?_)
      exact old.unsent_mem (listed r (List.mem_reverse.mp new))
    case running => exact fun r member => monitors r (buffered.running r member)
    case sorted =>
      refine List.pairwise_append.mpr ⟨buffered.sorted, ?_, fun s old r new => ?_⟩
      · refine List.pairwise_iff_forall_sublist.mpr fun {s r} sublist => ?_
        have both := sublist.subset
        exact (late r (List.mem_reverse.mp (both (by simp)))).1 s (.inr (List.mem_reverse.mp (both (by simp))))
      · exact (late r (List.mem_reverse.mp new)).1 s (.inl old)
    case lower =>
      intro r member
      rcases List.mem_append.mp member with old | new
      · exact buffered.lower r old
      · exact (late r (List.mem_reverse.mp new)).2.1
    case closed =>
      intro closed
      obtain ⟨nonempty, later⟩ := buffered.closed closed
      refine ⟨List.append_ne_nil_of_left_ne_nil nonempty _, fun r member => ?_⟩
      rcases List.mem_append.mp member with old | new
      · exact later r old
      · exact (late r (List.mem_reverse.mp new)).2.2 (.inl closed)
    case ended =>
      intro here r member
      rcases List.mem_append.mp member with old | new
      · exact buffered.ended here r old
      · exact (late r (List.mem_reverse.mp new)).2.2 (.inr here)
  · constructor
    case placed =>
      rw [TransactionManagerImpl.send_sendings]
      refine (placed.placed.append_right _).trans ?_
      rw [List.append_assoc]
      refine List.Perm.append_left _ ?_
      simp only [waiting, List.map_append, List.map_reverse]
      exact (List.reverse_perm _).symm.append_left _
    case workloads => exact placed.workloads
    case done =>
      intro signal r member
      rw [unfinished] at member
      exact (placed.done signal r member).mono (fun h => h) (fun _ h => h) rfl fun _ h => h

theorem HandOff.generates {crypto : BlockCrypto} {proto : TransactionProto} (handOff : system.HandOff)
    (pc : system.manager.pc = .generate) {manager : TransactionManagerImpl}
    (generated : system.manager.generateBlock id crypto proto system.server.shared.heap = some manager)
    {receivedEpoch : Nat} : HandOff { system with manager, receivedEpoch } := by
  have lists := handOff.lists.generateBlock rfl pc generated
  have signal := handOff.clock.finishing (by rw [TransactionManagerImpl.finishing, pc])
  have unfinished : system.manager.unfinished = [] := by rw [TransactionManagerImpl.unfinished, pc]
  obtain ⟨block, -, -, rfl⟩ := TransactionManagerImpl.generateBlock_eq generated
  have monitors : ∀ r, system.manager.Monitors r → r ∈ system.manager.nextEpochTrWrapper.transactionList :=
    fun r monitors => monitors.resolve_left (by rw [unfinished]; exact List.not_mem_nil)
  obtain ⟨invariants, -, clock, buffered, placed⟩ := handOff
  have chan := clock.chan
  refine ⟨invariants, lists, ?_, ?_, ?_⟩
  · constructor
    case signal => exact Nat.le_succ_of_le clock.signal
    case announced =>
      refine ⟨fun same => ?_, fun same => ?_⟩
      · simp only [id_eq] at same
        omega
      · rcases same with ahead | ⟨same, here⟩
        · simp only [id_eq] at ahead
          omega
        · exact absurd here (clock.ahead same).2
    case chan => exact Nat.le_succ_of_le chan
    case ahead =>
      intro ahead
      simp only [id_eq] at ahead
      omega
    case finishing => exact fun finishing => by cases finishing
    case opened =>
      intro same
      simp only [id_eq] at same
      omega
    case next => exact fun nonempty => absurd rfl nonempty
    case sending => exact fun _ here => by cases here
  · exact { buffered with
      held := fun r member => .inl (monitors r (buffered.held r member))
      running := fun r member => .inl (monitors r (buffered.running r member)) }
  · exact { placed with
      done := fun same => by
        simp only [id_eq] at same
        omega }

theorem HandOff.manager {crypto : BlockCrypto} {proto : TransactionProto} (handOff : system.HandOff)
    {answer : Option (List Ref)} (step : system.managerStep crypto proto answer = some next) : next.HandOff := by
  obtain ⟨latest, step⟩ := Option.ite_none_right_eq_some.mp step
  obtain ⟨⟨manager, heap, sent⟩, stepped, step⟩ := Option.bind_eq_some_iff.mp step
  obtain ⟨transactionBuffer, added, same⟩ := Option.bind_eq_some_iff.mp step
  cases same
  cases TransactionManagerImpl.step_cases stepped with
  | goto goes =>
    cases added
    exact handOff.managerGoes goes latest
  | receiveCurrent pc answered offers =>
    cases added
    subst answered
    exact handOff.receivesCurrent pc offers latest
  | receiveNext pc answered offers =>
    cases added
    subst answered
    exact handOff.receivesNext pc offers latest
  | finishEpoch pc signal =>
    cases added
    exact handOff.finishesEpoch pc signal latest
  | finishTransaction pc =>
    cases added
    exact handOff.finishesTransaction pc latest
  | send sends =>
    obtain ⟨-, same⟩ := Option.ite_none_right_eq_some.mp added
    cases same
    exact handOff.sends sends latest
  | generate pc generated =>
    cases added
    exact handOff.generates pc generated

theorem HandOff.step [DecidableEq Slot] {slotOf : SlotOf Slot} {chaincode : Chaincode} {crypto : BlockCrypto}
    {proto : TransactionProto} (handOff : system.HandOff) {move : BlockServerMove}
    (step : system.step slotOf chaincode crypto proto move = some next) : next.HandOff := by
  cases move with
  | coordinator => exact handOff.coordinator step
  | worker id =>
    obtain ⟨member, step⟩ := Option.ite_none_right_eq_some.mp step
    obtain ⟨server, stepped, rfl⟩ := Option.map_eq_some_iff.mp step
    exact handOff.worker member stepped
  | manager answer => exact handOff.manager step
  | create r transaction =>
    obtain ⟨unknown, same⟩ := Option.ite_none_left_eq_some.mp step
    cases same
    exact handOff.create transaction unknown

theorem HandOff.run [DecidableEq Slot] {slotOf : SlotOf Slot} {chaincode : Chaincode} {crypto : BlockCrypto}
    {proto : TransactionProto} (handOff : system.HandOff) {moves : List BlockServerMove}
    (ran : system.run slotOf chaincode crypto proto moves = some next) : next.HandOff :=
  Runs.invariant _ (fun stepped handOff => handOff.step stepped) ran handOff

end BlockServer

end Blockchain
