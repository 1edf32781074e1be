import MyBlockchain.Coordinator.Steps

namespace Blockchain

def Event.address : Event → Option Nat
  | .reached workload _ _ => some workload.address
  | .finished _ => none

def history (log : List Event) (address : Nat) : List Event :=
  log.filter fun event => event.address = some address

theorem history_append (log later : List Event) (address : Nat) :
    history (log ++ later) address = history log address ++ history later address :=
  List.filter_append _ _

theorem history_reached (workload : Workload) (id : Nat) (stages : List Stage) :
    history (stages.map (.reached workload id)) workload.address = stages.map (.reached workload id) :=
  List.filter_eq_self.mpr fun event member => by
    obtain ⟨stage, -, rfl⟩ := List.mem_map.mp member
    simp [Event.address]

theorem history_other {workload : Workload} {address : Nat} (other : workload.address ≠ address) (id : Nat)
    (stages : List Stage) : history (stages.map (.reached workload id)) address = [] :=
  List.filter_eq_nil_iff.mpr fun event member => by
    obtain ⟨stage, -, rfl⟩ := List.mem_map.mp member
    simp [Event.address, other]

theorem mem_history {log : List Event} {workload : Workload} {id : Nat} {stage : Stage} :
    Event.reached workload id stage ∈ history log workload.address ↔ .reached workload id stage ∈ log := by
  simp [history, Event.address]

namespace Server

variable {Slot : Type}

/-- The stages of a workload that was given to a worker: all of them once the worker has another one. -/
def stagesOf (server : Server Slot) (workload : Workload) (id : Nat) : List Stage :=
  if (server.workers id).workload = workload then (server.workers id).stages else Stage.all

structure History (server : Server Slot) : Prop where
  made : ∀ workload id stage, .reached workload id stage ∈ server.log → workload.address < server.made
  known : ∀ workload id stage, .reached workload id stage ∈ server.log →
    id ∈ server.workerIDs ∧ workload.epoch ≤ server.epochChan ∧
      history server.log workload.address = (server.stagesOf workload id).map (.reached workload id)
  current : ∀ id ∈ server.workerIDs, .reached (server.workers id).workload id .deployed ∈ server.log
  pending : ∀ workload rest, server.pc = .deployWorkload workload rest → workload.epoch = server.epochChan ∧
    workload.address < server.made ∧ history server.log workload.address = []
  running : ∀ id ∈ server.workerIDs, (server.workers id).stages ≠ Stage.all →
    (server.workers id).workload.epoch = server.epochChan
  replaced : ∀ workload id stage, .reached workload id stage ∈ server.log →
    (server.workers id).workload ≠ workload → workload.epoch < server.epochChan
  stale : ∀ id ∈ server.workerIDs, (server.workers id).ariaGlobalState = .START →
    (server.workers id).stages = Stage.all → (server.workers id).workload.epoch < server.epochChan
  begun : server.pc.Starting → ∀ id ∈ server.workerIDs, (server.workers id).workload.epoch < server.epochChan
  finished : ∀ epoch, .finished epoch ∈ server.log →
    epoch < server.epochChan ∨ epoch = server.epochChan ∧ server.pc = .increment

variable {server next : Server Slot}

theorem initial_history (heap : Heap) (db : Contents Slot) (epochChan : Nat) :
    (initial heap db epochChan).History := by
  constructor <;> simp [initial, workerIDs]

theorem History.goto (history : server.History) {transactionList : List Ref} {pc : CoordinatorPc}
    (goes : server.GoesTo transactionList pc) (globalState : AriaGlobalState) :
    History { server with globalState, pc } where
  made := history.made
  known := history.known
  current := history.current
  pending workload rest here := by
    obtain ⟨more, there⟩ := goes.pending workload rest here
    exact history.pending workload more there
  running := history.running
  replaced := history.replaced
  stale := history.stale
  begun here := history.begun (goes.starting here)
  finished epoch member := .inl ((history.finished epoch member).resolve_right fun late => goes.before.2 late.2)

theorem History.signal (history : server.History) {transactionList : List Ref} {pc : CoordinatorPc}
    (goes : server.GoesTo transactionList pc) (undeployed : ∀ workload rest, pc ≠ .deployWorkload workload rest)
    (workerID : Nat) (state : AriaGlobalState)
    (start : state = .START → (server.workers workerID).workload.epoch < server.epochChan) :
    ((server.setWorker workerID { server.workers workerID with ariaGlobalState := state }).setPc pc).History := by
  have workload : ∀ id, (Function.update server.workers workerID
      { server.workers workerID with ariaGlobalState := state } id).workload = (server.workers id).workload :=
    Overwrite.view_update WorkerInstance.workload rfl
  have stages : ∀ id, (Function.update server.workers workerID
      { server.workers workerID with ariaGlobalState := state } id).stages = (server.workers id).stages :=
    Overwrite.view_update WorkerInstance.stages rfl
  constructor
  case made => exact history.made
  case known =>
    intro load id stage member
    simp only [stagesOf, setPc, setWorker, workload, stages]
    exact history.known load id stage member
  case current =>
    intro id member
    simp only [setPc, setWorker, workload]
    exact history.current id member
  case pending => exact fun load rest here => absurd here (undeployed load rest)
  case running =>
    intro id member
    simp only [setPc, setWorker, workload, stages]
    exact history.running id member
  case replaced =>
    intro load id stage member
    simp only [setPc, setWorker, workload]
    exact history.replaced load id stage member
  case stale =>
    intro id member signal all
    simp only [setPc, setWorker, workload, stages] at signal all ⊢
    by_cases same : id = workerID
    · subst same
      exact start (by simpa using signal)
    · exact history.stale id member (by simpa [same] using signal) all
  case begun =>
    intro here id member
    simp only [setPc, setWorker, workload]
    exact history.begun (goes.starting here) id member
  case finished =>
    exact fun epoch member => .inl ((history.finished epoch member).resolve_right fun late => goes.before.2 late.2)

theorem History.deploy (history : server.History) {workload : Workload} {rest : List Nat} {id : Nat}
    {worker : WorkerInstance} (here : server.pc = .deployWorkload workload rest)
    (idle : id ∈ server.workerIDs → (server.workers id).stages = Stage.all ∧
      (server.workers id).workload.epoch < server.epochChan)
    (ids : ∀ other, other ∈ next.workerIDs ↔ other ∈ server.workerIDs ∨ other = id)
    (load : worker.workload = workload) (stages : worker.stages = [.deployed])
    (workers : next.workers = Function.update server.workers id worker)
    (log : next.log = server.log ++ [.reached workload id .deployed]) (made : next.made = server.made)
    (epochChan : next.epochChan = server.epochChan) (pc : next.pc = .syncAssigned id ∨ next.pc = .signalRead id) :
    next.History := by
  obtain ⟨epoch, address, unlogged⟩ := history.pending workload rest here
  have apart : ∀ other id stage, .reached other id stage ∈ server.log → workload.address ≠ other.address := by
    intro other id stage member same
    have listed := mem_history.mpr member
    rw [← same, unlogged] at listed
    cases listed
  have mine : next.workers id = worker := by rw [workers, Function.update_self]
  have others : ∀ {other}, other ≠ id → next.workers other = server.workers other := fun different => by
    rw [workers, Function.update_of_ne different]
  constructor
  case made =>
    intro other j stage member
    rw [log] at member
    rw [made]
    rcases List.mem_append.mp member with old | new
    · exact history.made other j stage old
    · cases List.mem_singleton.mp new
      exact address
  case known =>
    intro other j stage member
    rw [log] at member ⊢
    rw [epochChan]
    rcases List.mem_append.mp member with old | new
    · obtain ⟨listed, bound, said⟩ := history.known other j stage old
      refine ⟨(ids j).mpr (.inl listed), bound, ?_⟩
      have same : next.stagesOf other j = server.stagesOf other j := by
        by_cases mineToo : j = id
        · subst mineToo
          have different : workload ≠ other := fun equal => apart other j stage old (by rw [equal])
          rw [stagesOf, stagesOf, mine, load, if_neg different, (idle listed).1, ite_self]
        · rw [stagesOf, stagesOf, others mineToo]
      rw [same, history_append, said]
      have other_ := history_other (apart other j stage old) id [.deployed]
      simpa using other_
    · cases List.mem_singleton.mp new
      refine ⟨(ids id).mpr (.inr rfl), Nat.le_of_eq epoch, ?_⟩
      rw [history_append, unlogged, stagesOf, mine, load, if_pos rfl, stages]
      exact history_reached workload id [.deployed]
  case current =>
    intro other member
    rw [log]
    by_cases same : other = id
    · subst same
      rw [mine, load]
      simp
    · rw [others same]
      exact List.mem_append_left _ (history.current other (((ids other).mp member).resolve_right same))
  case pending =>
    intro other more there
    rcases pc with pc | pc <;> rw [pc] at there <;> cases there
  case running =>
    intro other member unfinished
    rw [epochChan]
    by_cases same : other = id
    · subst same
      rw [mine, load, epoch]
    · rw [others same] at unfinished ⊢
      exact history.running other (((ids other).mp member).resolve_right same) unfinished
  case replaced =>
    intro other j stage member different
    rw [log] at member
    rw [epochChan]
    rcases List.mem_append.mp member with old | new
    · by_cases same : j = id
      · subst same
        by_cases previous : (server.workers j).workload = other
        · rw [← previous]
          exact (idle (history.known other j stage old).1).2
        · exact history.replaced other j stage old previous
      · rw [others same] at different
        exact history.replaced other j stage old different
    · cases List.mem_singleton.mp new
      rw [mine] at different
      exact absurd load different
  case stale =>
    intro other member signal all
    rw [epochChan]
    by_cases same : other = id
    · subst same
      rw [mine, stages] at all
      cases all
    · rw [others same] at signal all ⊢
      exact history.stale other (((ids other).mp member).resolve_right same) signal all
  case begun =>
    rintro (start | ⟨more, start⟩) <;> rcases pc with pc | pc <;> rw [pc] at start <;> cases start
  case finished =>
    intro e member
    rw [log] at member
    rw [epochChan]
    rcases List.mem_append.mp member with old | new
    · exact .inl ((history.finished e old).resolve_right fun late => by rw [here] at late; cases late.2)
    · cases List.mem_singleton.mp new

theorem stages_unfinished {before after : WorkerInstance} {stage : Option Stage}
    (stages : after.stages = before.stages ++ stage.toList) (unfinished : after.stages ≠ Stage.all) :
    before.stages ≠ Stage.all := by
  intro all
  obtain ⟨count, taken⟩ := after.stages_take
  rw [stages, all] at unfinished taken
  have lengths := congrArg List.length taken
  have none : stage.toList = [] := by
    rw [List.length_append, List.length_take] at lengths
    exact List.length_eq_zero_iff.mp (by omega)
  exact unfinished (by rw [none, List.append_nil])

theorem History.own (history : server.History) {id : Nat} (member : id ∈ server.workerIDs) {workload : Workload}
    {other : Nat} {stage : Stage} (listed : .reached workload other stage ∈ server.log)
    (same : (server.workers id).workload.address = workload.address) :
    workload = (server.workers id).workload ∧ other = id := by
  have said := (history.known _ id .deployed (history.current id member)).2.2
  rw [same] at said
  have logged := mem_history.mpr listed
  rw [said] at logged
  obtain ⟨_, -, equal⟩ := List.mem_map.mp logged
  cases equal
  exact ⟨rfl, rfl⟩

theorem History.stagesOf_grown (history : server.History) {id : Nat} (member : id ∈ server.workerIDs)
    {worker : WorkerInstance} {stage : Option Stage} (load : worker.workload = (server.workers id).workload)
    (stages : worker.stages = (server.workers id).stages ++ stage.toList) (shared : Shared Slot)
    {workload : Workload} {other : Nat} {old : Stage} (listed : .reached workload other old ∈ server.log) :
    Blockchain.history (server.log ++ stage.toList.map (.reached (server.workers id).workload id))
        workload.address =
      (stagesOf { server with shared, workers := Function.update server.workers id worker } workload other).map
        (.reached workload other) := by
  rw [history_append, (history.known workload other old listed).2.2]
  by_cases same : (server.workers id).workload.address = workload.address
  · obtain ⟨rfl, rfl⟩ := history.own member listed same
    rw [history_reached]
    simp [stagesOf, load, stages]
  · rw [history_other same, List.append_nil]
    congr 1
    by_cases moved : other = id
    · subst moved
      have different : (server.workers other).workload ≠ workload := fun equal => same (by rw [equal])
      simp [stagesOf, load, different]
    · simp [stagesOf, moved]

theorem History.worker [DecidableEq Slot] {slotOf : SlotOf Slot} {chaincode : Chaincode} (history : server.History)
    (phase : server.Phase) {id : Nat} (member : id ∈ server.workerIDs)
    (step : server.workerStep slotOf chaincode id = some next) : next.History := by
  obtain ⟨worker, stage, shared, executed, move, rfl⟩ := workerStep_cases step
  obtain ⟨mode, -, before⟩ := phase.mode id member
  obtain ⟨load, stages, after, forward, now⟩ := move.spec before
  have mine := history.current id member
  have noNew : ∀ event ∈ stage.toList.map (Event.reached (server.workers id).workload id),
      ∃ s ∈ stage, event = .reached (server.workers id).workload id s := by
    intro event listed
    obtain ⟨s, inStage, rfl⟩ := List.mem_map.mp listed
    exact ⟨s, Option.mem_toList.mp inStage, rfl⟩
  constructor
  case made =>
    intro other j old listed
    rcases List.mem_append.mp listed with listed | new
    · exact history.made other j old listed
    · obtain ⟨s, -, equal⟩ := noNew _ new
      cases equal
      exact history.made _ id _ mine
  case known =>
    intro other j old listed
    rcases List.mem_append.mp listed with listed | new
    · obtain ⟨inIds, bound, -⟩ := history.known other j old listed
      exact ⟨inIds, bound, history.stagesOf_grown member load stages shared listed⟩
    · obtain ⟨s, -, equal⟩ := noNew _ new
      cases equal
      obtain ⟨inIds, bound, -⟩ := history.known _ id _ mine
      exact ⟨inIds, bound, history.stagesOf_grown member load stages shared mine⟩
  case current =>
    intro other inIds
    refine List.mem_append_left _ ?_
    by_cases same : other = id
    · subst same
      simpa [load] using mine
    · simpa [same] using history.current other inIds
  case pending =>
    intro other rest here
    obtain ⟨epoch, address, unlogged⟩ := history.pending other rest here
    refine ⟨epoch, address, ?_⟩
    have different : (server.workers id).workload.address ≠ other.address := by
      intro same
      have logged := mem_history.mpr mine
      rw [same, unlogged] at logged
      cases logged
    rw [history_append, unlogged, history_other different]
    rfl
  case running =>
    intro other inIds different
    by_cases same : other = id
    · subst same
      simp only [Function.update_self] at different ⊢
      rw [load]
      exact history.running other member (stages_unfinished stages different)
    · simp only [Function.update_of_ne same] at different ⊢
      exact history.running other inIds different
  case replaced =>
    intro other j old listed different
    have kept : (server.workers j).workload ≠ other := by
      by_cases same : j = id
      · subst same
        simpa [load] using different
      · simpa [same] using different
    rcases List.mem_append.mp listed with listed | new
    · exact history.replaced other j old listed kept
    · obtain ⟨s, -, equal⟩ := noNew _ new
      cases equal
      exact absurd rfl kept
  case stale =>
    intro other inIds signal all
    by_cases same : other = id
    · subst same
      simp only [Function.update_self] at signal all ⊢
      rw [load]
      -- a worker that has finished and shows `START` has not moved
      have idle : after = .idleStart := by
        cases after with
        | idleStart => rfl
        | created => rw [WorkerInstance.In.stages_assigned (.inl now)] at all; cases all
        | assigned => rw [WorkerInstance.In.stages_assigned (.inr now)] at all; cases all
        | idleCommit | reading | hasRead | committing => rw [now.2.2] at signal; cases signal
      subst idle
      cases forward
      exact history.stale other inIds before.2.2 (WorkerInstance.In.stages_idle (.inl before))
    · simp only [Function.update_of_ne same] at signal all ⊢
      exact history.stale other inIds signal all
  case begun =>
    intro start other inIds
    by_cases same : other = id
    · subst same
      simpa [load] using history.begun start other inIds
    · simpa [same] using history.begun start other inIds
  case finished =>
    intro epoch listed
    rcases List.mem_append.mp listed with listed | new
    · exact history.finished epoch listed
    · obtain ⟨s, -, equal⟩ := noNew _ new
      cases equal

theorem History.make (history : server.History) (transactionList current : List Ref)
    (pc : server.pc = .getWorkload) :
    History { server with
      made := server.made + 1
      current
      pc := .deployWorkload (server.makeWorkload transactionList) server.workerIDs } where
  made load id stage member := Nat.lt_succ_of_lt (history.made load id stage member)
  known := history.known
  current := history.current
  pending := by
    rintro load rest ⟨rfl, rfl⟩
    refine ⟨rfl, Nat.lt_succ_self _, List.filter_eq_nil_iff.mpr fun event member => ?_⟩
    cases event with
    | reached other id stage =>
      have less := history.made other id stage member
      simp only [Event.address, makeWorkload, Option.some.injEq, decide_eq_true_eq]
      omega
    | finished epoch => simp [Event.address]
  running := history.running
  replaced := history.replaced
  stale := history.stale
  begun := by simp [CoordinatorPc.Starting]
  finished epoch member :=
    .inl ((history.finished epoch member).resolve_right fun late => by rw [pc] at late; cases late.2)

theorem History.finish (history : server.History) (current : List Ref) (pc : server.pc = .finish) :
    ({ server with current, pc := .increment }.record (.finished server.epochChan)).History := by
  have later : ∀ address, Blockchain.history (server.log ++ [.finished server.epochChan]) address =
      Blockchain.history server.log address := fun address => by
    rw [history_append]
    simp [Blockchain.history, Event.address]
  have old : ∀ {load id stage}, .reached load id stage ∈ server.log ++ [.finished server.epochChan] →
      .reached load id stage ∈ server.log := fun member => by simpa using member
  constructor
  case made => exact fun load id stage member => history.made load id stage (old member)
  case known =>
    intro load id stage member
    obtain ⟨listed, bound, said⟩ := history.known load id stage (old member)
    exact ⟨listed, bound, (later _).trans said⟩
  case current => exact fun id member => List.mem_append_left _ (history.current id member)
  case pending => simp [record]
  case running => exact history.running
  case replaced => exact fun load id stage member => history.replaced load id stage (old member)
  case stale => exact history.stale
  case begun => simp [record, CoordinatorPc.Starting]
  case finished =>
    intro epoch member
    rcases List.mem_append.mp member with before | now
    · exact .inl ((history.finished epoch before).resolve_right fun late => by rw [pc] at late; cases late.2)
    · cases List.mem_singleton.mp now
      exact .inr ⟨rfl, rfl⟩

theorem History.increment (history : server.History) (phase : server.Phase) (executed : List Execution)
    (pc : server.pc = .increment) :
    History { server with epochChan := server.epochChan + 1, executed, pc := .begin } := by
  have bound : ∀ id ∈ server.workerIDs, (server.workers id).workload.epoch < server.epochChan + 1 :=
    fun id member => Nat.lt_succ_of_le (history.known _ id _ (history.current id member)).2.1
  constructor
  case made => exact history.made
  case known =>
    intro load id stage member
    obtain ⟨listed, less, said⟩ := history.known load id stage member
    exact ⟨listed, Nat.le_succ_of_le less, said⟩
  case current => exact history.current
  case pending => simp
  case running =>
    intro id member unfinished
    obtain ⟨mode, allows, here⟩ := phase.mode id member
    rw [pc] at allows
    refine absurd (WorkerInstance.In.stages_idle ?_) unfinished
    rcases allows with rfl | rfl
    · exact .inl here
    · exact .inr here
  case replaced =>
    exact fun load id stage member different => Nat.lt_succ_of_lt (history.replaced load id stage member different)
  case stale => exact fun id member _ _ => bound id member
  case begun => exact fun _ => bound
  case finished =>
    intro epoch member
    rcases history.finished epoch member with less | ⟨same, -⟩ <;> simp only <;> omega

theorem History.coordinator (history : server.History) (phase : server.Phase) {transactionList : List Ref}
    (step : server.coordinatorStep transactionList = some next) : next.History := by
  cases coordinatorStep_cases phase step with
  | goto pc globalState goes => exact history.goto goes globalState
  | signal pc id state goes undeployed listed start =>
    exact history.signal goes undeployed id state fun same => history.begun (start same) id listed
  | make pc => exact history.make transactionList _ pc
  | create workload pc =>
    have nounce := phase.nounce
    have fresh : server.IDNounce ∉ server.workerIDs := by
      rw [phase.mem_workerIDs]
      omega
    refine history.deploy pc (fun member => absurd member fresh) (fun other => ?_) rfl rfl rfl rfl rfl rfl (.inl rfl)
    rw [phase.mem_workerIDs]
    simp only [workerIDs, record, setPc, createWorker, setWorker, List.mem_range'_1]
    omega
  | assign workload id rest pc listed idle =>
    have all := WorkerInstance.In.stages_idle (.inl idle)
    refine history.deploy pc (fun _ => ⟨all, history.stale id listed idle.2.2 all⟩) (fun other => ?_) rfl ?_ rfl
      rfl rfl rfl (.inr rfl)
    · refine ⟨fun member => .inl member, fun member => member.elim (fun h => h) ?_⟩
      rintro rfl
      exact listed
    · simp [WorkerInstance.stages, idle.1]
  | finish pc => exact history.finish [] pc
  | increment pc => exact history.increment phase [] pc

theorem History.holder (history : server.History) {workload : Workload} {id : Nat} {stage : Stage}
    (logged : .reached workload id stage ∈ server.log) (epoch : workload.epoch = server.epochChan) :
    id ∈ server.workerIDs ∧ (server.workers id).workload = workload := by
  refine ⟨(history.known workload id stage logged).1, ?_⟩
  by_contra other
  have before := history.replaced workload id stage logged other
  omega

end Server

end Blockchain
