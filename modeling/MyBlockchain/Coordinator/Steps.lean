import MyBlockchain.Coordinator.Phases

namespace Blockchain

namespace CoordinatorPc

/-- The coordinator is about to wake the workers of the epoch before. -/
def Starting (pc : CoordinatorPc) : Prop := pc = .begin ∨ ∃ rest, pc = .broadcastStart rest

/-- The coordinator has found no more transactions of the epoch. -/
def Closed : CoordinatorPc → Prop
  | .broadcastRead _ | .syncRead _ | .waitFinishRead _ _ | .broadcastCommit _ | .syncCommit _ | .waitReady _ _
  | .finish => True
  | _ => False

end CoordinatorPc

namespace Server

variable {Slot : Type} {slotOf : SlotOf Slot} {chaincode : Chaincode} {server next : Server Slot}

/-- The coordinator may go on to `pc` while no workload is made or handed out and no epoch ends. -/
structure GoesTo (server : Server Slot) (transactionList : List Ref) (pc : CoordinatorPc) : Prop where
  before : server.pc ≠ .finish ∧ server.pc ≠ .increment
  after : pc ≠ .increment
  pending : ∀ workload rest, pc = .deployWorkload workload rest →
    ∃ more, server.pc = .deployWorkload workload more
  deploying : ∀ workload more, server.pc = .deployWorkload workload more →
    ∃ rest, pc = .deployWorkload workload rest
  starting : pc.Starting → server.pc.Starting
  closed : pc.Closed → server.pc.Closed ∨ server.pc = .getWorkload ∧ transactionList = []

/-- What a step of the coordinator can do. -/
inductive CoordinatorStep (server : Server Slot) (transactionList : List Ref) : Server Slot → Prop
  | goto (pc : CoordinatorPc) (globalState : AriaGlobalState) (goes : server.GoesTo transactionList pc) :
      CoordinatorStep server transactionList { server with globalState, pc }
  | signal (pc : CoordinatorPc) (id : Nat) (state : AriaGlobalState) (goes : server.GoesTo transactionList pc)
      (undeployed : ∀ workload rest, pc ≠ .deployWorkload workload rest) (listed : id ∈ server.workerIDs)
      (start : state = .START → server.pc.Starting) :
      CoordinatorStep server transactionList
        ((server.setWorker id { server.workers id with ariaGlobalState := state }).setPc pc)
  | make (pc : server.pc = .getWorkload) (nonempty : transactionList ≠ [])
      (epochs : ∀ r ∈ transactionList, (server.shared.heap r).epoch = server.epochChan) :
      CoordinatorStep server transactionList
        { server with
          made := server.made + 1
          current := server.current ++ transactionList
          pc := .deployWorkload (server.makeWorkload transactionList) server.workerIDs }
  | create (workload : Workload) (pc : server.pc = .deployWorkload workload []) :
      CoordinatorStep server transactionList
        (((server.createWorker workload).setPc (.syncAssigned server.IDNounce)).record
          (.reached workload server.IDNounce .deployed))
  | assign (workload : Workload) (id : Nat) (rest : List Nat) (pc : server.pc = .deployWorkload workload (id :: rest))
      (listed : id ∈ server.workerIDs) (idle : (server.workers id).In .idleStart) :
      CoordinatorStep server transactionList
        (((server.setWorker id { server.workers id with workload, workerState := .ASSIGNED }).setPc
          (.signalRead id)).record (.reached workload id .deployed))
  | finish (pc : server.pc = .finish) :
      CoordinatorStep server transactionList
        ({ server with current := [], pc := .increment }.record (.finished server.epochChan))
  | increment (pc : server.pc = .increment) :
      CoordinatorStep server transactionList
        { server with epochChan := server.epochChan + 1, executed := [], pc := .begin }

theorem broadcastTo_step {transactionList : List Ref} {pc : CoordinatorPc} {id : Nat} (onlyAssigned : Bool)
    (goes : server.GoesTo transactionList pc) (undeployed : ∀ workload rest, pc ≠ .deployWorkload workload rest)
    (listed : id ∈ server.workerIDs) (start : server.globalState = .START → server.pc.Starting) :
    CoordinatorStep server transactionList ((server.broadcastTo onlyAssigned id).setPc pc) := by
  unfold broadcastTo
  dsimp only
  split
  · exact .goto pc server.globalState goes
  · exact .signal pc id server.globalState goes undeployed listed start

theorem coordinatorStep_cases (phase : server.Phase) {transactionList : List Ref}
    (step : server.coordinatorStep transactionList = some next) :
    CoordinatorStep server transactionList next := by
  have visits := phase.visits
  unfold coordinatorStep at step
  split at step
  case h_1 pc =>
    cases step
    exact .goto _ _ ⟨by simp [pc], by simp, by simp, by simp [pc], fun _ => .inl pc, by simp [CoordinatorPc.Closed]⟩
  case h_2 pc =>
    cases step
    exact .goto _ server.globalState ⟨by simp [pc], by simp, by simp, by simp [pc], by simp [CoordinatorPc.Starting],
      by simp [CoordinatorPc.Closed]⟩
  case h_3 id rest pc =>
    cases step
    rw [pc] at visits
    have starting : server.pc.Starting := .inr ⟨_, pc⟩
    exact broadcastTo_step false
      ⟨by simp [pc], by simp, by simp, by simp [pc], fun _ => starting, by simp [CoordinatorPc.Closed]⟩
      (by simp) (visits id (.head _)) fun _ => starting
  case h_4 pc =>
    split at step
    · rename_i empty
      cases step
      exact .goto _ _ ⟨by simp [pc], by simp, by simp, by simp [pc], by simp [CoordinatorPc.Starting],
        fun _ => .inr ⟨pc, empty⟩⟩
    · rename_i nonempty
      split at step
      · rename_i epochs
        cases step
        exact .make pc nonempty epochs
      · cases step
  case h_5 workload pc =>
    cases step
    exact .create workload pc
  case h_6 workload id rest pc =>
    rw [pc] at visits
    dsimp only at step
    split at step
    · rename_i ready
      cases step
      have listed : id ∈ server.workerIDs := visits id (.head _)
      obtain ⟨mode, allows, here⟩ := phase.mode id listed
      rw [pc] at allows
      rcases allows with rfl | rfl | rfl
      · exact .assign workload id rest pc listed here
      · rw [here.2.1] at ready
        cases ready
      · rw [here.2.1] at ready
        cases ready
    · cases step
      refine .goto _ server.globalState ⟨by simp [pc], by simp, fun load more same => ?_, fun load more same => ?_,
        by simp [CoordinatorPc.Starting], by simp [CoordinatorPc.Closed]⟩
      · cases same
        exact ⟨_, pc⟩
      · rw [pc] at same
        cases same
        exact ⟨_, rfl⟩
  case h_7 id pc =>
    split at step
    · cases step
      exact .goto _ server.globalState ⟨by simp [pc], by simp, by simp, by simp [pc], by simp [CoordinatorPc.Starting],
        by simp [CoordinatorPc.Closed]⟩
    · cases step
  case h_8 id pc =>
    cases step
    rw [pc] at visits
    exact .signal _ id _ ⟨by simp [pc], by simp, by simp, by simp [pc], by simp [CoordinatorPc.Starting],
      by simp [CoordinatorPc.Closed]⟩ (by simp) (visits id (.head _)) (by simp)
  case h_9 pc | h_11 pc | h_14 pc | h_16 pc =>
    cases step
    exact .goto _ _ ⟨by simp [pc], by simp, by simp, by simp [pc], by simp [CoordinatorPc.Starting],
      by simp [pc, CoordinatorPc.Closed]⟩
  case h_10 id rest pc =>
    have read : server.globalState = .Aria_READ := phase.signal .Aria_READ (by rw [pc]; rfl)
    cases step
    rw [pc] at visits
    exact broadcastTo_step true ⟨by simp [pc], by simp, by simp, by simp [pc], by simp [CoordinatorPc.Starting],
      by simp [pc, CoordinatorPc.Closed]⟩ (by simp) (visits id (.head _)) (by simp [read])
  case h_15 id rest pc =>
    have commit : server.globalState = .Aria_COMMIT := phase.signal .Aria_COMMIT (by rw [pc]; rfl)
    cases step
    rw [pc] at visits
    exact broadcastTo_step true ⟨by simp [pc], by simp, by simp, by simp [pc], by simp [CoordinatorPc.Starting],
      by simp [pc, CoordinatorPc.Closed]⟩ (by simp) (visits id (.head _)) (by simp [commit])
  case h_12 id rest pc | h_17 id rest pc =>
    split at step <;> cases step <;>
      exact .goto _ server.globalState ⟨by simp [pc], by simp, by simp, by simp [pc], by simp [CoordinatorPc.Starting],
        by simp [pc, CoordinatorPc.Closed]⟩
  case h_13 id rest pc | h_18 id rest pc =>
    split at step
    · cases step
      exact .goto _ server.globalState ⟨by simp [pc], by simp, by simp, by simp [pc], by simp [CoordinatorPc.Starting],
        by simp [pc, CoordinatorPc.Closed]⟩
    · cases step
  case h_19 pc =>
    cases step
    exact .finish pc
  case h_20 pc =>
    cases step
    exact .increment pc

end Server

end Blockchain
