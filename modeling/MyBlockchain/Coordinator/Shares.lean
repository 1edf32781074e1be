import MyBlockchain.Coordinator.Invariants

namespace Blockchain

theorem shares_perm {ι α : Type*} {ids : List ι} {before after : ι → List α} {id : ι} {taken : List α}
    (distinct : ids.Nodup) (member : id ∈ ids) (split : before id = taken ++ after id)
    (others : ∀ other, other ≠ id → before other = after other) :
    (ids.flatMap before).Perm (taken ++ ids.flatMap after) := by
  induction ids with
  | nil => cases member
  | cons first rest ih =>
    obtain ⟨new, distinct⟩ := List.nodup_cons.mp distinct
    rw [List.flatMap_cons, List.flatMap_cons]
    by_cases same : first = id
    · subst same
      have rest_ : rest.flatMap before = rest.flatMap after :=
        List.flatMap_congr fun other listed => others other fun equal => new (by rw [← equal]; exact listed)
      rw [split, rest_, List.append_assoc]
    · have later := ih distinct ((List.mem_cons.mp member).resolve_left fun equal => same equal.symm)
      rw [others first same]
      refine (later.append_left (after first)).trans ?_
      rw [← List.append_assoc, ← List.append_assoc]
      exact List.perm_append_comm.append_right _

namespace CoordinatorPc

def undealt : CoordinatorPc → List Ref
  | .deployWorkload workload _ => workload.transactionList
  | _ => []

theorem undealt_none {pc : CoordinatorPc} (none : ∀ workload rest, pc ≠ .deployWorkload workload rest) :
    pc.undealt = [] := by
  cases pc with
  | deployWorkload workload rest => exact absurd rfl (none workload rest)
  | _ => rfl

end CoordinatorPc

namespace Server

variable {Slot : Type} {slotOf : SlotOf Slot} {chaincode : Chaincode} {server next : Server Slot}

def toExecute (server : Server Slot) : List Ref := server.workerIDs.flatMap fun id => (server.workers id).toExecute

def invoked (server : Server Slot) : List Ref := server.executed.map Execution.transaction

def Shares (server : Server Slot) : Prop :=
  server.pc ≠ .increment → server.current.Perm (server.invoked ++ (server.toExecute ++ server.pc.undealt))

theorem initial_shares (heap : Heap) (db : Contents Slot) (epochChan : Nat) :
    (initial heap db epochChan).Shares := fun _ => .refl []

theorem workerIDs_nodup (server : Server Slot) : server.workerIDs.Nodup := List.nodup_range'

theorem toExecute_update {id : Nat} {worker : WorkerInstance} (ids : next.workerIDs = server.workerIDs)
    (workers : next.workers = Function.update server.workers id worker)
    (left : worker.toExecute = (server.workers id).toExecute) : next.toExecute = server.toExecute := by
  rw [toExecute, ids, workers]
  refine List.flatMap_congr fun other _ => ?_
  by_cases same : other = id
  · rw [same, Function.update_self, left]
  · rw [Function.update_of_ne same]

theorem Phase.toExecute_create (phase : server.Phase) (workload : Workload) :
    (server.createWorker workload).toExecute = server.toExecute ++ workload.transactionList := by
  have nounce := phase.nounce
  have more : (server.createWorker workload).workerIDs = server.workerIDs ++ [server.IDNounce] := by
    simp only [workerIDs, createWorker, setWorker]
    rw [show server.IDNounce + 1 - 1 = server.IDNounce - 1 + 1 by omega, List.range'_concat]
    congr 2
    omega
  rw [toExecute, more, List.flatMap_append, List.flatMap_singleton]
  congr 1
  · refine List.flatMap_congr fun id member => ?_
    have old := (phase.mem_workerIDs id).mp member
    have different : id ≠ server.IDNounce := by omega
    simp [createWorker, setWorker, different]
  · simp [createWorker, setWorker, WorkerInstance.toExecute]

theorem GoesTo.undealt {transactionList : List Ref} {pc : CoordinatorPc} (goes : server.GoesTo transactionList pc) :
    pc.undealt = server.pc.undealt := by
  by_cases deploying : ∃ workload more, server.pc = .deployWorkload workload more
  · obtain ⟨workload, more, there⟩ := deploying
    obtain ⟨rest, rfl⟩ := goes.deploying workload more there
    rw [there]
    rfl
  · rw [CoordinatorPc.undealt_none fun workload rest here => deploying ⟨workload, goes.pending workload rest here⟩,
      CoordinatorPc.undealt_none fun workload more there => deploying ⟨workload, more, there⟩]

theorem Phase.toExecute_idle (phase : server.Phase) (pc : server.pc = .increment) : server.toExecute = [] := by
  refine List.flatMap_eq_nil_iff.mpr fun id member => ?_
  obtain ⟨mode, allows, here⟩ := phase.mode id member
  rw [pc] at allows
  refine (WorkerInstance.In.left_idle ?_).1
  rcases allows with rfl | rfl
  · exact .inl here
  · exact .inr here

theorem Shares.coordinator (shares : server.Shares) (executions : server.Executions) (phase : server.Phase)
    {transactionList : List Ref} (step : server.coordinatorStep transactionList = some next) : next.Shares := by
  have ids := server.workerIDs_nodup
  cases coordinatorStep_cases phase step with
  | goto pc globalState goes =>
    intro _
    have dealt := shares goes.before.2
    rw [← goes.undealt] at dealt
    exact dealt
  | signal pc id state goes undeployed =>
    intro _
    have dealt := shares goes.before.2
    rw [← goes.undealt] at dealt
    refine dealt.trans (.append_left _ (.append_right _ (.of_eq ?_)))
    exact Eq.symm (toExecute_update rfl rfl rfl)
  | make pc =>
    intro _
    have dealt : server.current.Perm (server.invoked ++ server.toExecute) := by
      simpa [pc, CoordinatorPc.undealt] using shares (by simp [pc])
    show (server.current ++ transactionList).Perm (server.invoked ++ (server.toExecute ++ transactionList))
    rw [← List.append_assoc]
    exact dealt.append_right transactionList
  | create workload pc =>
    intro _
    have dealt := shares (by simp [pc])
    rw [pc, CoordinatorPc.undealt] at dealt
    have same : toExecute (((server.createWorker workload).setPc (.syncAssigned server.IDNounce)).record
        (.reached workload server.IDNounce .deployed)) = _ := phase.toExecute_create workload
    rw [same, List.append_assoc]
    simpa [record, setPc, createWorker, setWorker, CoordinatorPc.undealt, invoked] using dealt
  | assign workload id rest pc listed idle =>
    intro _
    have dealt := shares (by simp [pc])
    rw [pc, CoordinatorPc.undealt] at dealt
    have none := (WorkerInstance.In.left_idle (.inl idle)).1
    refine dealt.trans (List.Perm.append_left _ ?_)
    refine List.perm_append_comm.trans ?_
    rw [CoordinatorPc.undealt_none (by simp [record, setPc]), List.append_nil]
    refine (shares_perm ids listed ?_ fun other different => ?_).symm
    · rw [none, List.append_nil]
      simp [record, setPc, setWorker, WorkerInstance.toExecute, idle.1]
    · simp [record, setPc, setWorker, different]
  | finish pc => exact fun here => absurd rfl here
  | increment pc =>
    intro _
    show server.current.Perm ([] ++ (server.toExecute ++ []))
    rw [executions.announced pc, phase.toExecute_idle pc]
    exact .refl []

theorem Shares.worker [DecidableEq Slot] (shares : server.Shares) (phase : server.Phase) {id : Nat}
    (member : id ∈ server.workerIDs) (step : server.workerStep slotOf chaincode id = some next) : next.Shares := by
  have ids := server.workerIDs_nodup
  obtain ⟨worker, stage, shared, executed, move, rfl⟩ := workerStep_cases step
  obtain ⟨mode, -, before⟩ := phase.mode id member
  intro running
  have dealt := shares running
  cases move with
  | advance advanced =>
    obtain ⟨left, -⟩ := WorkerInstance.advance_left before advanced
    refine dealt.trans (.append_left _ (.append_right _ (.of_eq ?_)))
    exact Eq.symm (toExecute_update rfl rfl left)
  | @execute r rest pc =>
    refine dealt.trans ?_
    have moved : server.toExecute.Perm ([r] ++ server.workerIDs.flatMap fun other =>
        (Function.update server.workers id { server.workers id with pc := .executing rest } other).toExecute) := by
      refine shares_perm ids member ?_ fun other different => ?_
      · simp [WorkerInstance.toExecute, pc]
      · simp [different]
    refine ((moved.append_right _).append_left _).trans ?_
    simp [invoked, execution, toExecute, workerIDs]
  | @commit r rest _ pc =>
    have left : WorkerInstance.toExecute { server.workers id with pc := .committing rest } =
        (server.workers id).toExecute := by simp [WorkerInstance.toExecute, pc]
    refine dealt.trans (.append_left _ (.append_right _ (.of_eq ?_)))
    exact Eq.symm (toExecute_update rfl rfl left)

theorem Shares.unexecuted (shares : server.Shares) (phase : server.Phase) (distinct : server.current.Nodup)
    {id : Nat} (member : id ∈ server.workerIDs) {r : Ref} {rest : List Ref}
    (pc : (server.workers id).pc = .executing (r :: rest)) :
    r ∈ server.current ∧ r ∉ server.invoked := by
  have mine : r ∈ server.toExecute := by
    refine List.mem_flatMap.mpr ⟨id, member, ?_⟩
    rw [WorkerInstance.toExecute, pc]
    exact .head _
  have running : server.pc ≠ .increment := by
    intro here
    rw [phase.toExecute_idle here] at mine
    cases mine
  have dealt := shares running
  have apart := List.nodup_append.mp (dealt.nodup_iff.mp distinct)
  exact ⟨dealt.mem_iff.mpr (List.mem_append_right _ (List.mem_append_left _ mine)), fun old =>
    apart.2.2 r old r (List.mem_append_left _ mine) rfl⟩

end Server

end Blockchain
