import MyBlockchain.Coordinator.HandOff

namespace Blockchain

namespace BlockServer

variable {Slot : Type} {system : BlockServer Slot}

/-- What manager and coordinator can rely on at any point of a run. -/
structure EpochHandOff (system : BlockServer Slot) : Prop where
  sorted : system.transactionBuffer.Pairwise fun r s => system.epochOf r ≤ system.epochOf s
  once : ∀ sending ∈ system.manager.sendings,
    system.placements.count sending + system.waiting.count sending = 1
  passed : ∀ sending ∈ system.manager.sendings, sending.2 < system.server.epochChan →
    system.placements.count sending = 1
  sent : ∀ placement ∈ system.placements, placement ∈ system.manager.sendings
  workloads : ∀ workload ∈ system.workloads, 1 ≤ workload.transactionList.length ∧
    workload.transactionList.length ≤ coordinatorMaxTransactionPerWorkload
  -- the workload the coordinator is about to make, where no DCHECK of `getWorkload` can fail
  making : ∀ transactionList rest, system.server.pc = .getWorkload →
    getWorkload system.server.shared.heap system.server.epochChan system.transactionBuffer =
      some (transactionList, rest) →
    (∀ r ∈ transactionList, system.epochOf r = system.server.epochChan) ∧
      ∃ next, system.coordinatorStep = some next ∧
        (transactionList ≠ [] → next.workloads =
          system.workloads ++ [⟨system.server.made, system.server.epochChan, transactionList⟩])
  signal : system.manager.lastEpochFinishSignal ≤ system.manager.epoch
  finished : system.manager.pc = .check → system.manager.lastEpochFinishSignal = system.manager.epoch →
    ∀ r ∈ system.manager.currentEpochTrWrapper.transactionList,
      system.epochOf r = system.manager.epoch ∧ system.placements.count (r, system.manager.epoch) = 1 ∧
        system.Done r

theorem HandOff.once (handOff : system.HandOff) {sending : Ref × Nat} (member : sending ∈ system.manager.sendings) :
    system.placements.count sending + system.waiting.count sending = 1 := by
  have all := handOff.placed.placed.count_eq sending
  rw [List.count_append] at all
  rw [← all]
  exact List.count_eq_one_of_mem handOff.lists.distinct member

theorem HandOff.passed (handOff : system.HandOff) {sending : Ref × Nat} (member : sending ∈ system.manager.sendings)
    (before : sending.2 < system.server.epochChan) : system.placements.count sending = 1 := by
  have once := handOff.once member
  have gone : sending ∉ system.waiting := by
    intro waits
    obtain ⟨r, inBuffer, rfl⟩ := List.mem_map.mp waits
    have lower := handOff.buffered.lower r inBuffer
    simp only at before
    omega
  rwa [List.count_eq_zero_of_not_mem gone] at once

theorem HandOff.sent (handOff : system.HandOff) {placement : Ref × Nat} (member : placement ∈ system.placements) :
    placement ∈ system.manager.sendings := by
  rw [handOff.placed.placed.mem_iff]
  exact List.mem_append_left _ member

theorem HandOff.making (handOff : system.HandOff) {transactionList rest : List Ref}
    (pc : system.server.pc = .getWorkload)
    (found : getWorkload system.server.shared.heap system.server.epochChan system.transactionBuffer =
      some (transactionList, rest)) :
    (∀ r ∈ transactionList, system.epochOf r = system.server.epochChan) ∧
      ∃ next, system.coordinatorStep = some next ∧
        (transactionList ≠ [] → next.workloads =
          system.workloads ++ [⟨system.server.made, system.server.epochChan, transactionList⟩]) := by
  obtain ⟨-, -, -, epochs⟩ := getWorkload_spec found handOff.buffered.sorted handOff.buffered.lower
  refine ⟨epochs, ?_⟩
  by_cases empty : transactionList = []
  · subst empty
    simp [coordinatorStep, pc, found, Server.coordinatorStep]
  · obtain ⟨server, stepped⟩ : ∃ server, system.server.coordinatorStep transactionList = some server := by
      simp only [Server.coordinatorStep, pc, empty, if_false]
      exact ⟨_, if_pos epochs⟩
    simp [coordinatorStep, pc, found, stepped, empty, Server.makeWorkload]

theorem HandOff.done_once (handOff : system.HandOff) {r : Ref} (done : system.Done r) :
    system.placements.count (r, system.manager.epoch) = 1 := by
  obtain ⟨-, workload, made, epoch, member, -⟩ := done
  have placed : (r, system.manager.epoch) ∈ system.placements := by
    refine List.mem_flatMap.mpr ⟨workload, made, ?_⟩
    rw [← epoch]
    exact List.mem_map_of_mem member
  have once := handOff.once (handOff.sent placed)
  have positive := List.count_pos_iff.mpr placed
  omega

theorem HandOff.epochHandOff (handOff : system.HandOff) : system.EpochHandOff where
  sorted := handOff.buffered.sorted
  once _ member := handOff.once member
  passed _ member before := handOff.passed member before
  sent _ member := handOff.sent member
  workloads workload made := by
    obtain ⟨nonempty, room, -⟩ := handOff.placed.workloads workload made
    exact ⟨List.length_pos_of_ne_nil nonempty, room⟩
  making _ _ pc found := handOff.making pc found
  signal := handOff.clock.signal
  finished pc signal r member := by
    have unfinished : r ∈ system.manager.unfinished := by
      rw [TransactionManagerImpl.unfinished, pc]
      exact member
    have done := handOff.placed.done signal r unfinished
    exact ⟨handOff.lists.current r unfinished, handOff.done_once done, done⟩

/-- A step of the manager is one of the manager with 32 bit epochs, until a transaction of their last epoch is handed
out: the epoch after the one it finishes has been handed out before. -/
theorem HandOff.step_uint32 (crypto : BlockCrypto) (proto : TransactionProto) (handOff : system.HandOff)
    {answer : Option (List Ref)} (latest : system.receivedEpoch ≤ system.received answer)
    (narrow : system.received answer + 1 < 2 ^ 32) :
    system.manager.step uint32 crypto proto system.server.shared.heap answer =
      system.manager.step id crypto proto system.server.shared.heap answer := by
  have next : system.manager.lastEpochFinishSignal = system.manager.epoch →
      uint32 (system.manager.epoch + 1) = system.manager.epoch + 1 ∧
      uint32 (system.manager.epoch + 1 + 1) = system.manager.epoch + 1 + 1 := by
    intro signal
    have opened := handOff.clock.opened signal
    exact ⟨Nat.mod_eq_of_lt (by omega), Nat.mod_eq_of_lt (by omega)⟩
  unfold TransactionManagerImpl.step
  cases pc : system.manager.pc with
  | getCurrent | sendCurrent _ | sendNext _ | sendFull _ _ _ => rfl
  | getNext =>
    cases answer with
    | none => rfl
    | some batch =>
      have offers : system.manager.Offers system.server.shared.heap (uint32 (system.manager.epoch + 1)) batch ↔
          system.manager.Offers system.server.shared.heap (id (system.manager.epoch + 1)) batch := by
        cases batch with
        | nil => simp [TransactionManagerImpl.Offers]
        | cons r rest =>
          have asked : system.received (some (r :: rest)) = system.manager.epoch + 1 := by
            simp [received, TransactionManagerImpl.requested, pc]
          rw [uint32, Nat.mod_eq_of_lt (by omega), id]
      dsimp only
      rw [if_congr offers rfl rfl]
      rfl
  | check =>
    dsimp only
    split
    · next signal =>
      rw [TransactionManagerImpl.finishEpoch, (next signal).1]
      rfl
    · rfl
  | finishing rest trWrapper =>
    have signal := handOff.clock.finishing (by rw [TransactionManagerImpl.finishing, pc])
    cases rest with
    | nil => rfl
    | cons tr rest =>
      dsimp only
      rw [TransactionManagerImpl.finishTransaction, (next signal).1]
      rfl
  | generate =>
    have signal := handOff.clock.finishing (by rw [TransactionManagerImpl.finishing, pc])
    obtain ⟨first, second⟩ := next signal
    dsimp only
    rw [TransactionManagerImpl.generateBlock, TransactionManagerImpl.generateBlock]
    cases storing : system.manager.storeBlock crypto proto system.server.shared.heap with
    | none => rfl
    | some stored =>
      obtain ⟨⟨storage, block⟩, -, rfl⟩ := Option.map_eq_some_iff.mp storing
      simp only [Option.map_some, TransactionManagerImpl.nextEpoch, first, second, id_eq]

end BlockServer

/-- Every run, however manager, coordinator and workers take turns, hands the epochs over in order. -/
theorem epoch_hand_off {Slot : Type} [DecidableEq Slot] (slotOf : SlotOf Slot) (chaincode : Chaincode)
    (crypto : BlockCrypto) (proto : TransactionProto) (heap : Heap) (db : Contents Slot) (blockNum : Nat)
    (files : Nat → Option Block) (moves : List BlockServerMove) (system : BlockServer Slot)
    (ran : (BlockServer.initial heap db blockNum files).run slotOf chaincode crypto proto moves = some system) :
    system.EpochHandOff :=
  ((BlockServer.initial_handOff heap db blockNum files).run ran).epochHandOff

section Retried

/-- Transactions 1 and 2 of epoch 1 increment one counter, and so do 3 of epoch 2 and 4 of epoch 3. -/
def fourIncrements : Heap := fun r =>
  { counterTransaction r (bytesOf "a") with epoch := if r = 3 then 2 else if r = 4 then 3 else 1 }

/-- Transaction 2 is aborted in epoch 1 and comes back in epoch 2, behind transaction 3. -/
def retriedOnce : List BlockServerMove :=
  let go := BlockServerMove.manager none
  let step := List.replicate 5 BlockServerMove.coordinator
  let work := List.replicate 5 (BlockServerMove.worker 1)
  let commit := work ++ step ++ work ++ [.coordinator, .coordinator, .coordinator]
  [.manager (some [1, 2]), go, go, .manager (some [3]), go, go, go,
    .coordinator, .coordinator, .coordinator, .coordinator, .worker 1, .coordinator] ++ step ++ commit ++
  [go, go, go, go, go, go, go, .manager (some [4]), go, go, go] ++ step ++ step ++ .coordinator :: commit ++ [go]

theorem epoch_hand_off_retried_once :
    ∃ system, (BlockServer.initial fourIncrements (fun _ => none) 0 fun _ => none).run tableSlotOf
        (ORMTestChaincode.InvokeChaincode counterInputs) counterCrypto counterProto retriedOnce = some system ∧
      system.manager.sendings = [(1, 1), (2, 1), (3, 2), (2, 2), (4, 3)] ∧
      system.workloads = [⟨0, 1, [2, 1]⟩, ⟨1, 2, [3, 2]⟩] ∧ system.EpochHandOff := by
  have shown : ((BlockServer.initial fourIncrements (fun _ => none) 0 fun _ => none).run tableSlotOf
      (ORMTestChaincode.InvokeChaincode counterInputs) counterCrypto counterProto retriedOnce).map
        (fun system => (system.manager.sendings, system.workloads)) =
      some ([(1, 1), (2, 1), (3, 2), (2, 2), (4, 3)], [⟨0, 1, [2, 1]⟩, ⟨1, 2, [3, 2]⟩]) := by
    decide +kernel
  obtain ⟨system, ran, same⟩ := Option.map_eq_some_iff.mp shown
  obtain ⟨sendings, workloads⟩ := Prod.mk.inj same
  exact ⟨system, ran, sendings, workloads, epoch_hand_off _ _ _ _ _ _ _ _ _ _ ran⟩

end Retried

end Blockchain
