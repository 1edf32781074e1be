import Mathlib.Data.List.Perm.Basic
import Mathlib.Data.List.Nodup
import MyBlockchain.Transaction.TransactionManagerImpl

namespace Blockchain

namespace TransactionManagerImpl

/-- Every transaction the comm module has handed out is in one place: a block, the queue of the next block,
what is left of the current list, the next list. What is not yet sent there will be. -/
structure Lists (manager : TransactionManagerImpl) (toEpoch : Nat → Nat) (heap : Heap) : Prop where
  wrapper : manager.nextEpochTrWrapper.epoch = toEpoch (manager.epoch + 1)
  retries : ∀ rest trWrapper, (manager.pc = .finishing rest trWrapper ∨
    ∃ full, manager.pc = .sendFull full rest trWrapper) → trWrapper.epoch = toEpoch (manager.epoch + 1)
  current : ∀ r ∈ manager.unfinished, (heap r).epoch = manager.epoch
  next : ∀ r ∈ manager.nextEpochTrWrapper.transactionList, (heap r).epoch = manager.epoch + 1
  nodup : manager.received.Nodup
  places : (manager.blocked ++ manager.storage.transactionQueue ++ manager.unfinished ++
    manager.nextEpochTrWrapper.transactionList).Perm manager.received
  sendingCurrent : ∀ trWrapper, manager.pc = .sendCurrent trWrapper →
    ∀ r ∈ trWrapper.transactionList, r ∈ manager.unfinished
  sendingNext : (∀ trWrapper, manager.pc ≠ .sendCurrent trWrapper) →
    ∀ r ∈ manager.unsent, r ∈ manager.nextEpochTrWrapper.transactionList
  once : manager.unsent.Nodup
  fresh : ∀ r ∈ manager.unsent, (r, (heap r).epoch) ∉ manager.sendings
  sent : ∀ sending ∈ manager.sendings, sending.1 ∈ manager.received ∧ sending.2 ≤ (heap sending.1).epoch
  distinct : manager.sendings.Nodup
  complete : ∀ r, r ∈ manager.unfinished ∨ r ∈ manager.nextEpochTrWrapper.transactionList →
    r ∈ manager.unsent ∨ (r, (heap r).epoch) ∈ manager.sendings
  decided : manager.finishing = true → ∀ r ∈ manager.unfinished, (heap r).transactionResult ≠ .PENDING

variable {toEpoch : Nat → Nat} {crypto : BlockCrypto} {proto : TransactionProto}
  {manager next : TransactionManagerImpl} {heap after : Heap}

theorem new_lists (toEpoch : Nat → Nat) (blockNum : Nat) (files : Nat → Option Block) (heap : Heap) :
    (new toEpoch blockNum files).Lists toEpoch heap := by
  constructor <;> simp [new, unfinished, unsent, sendings, blocked, finishing, TransactionWrapper.new]

theorem Lists.mem_received (lists : manager.Lists toEpoch heap) {r : Ref}
    (member : r ∈ manager.unfinished ∨ r ∈ manager.nextEpochTrWrapper.transactionList) : r ∈ manager.received := by
  rw [← lists.places.mem_iff]
  simp only [List.mem_append]
  rcases member with member | member
  · exact .inl (.inr member)
  · exact .inr member

theorem Lists.unsent_mem (lists : manager.Lists toEpoch heap) {r : Ref} (member : r ∈ manager.unsent) :
    r ∈ manager.unfinished ∨ r ∈ manager.nextEpochTrWrapper.transactionList := by
  by_cases sending : ∃ trWrapper, manager.pc = .sendCurrent trWrapper
  · obtain ⟨trWrapper, pc⟩ := sending
    rw [unsent, pc] at member
    exact .inl (lists.sendingCurrent trWrapper pc r member)
  · exact .inr (lists.sendingNext (fun trWrapper pc => sending ⟨trWrapper, pc⟩) r member)

theorem Lists.world (lists : manager.Lists toEpoch heap) (epoch : ∀ r ∈ manager.received, (after r).epoch = (heap r).epoch)
    (decided : manager.finishing = true → ∀ r ∈ manager.unfinished, (heap r).transactionResult ≠ .PENDING →
      (after r).transactionResult ≠ .PENDING) : manager.Lists toEpoch after := by
  have received : ∀ r, r ∈ manager.unfinished ∨ r ∈ manager.nextEpochTrWrapper.transactionList →
      (after r).epoch = (heap r).epoch := fun r member => epoch r (lists.mem_received member)
  refine { lists with
    current := ?current, next := ?next, fresh := ?fresh, sent := ?sent, complete := ?complete
    decided := ?decided }
  case current =>
    intro r member
    rw [received r (.inl member)]
    exact lists.current r member
  case next =>
    intro r member
    rw [received r (.inr member)]
    exact lists.next r member
  case fresh =>
    intro r member
    rw [received r (lists.unsent_mem member)]
    exact lists.fresh r member
  case sent =>
    intro sending member
    obtain ⟨known, before⟩ := lists.sent sending member
    exact ⟨known, by rw [epoch _ known]; exact before⟩
  case complete =>
    intro r member
    rw [received r member]
    exact lists.complete r member
  case decided =>
    exact fun finishing r member => decided finishing r member (lists.decided finishing r member)

theorem Lists.signal (lists : manager.Lists toEpoch heap) (lastEpochFinishSignal : Nat) :
    Lists { manager with lastEpochFinishSignal } toEpoch heap :=
  { lists with }

theorem Goes.same {pc : ManagerPc} (goes : manager.Goes pc) :
    (manager.setPc pc).unfinished = manager.unfinished ∧ (manager.setPc pc).unsent = manager.unsent ∧
    (manager.setPc pc).finishing = false := by
  cases goes with
  | exhausted pc | nothing pc | again pc => simp [unfinished, unsent, finishing, setPc, pc]

theorem Lists.goto (lists : manager.Lists toEpoch heap) {pc : ManagerPc} (goes : manager.Goes pc) :
    (manager.setPc pc).Lists toEpoch heap := by
  obtain ⟨unfinished, unsent, finishing⟩ := goes.same
  have waiting : ∀ trWrapper, manager.pc ≠ .sendCurrent trWrapper := by
    intro trWrapper same
    cases goes with
    | exhausted pc | nothing pc | again pc => rw [pc] at same; cases same
  refine { lists with
    retries := ?retries, current := ?current, places := ?places, sendingCurrent := ?sendingCurrent
    sendingNext := ?sendingNext, once := ?once, fresh := ?fresh, complete := ?complete
    decided := ?decided }
  case retries =>
    rintro rest trWrapper (same | ⟨full, same⟩) <;> cases goes <;> cases same
  case current =>
    rw [unfinished]
    exact lists.current
  case places =>
    rw [unfinished]
    exact lists.places
  case sendingCurrent =>
    intro trWrapper same
    cases goes <;> cases same
  case sendingNext =>
    rw [unsent]
    exact fun _ => lists.sendingNext waiting
  case once =>
    rw [unsent]
    exact lists.once
  case fresh =>
    rw [unsent]
    exact lists.fresh
  case complete =>
    rw [unfinished, unsent]
    exact lists.complete
  case decided =>
    rw [finishing]
    simp

theorem Lists.receiveCurrent (lists : manager.Lists toEpoch heap) {batch : List Ref} (pc : manager.pc = .getCurrent)
    (offers : manager.Offers heap manager.epoch batch) : (manager.receiveCurrent batch).Lists toEpoch heap := by
  obtain ⟨nodup, new⟩ := offers
  have unfinished : (manager.receiveCurrent batch).unfinished = manager.unfinished ++ batch := by
    simp [TransactionManagerImpl.unfinished, pc, TransactionManagerImpl.receiveCurrent,
      TransactionWrapper.pushTransactionUncheck, TransactionWrapper.setEpoch]
  have unsent : (manager.receiveCurrent batch).unsent = batch := rfl
  have idle : manager.unsent = [] := by rw [TransactionManagerImpl.unsent, pc]
  refine { lists with
    retries := ?retries, current := ?current, nodup := ?nodup, places := ?places
    sendingCurrent := ?sendingCurrent, sendingNext := ?sendingNext
    once := nodup, fresh := ?fresh, sent := ?sent, complete := ?complete, decided := ?decided }
  case retries =>
    rintro rest trWrapper (same | ⟨full, same⟩) <;> cases same
  case current =>
    intro r member
    rw [unfinished] at member
    exact (List.mem_append.mp member).elim (lists.current r) fun inBatch => (new r inBatch).2
  case nodup =>
    refine List.nodup_append.mpr ⟨lists.nodup, nodup, fun r old s inBatch same => ?_⟩
    rw [same] at old
    exact (new s inBatch).1 old
  case places =>
    rw [unfinished]
    have moved : (manager.blocked ++ manager.storage.transactionQueue ++ (manager.unfinished ++ batch) ++
        manager.nextEpochTrWrapper.transactionList).Perm
        (manager.blocked ++ manager.storage.transactionQueue ++ manager.unfinished ++
          manager.nextEpochTrWrapper.transactionList ++ batch) := by
      simp only [List.append_assoc]
      exact (((List.perm_append_comm).append_left _).append_left _).append_left _
    exact moved.trans (lists.places.append_right batch)
  case sendingCurrent =>
    intro trWrapper same r member
    cases same
    rw [unfinished]
    exact List.mem_append_right _ member
  case sendingNext =>
    exact fun waiting => absurd rfl (waiting _)
  case fresh =>
    intro r member sent
    exact (new r member).1 (lists.sent _ sent).1
  case sent =>
    intro sending member
    obtain ⟨known, before⟩ := lists.sent sending member
    exact ⟨List.mem_append_left _ known, before⟩
  case complete =>
    intro r member
    rw [unfinished, List.mem_append, or_right_comm] at member
    rcases member with old | inBatch
    · have placed := lists.complete r old
      rw [idle] at placed
      exact .inr (placed.resolve_left List.not_mem_nil)
    · exact .inl inBatch
  case decided =>
    exact fun finishing => by cases finishing

theorem Lists.receiveNext (lists : manager.Lists toEpoch heap) {batch : List Ref} (pc : manager.pc = .getNext)
    (small : toEpoch (manager.epoch + 1) = manager.epoch + 1)
    (offers : manager.Offers heap (toEpoch (manager.epoch + 1)) batch) :
    (manager.receiveNext toEpoch batch).Lists toEpoch heap := by
  rw [small] at offers
  obtain ⟨nodup, new⟩ := offers
  have unfinished : (manager.receiveNext toEpoch batch).unfinished = manager.unfinished := by
    simp [TransactionManagerImpl.unfinished, pc, TransactionManagerImpl.receiveNext]
  have unsent : (manager.receiveNext toEpoch batch).unsent = batch := rfl
  have idle : manager.unsent = [] := by rw [TransactionManagerImpl.unsent, pc]
  refine { lists with
    retries := ?retries, current := ?current, next := ?next, nodup := ?nodup, places := ?places
    sendingCurrent := ?sendingCurrent, sendingNext := ?sendingNext, once := nodup, fresh := ?fresh
    sent := ?sent, complete := ?complete, decided := ?decided }
  case retries =>
    rintro rest trWrapper (same | ⟨full, same⟩) <;> cases same
  case current =>
    rw [unfinished]
    exact lists.current
  case next =>
    intro r member
    exact (List.mem_append.mp member).elim (lists.next r) fun inBatch => (new r inBatch).2
  case nodup =>
    refine List.nodup_append.mpr ⟨lists.nodup, nodup, fun r old s inBatch same => ?_⟩
    rw [same] at old
    exact (new s inBatch).1 old
  case places =>
    rw [unfinished]
    show (_ ++ (manager.nextEpochTrWrapper.transactionList ++ batch)).Perm (manager.received ++ batch)
    rw [← List.append_assoc]
    exact lists.places.append_right batch
  case sendingCurrent =>
    exact fun trWrapper same => by cases same
  case sendingNext =>
    exact fun _ r member => List.mem_append_right _ member
  case fresh =>
    intro r member sent
    exact (new r member).1 (lists.sent _ sent).1
  case sent =>
    intro sending member
    obtain ⟨known, before⟩ := lists.sent sending member
    exact ⟨List.mem_append_left _ known, before⟩
  case complete =>
    intro r member
    rw [unfinished] at member
    have known : (r ∈ manager.unfinished ∨ r ∈ manager.nextEpochTrWrapper.transactionList) ∨ r ∈ batch := by
      rcases member with member | member
      · exact .inl (.inl member)
      · exact (List.mem_append.mp member).imp .inr fun inBatch => inBatch
    rcases known with old | inBatch
    · have placed := lists.complete r old
      rw [idle] at placed
      exact .inr (placed.resolve_left List.not_mem_nil)
    · exact .inl inBatch
  case decided =>
    exact fun finishing => by cases finishing

theorem Lists.finishEpoch (lists : manager.Lists toEpoch heap) (pc : manager.pc = .check)
    (decided : ∀ r ∈ manager.currentEpochTrWrapper.transactionList, (heap r).transactionResult ≠ .PENDING) :
    (manager.finishEpoch toEpoch heap).Lists toEpoch heap := by
  have unfinished : (manager.finishEpoch toEpoch heap).unfinished = manager.unfinished := by
    simp [TransactionManagerImpl.unfinished, pc, TransactionManagerImpl.finishEpoch]
  have unsent : (manager.finishEpoch toEpoch heap).unsent = manager.unsent := by
    simp [TransactionManagerImpl.unsent, pc, TransactionManagerImpl.finishEpoch, TransactionWrapper.new]
  refine { lists with
    retries := ?_, current := ?_, places := ?_, sendingCurrent := ?_, sendingNext := ?_, once := ?_
    fresh := ?_, complete := ?_, decided := fun _ => decided }
  · rintro rest trWrapper (same | ⟨full, same⟩) <;> cases same
    rfl
  · rw [unfinished]
    exact lists.current
  · rw [unfinished]
    exact lists.places
  · exact fun trWrapper same => by cases same
  · rw [unsent]
    exact fun _ => lists.sendingNext (by simp [pc])
  · rw [unsent]
    exact lists.once
  · rw [unsent]
    exact lists.fresh
  · rw [unfinished, unsent]
    exact lists.complete

theorem Sends.same (heap : Heap) {trWrapper : TransactionWrapper} {pc : ManagerPc}
    (sends : manager.Sends trWrapper pc) :
    (manager.send heap trWrapper pc).1.unfinished = manager.unfinished ∧
    manager.unsent = trWrapper.transactionList ++ (manager.send heap trWrapper pc).1.unsent ∧
    (manager.send heap trWrapper pc).1.finishing = manager.finishing := by
  cases sends with
  | current pc | next pc | full pc | rest pc => simp [unfinished, unsent, finishing, TransactionManagerImpl.send, pc]

theorem send_sendings (trWrapper : TransactionWrapper) (pc : ManagerPc) :
    (manager.send heap trWrapper pc).1.sendings =
      manager.sendings ++ trWrapper.transactionList.map fun r => (r, (heap r).epoch) := by
  simp [sendings, TransactionManagerImpl.send]

theorem Lists.send (lists : manager.Lists toEpoch heap) {trWrapper : TransactionWrapper} {pc : ManagerPc}
    (sends : manager.Sends trWrapper pc) : (manager.send heap trWrapper pc).1.Lists toEpoch heap := by
  obtain ⟨unfinished, unsent, finishing⟩ := sends.same heap
  have once := lists.once
  rw [unsent] at once
  obtain ⟨mine, later, apart⟩ := List.nodup_append.mp once
  have listed : ∀ r ∈ trWrapper.transactionList, r ∈ manager.unsent := fun r member => by
    rw [unsent]
    exact List.mem_append_left _ member
  have left : ∀ r ∈ (manager.send heap trWrapper pc).1.unsent, r ∈ manager.unsent := fun r member => by
    rw [unsent]
    exact List.mem_append_right _ member
  refine { lists with
    retries := ?retries, current := ?current, places := ?places, sendingCurrent := ?sendingCurrent
    sendingNext := ?sendingNext, once := later
    fresh := ?fresh, sent := ?sent, distinct := ?distinct, complete := ?complete, decided := ?decided }
  case retries =>
    intro rest trWrapper same
    cases sends with
    | current | next | rest => rcases same with same | ⟨full, same⟩ <;> cases same
    | full pc =>
      rcases same with same | ⟨full, same⟩
      · cases same
        exact lists.retries _ _ (.inr ⟨_, pc⟩)
      · cases same
  case current =>
    rw [unfinished]
    exact lists.current
  case places =>
    rw [unfinished]
    exact lists.places
  case sendingCurrent =>
    intro _ same
    cases sends <;> cases same
  case sendingNext =>
    intro _ r member
    cases sends with
    | current => cases member
    | next here | full here | rest here => exact lists.sendingNext (by simp [here]) r (left r member)
  case fresh =>
    intro r member
    rw [send_sendings, List.mem_append, not_or]
    refine ⟨lists.fresh r (left r member), fun now => ?_⟩
    obtain ⟨s, inWrapper, same⟩ := List.mem_map.mp now
    exact apart s inWrapper r member (congrArg Prod.fst same)
  case sent =>
    intro sending member
    rw [send_sendings] at member
    rcases List.mem_append.mp member with old | now
    · exact lists.sent sending old
    · obtain ⟨r, inWrapper, rfl⟩ := List.mem_map.mp now
      exact ⟨lists.mem_received (lists.unsent_mem (listed r inWrapper)), Nat.le_refl _⟩
  case distinct =>
    rw [send_sendings]
    refine List.nodup_append.mpr ⟨lists.distinct, mine.map fun r s same => congrArg Prod.fst same, ?_⟩
    intro sending old other now same
    obtain ⟨r, inWrapper, rfl⟩ := List.mem_map.mp now
    rw [same] at old
    exact lists.fresh r (listed r inWrapper) old
  case complete =>
    intro r member
    rw [unfinished] at member
    rw [send_sendings]
    rcases lists.complete r member with waiting | placed
    · rw [unsent] at waiting
      rcases List.mem_append.mp waiting with now | later
      · exact .inr (List.mem_append_right _ (List.mem_map_of_mem now))
      · exact .inl later
    · exact .inr (List.mem_append_left _ placed)
  case decided =>
    rw [finishing, unfinished]
    exact lists.decided

theorem finishTransaction_recorded {tr : Ref} (rest : List Ref) (trWrapper : TransactionWrapper)
    (result : (heap tr).transactionResult = .COMMIT ∨ (heap tr).transactionResult = .ABORT_NO_RETRY) :
    manager.finishTransaction toEpoch heap tr rest trWrapper =
      ({ manager with
        storage.transactionQueue := manager.storage.transactionQueue ++ [tr]
        pc := .finishing rest trWrapper }, heap) := by
  rcases result with result | result <;>
    simp [TransactionManagerImpl.finishTransaction, FinishEpoch.finishTransaction, result]

theorem finishTransaction_retried (manager : TransactionManagerImpl) {tr : Ref} (rest : List Ref)
    {trWrapper : TransactionWrapper} (result : (heap tr).transactionResult = .ABORT)
    (wrapper : trWrapper.epoch = toEpoch (manager.epoch + 1))
    (next : manager.nextEpochTrWrapper.epoch = toEpoch (manager.epoch + 1)) :
    ∃ pc, manager.finishTransaction toEpoch heap tr rest trWrapper =
        ({ manager with
          nextEpochTrWrapper :=
            { manager.nextEpochTrWrapper with
              transactionList := manager.nextEpochTrWrapper.transactionList ++ [tr] }
          pc }, Function.update heap tr (FinishEpoch.retry (toEpoch (manager.epoch + 1)) (heap tr))) ∧
      (pc = .sendFull { trWrapper with transactionList := trWrapper.transactionList ++ [tr] } rest
          (.new (toEpoch (manager.epoch + 1))) ∨
        pc = .finishing rest { trWrapper with transactionList := trWrapper.transactionList ++ [tr] }) := by
  have epoch : (Function.update heap tr (FinishEpoch.retry (toEpoch (manager.epoch + 1)) (heap tr)) tr).epoch =
      toEpoch (manager.epoch + 1) := by
    rw [Function.update_self]
    rfl
  unfold TransactionManagerImpl.finishTransaction FinishEpoch.finishTransaction
  simp only [result]
  rw [TransactionWrapper.pushTransaction_of_epoch (epoch.trans wrapper.symm),
    TransactionWrapper.pushTransaction_of_epoch (epoch.trans next.symm)]
  dsimp only
  split
  · exact ⟨_, rfl, .inl rfl⟩
  · exact ⟨_, rfl, .inr rfl⟩

theorem Lists.recorded (lists : manager.Lists toEpoch heap) {tr : Ref} {rest : List Ref} {trWrapper : TransactionWrapper}
    (pc : manager.pc = .finishing (tr :: rest) trWrapper) :
    Lists { manager with
      storage.transactionQueue := manager.storage.transactionQueue ++ [tr]
      pc := .finishing rest trWrapper } toEpoch heap := by
  have unfinished : manager.unfinished = tr :: rest := by rw [TransactionManagerImpl.unfinished, pc]
  have unsent : manager.unsent = trWrapper.transactionList := by rw [TransactionManagerImpl.unsent, pc]
  have decided := lists.decided (by rw [TransactionManagerImpl.finishing, pc])
  have sendingNext := lists.sendingNext (by simp [pc])
  obtain ⟨current, complete, places⟩ := And.intro lists.current (And.intro lists.complete lists.places)
  obtain ⟨once, fresh⟩ := And.intro lists.once lists.fresh
  rw [unfinished] at decided current complete places
  rw [unsent] at once fresh complete sendingNext
  refine { lists with
    retries := ?_, current := fun r member => current r (.tail _ member), places := ?_
    sendingCurrent := fun _ same => (by cases same), sendingNext := fun _ => sendingNext, once := once
    fresh := fresh, complete := ?_, decided := fun _ r member => decided r (.tail _ member) }
  · rintro rest trWrapper (same | ⟨full, same⟩)
    · cases same
      exact lists.retries _ _ (.inl pc)
    · cases same
  · simpa [TransactionManagerImpl.unfinished, blocked] using places
  · exact fun r member => complete r (member.imp_left fun inRest => .tail _ inRest)

theorem Lists.apart (lists : manager.Lists toEpoch heap) {tr : Ref} {rest : List Ref}
    (unfinished : manager.unfinished = tr :: rest) :
    tr ∉ rest ∧ tr ∉ manager.storage.transactionQueue ∧ tr ∉ manager.nextEpochTrWrapper.transactionList := by
  have nodup := lists.places.nodup_iff.mpr lists.nodup
  rw [unfinished, List.append_assoc] at nodup
  obtain ⟨-, right, before⟩ := List.nodup_append.mp nodup
  obtain ⟨notRest, -⟩ := List.nodup_cons.mp right
  refine ⟨fun member => notRest (List.mem_append_left _ member), fun member => ?_, fun member =>
    notRest (List.mem_append_right _ member)⟩
  exact before tr (List.mem_append_right _ member) tr (.head _) rfl

theorem Lists.retried (lists : manager.Lists toEpoch heap) (small : toEpoch (manager.epoch + 1) = manager.epoch + 1) {tr : Ref} {rest : List Ref} {trWrapper : TransactionWrapper}
    (pc : manager.pc = .finishing (tr :: rest) trWrapper) {next : ManagerPc}
    (shape : next = .sendFull { trWrapper with transactionList := trWrapper.transactionList ++ [tr] } rest
        (.new (toEpoch (manager.epoch + 1))) ∨
      next = .finishing rest { trWrapper with transactionList := trWrapper.transactionList ++ [tr] }) :
    Lists { manager with
      nextEpochTrWrapper :=
        { manager.nextEpochTrWrapper with
          transactionList := manager.nextEpochTrWrapper.transactionList ++ [tr] }
      pc := next } toEpoch (Function.update heap tr (FinishEpoch.retry (toEpoch (manager.epoch + 1)) (heap tr))) := by
  have unfinished : manager.unfinished = tr :: rest := by rw [TransactionManagerImpl.unfinished, pc]
  have unsent : manager.unsent = trWrapper.transactionList := by rw [TransactionManagerImpl.unsent, pc]
  have decided := lists.decided (by rw [TransactionManagerImpl.finishing, pc])
  have sendingNext := lists.sendingNext (by simp [pc])
  obtain ⟨current, complete, places⟩ := And.intro lists.current (And.intro lists.complete lists.places)
  obtain ⟨once, fresh⟩ := And.intro lists.once lists.fresh
  rw [unfinished] at decided current complete places
  rw [unsent] at once fresh complete sendingNext
  have mine : (heap tr).epoch = manager.epoch := current tr (.head _)
  obtain ⟨notRest, -, notNext⟩ := lists.apart unfinished
  have other : ∀ {r}, r ≠ tr →
      Function.update heap tr (FinishEpoch.retry (toEpoch (manager.epoch + 1)) (heap tr)) r = heap r := fun different =>
    Function.update_of_ne different ..
  have retried : (Function.update heap tr (FinishEpoch.retry (toEpoch (manager.epoch + 1)) (heap tr)) tr).epoch =
      manager.epoch + 1 := by
    rw [Function.update_self]
    exact small
  let after : TransactionManagerImpl :=
    { manager with
      nextEpochTrWrapper :=
        { manager.nextEpochTrWrapper with
          transactionList := manager.nextEpochTrWrapper.transactionList ++ [tr] }
      pc := next }
  have unfinishedAfter : after.unfinished = rest := by rcases shape with rfl | rfl <;> rfl
  have unsentAfter : after.unsent = trWrapper.transactionList ++ [tr] := by
    rcases shape with rfl | rfl
    · exact List.append_nil _
    · rfl
  refine { lists with
    retries := ?retries, current := ?current, next := ?next, places := ?places
    sendingCurrent := ?sendingCurrent, sendingNext := ?sendingNext
    once := ?once, fresh := ?fresh, sent := ?sent, complete := ?complete, decided := ?decided }
  case retries =>
    intro left wrapper same
    rcases shape with rfl | rfl
    · rcases same with same | ⟨full, same⟩ <;> cases same
      rfl
    · rcases same with same | ⟨full, same⟩ <;> cases same
      exact lists.retries (tr :: rest) trWrapper (.inl pc)
  case current =>
    intro r member
    rw [unfinishedAfter] at member
    rw [other (by rintro rfl; exact notRest member)]
    exact current r (.tail _ member)
  case next =>
    intro r member
    rcases List.mem_append.mp member with old | new
    · rw [other (by rintro rfl; exact notNext old)]
      exact lists.next r old
    · rw [List.mem_singleton.mp new]
      exact retried
  case places =>
    rw [unfinishedAfter]
    refine List.Perm.trans ?_ places
    show (manager.blocked ++ manager.storage.transactionQueue ++ rest ++ (_ ++ [tr])).Perm _
    rw [List.append_assoc _ rest, List.append_assoc _ (tr :: rest)]
    refine List.Perm.append_left _ ?_
    rw [← List.append_assoc]
    exact List.perm_append_singleton tr _
  case sendingCurrent =>
    intro wrapper same
    rcases shape with rfl | rfl <;> cases same
  case sendingNext =>
    intro _ r member
    rw [unsentAfter] at member
    rcases List.mem_append.mp member with old | new
    · exact List.mem_append_left _ (sendingNext r old)
    · exact List.mem_append_right _ new
  case once =>
    rw [unsentAfter]
    refine List.nodup_append.mpr ⟨once, List.nodup_singleton tr, fun r old s new same => ?_⟩
    rw [same, List.mem_singleton.mp new] at old
    exact notNext (sendingNext tr old)
  case fresh =>
    intro r member
    rw [unsentAfter] at member
    rcases List.mem_append.mp member with old | new
    · rw [other (by rintro rfl; exact notNext (sendingNext r old))]
      exact fresh r old
    · rw [List.mem_singleton.mp new, retried]
      intro before
      have late := (lists.sent _ before).2
      simp only [mine] at late
      omega
  case sent =>
    intro sending member
    obtain ⟨known, before⟩ := lists.sent sending member
    refine ⟨known, ?_⟩
    by_cases same : sending.1 = tr
    · rw [same, mine] at before
      rw [same, retried]
      omega
    · rw [other same]
      exact before
  case complete =>
    intro r member
    rw [unfinishedAfter] at member
    rw [unsentAfter, List.mem_append]
    by_cases same : r = tr
    · subst same
      exact .inl (.inr (.head _))
    · rw [other same]
      have old : r ∈ tr :: rest ∨ r ∈ manager.nextEpochTrWrapper.transactionList := by
        refine member.imp (fun inRest => .tail _ inRest) fun inNext => ?_
        exact (List.mem_append.mp inNext).resolve_right fun new => same (List.mem_singleton.mp new)
      exact (complete r old).imp_left .inl
  case decided =>
    intro _ r member
    rw [unfinishedAfter] at member
    rw [other (by rintro rfl; exact notRest member)]
    exact decided r (.tail _ member)

theorem Lists.finishTransaction (lists : manager.Lists toEpoch heap)
    (small : toEpoch (manager.epoch + 1) = manager.epoch + 1) {tr : Ref} {rest : List Ref}
    {trWrapper : TransactionWrapper} (pc : manager.pc = .finishing (tr :: rest) trWrapper) :
    (manager.finishTransaction toEpoch heap tr rest trWrapper).1.Lists toEpoch
      (manager.finishTransaction toEpoch heap tr rest trWrapper).2 := by
  have decided : (heap tr).transactionResult ≠ .PENDING :=
    lists.decided (by rw [finishing, pc]) tr (by rw [unfinished, pc]; exact .head _)
  cases result : (heap tr).transactionResult with
  | PENDING => exact absurd result decided
  | COMMIT | ABORT_NO_RETRY =>
    rw [finishTransaction_recorded rest trWrapper (by simp [result])]
    exact lists.recorded pc
  | ABORT =>
    obtain ⟨next, same, shape⟩ := finishTransaction_retried manager rest result
      (lists.retries _ _ (.inl pc)) lists.wrapper
    rw [same]
    exact lists.retried small pc shape

theorem generateBlock_eq (generated : manager.generateBlock toEpoch crypto proto heap = some next) :
    ∃ block, block.header.number = manager.storage.blockNum + 1 ∧
      block.data = (BlockStorageToFile.popAll heap manager.storage.transactionQueue).map
        (fun r => ((heap r).serializeToString proto crypto.sha256).1) ∧
      next = { manager with
        epoch := toEpoch (manager.epoch + 1)
        currentEpochTrWrapper := manager.nextEpochTrWrapper
        nextEpochTrWrapper := .new (toEpoch (toEpoch (manager.epoch + 1) + 1))
        storage :=
          { transactionQueue := []
            blockNum := manager.storage.blockNum + 1
            files := Function.update manager.storage.files (manager.storage.blockNum + 1) (some block) }
        pc := .getCurrent
        finished := manager.finished ++ [{
          epoch := manager.epoch, results := manager.results, block
          transactions := (BlockStorageToFile.popAll heap manager.storage.transactionQueue).map
            fun r => (r, heap r) }] } := by
  obtain ⟨stored, storing, rfl⟩ := Option.map_eq_some_iff.mp generated
  obtain ⟨⟨storage, block⟩, made, rfl⟩ := Option.map_eq_some_iff.mp storing
  obtain ⟨number, data, rfl⟩ := BlockStorageToFile.generateBlock_spec made
  exact ⟨block, number, data, rfl⟩

theorem Lists.generateBlock (lists : manager.Lists toEpoch heap)
    (small : toEpoch (manager.epoch + 1) = manager.epoch + 1) (pc : manager.pc = .generate)
    (generated : manager.generateBlock toEpoch crypto proto heap = some next) : next.Lists toEpoch heap := by
  obtain ⟨block, -, -, rfl⟩ := generateBlock_eq generated
  have unfinished : manager.unfinished = [] := by rw [TransactionManagerImpl.unfinished, pc]
  have unsent : manager.unsent = [] := by rw [TransactionManagerImpl.unsent, pc]
  obtain ⟨complete, places⟩ := And.intro lists.complete lists.places
  rw [unfinished] at complete places
  rw [unsent] at complete
  refine { lists with
    wrapper := rfl, retries := ?_, current := ?_, next := fun r member => (by cases member), places := ?_
    sendingCurrent := fun _ same => (by cases same), sendingNext := fun _ r member => (by cases member)
    once := .nil, fresh := fun r member => (by cases member), complete := ?_, decided := fun here => by cases here }
  · rintro rest trWrapper (same | ⟨full, same⟩) <;> cases same
  · intro r member
    exact (lists.next r member).trans small.symm
  · refine List.Perm.trans ?_ places
    simp only [blocked, List.flatMap_append, List.flatMap_singleton, List.map_map, List.append_nil,
      TransactionWrapper.new, TransactionManagerImpl.unfinished, Function.comp_def, List.map_id']
    exact ((BlockStorageToFile.popAll_perm heap manager.storage.transactionQueue).append_left _).append_right _
  · intro r member
    refine .inr ((complete r (.inr ?_)).resolve_left List.not_mem_nil)
    exact member.resolve_right List.not_mem_nil

theorem Lists.step (lists : manager.Lists toEpoch heap) (small : toEpoch (manager.epoch + 1) = manager.epoch + 1) {answer : Option (List Ref)} {sent : Option TransactionWrapper}
    (decided : manager.pc = .check → manager.lastEpochFinishSignal = manager.epoch →
      ∀ r ∈ manager.currentEpochTrWrapper.transactionList, (heap r).transactionResult ≠ .PENDING)
    (step : manager.step toEpoch crypto proto heap answer = some (next, after, sent)) : next.Lists toEpoch after := by
  cases step_cases step with
  | goto goes => exact lists.goto goes
  | receiveCurrent pc _ offers => exact lists.receiveCurrent pc offers
  | receiveNext pc _ offers => exact lists.receiveNext pc small offers
  | finishEpoch pc signal => exact lists.finishEpoch pc (decided pc signal)
  | finishTransaction pc => exact lists.finishTransaction small pc
  | send sends => exact lists.send sends
  | generate pc generated => exact lists.generateBlock small pc generated

end TransactionManagerImpl

end Blockchain
