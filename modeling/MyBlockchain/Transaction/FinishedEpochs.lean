import MyBlockchain.Transaction.ManagerLists

namespace Blockchain

open Varint

/-- The results with which a transaction goes into a block. -/
def TransactionResult.recorded : TransactionResult → Bool
  | .COMMIT | .ABORT_NO_RETRY => true
  | .PENDING | .ABORT => false

namespace TransactionManagerImpl

def Resent (manager : TransactionManagerImpl) (r : Ref) (epoch : Nat) : Prop :=
  ∃ object, (r, object) ∈ manager.sent ∧ object.epoch = epoch ∧ object.kvrwSet = .empty

/-- The block of a finished epoch, and what became of the transactions that are not in it. -/
structure Right (crypto : BlockCrypto) (proto : TransactionProto) (manager : TransactionManagerImpl)
    (finished : FinishedEpoch) : Prop where
  earlier : finished.epoch < manager.epoch
  number : finished.block.header.number = finished.epoch
  stored : manager.storage.files finished.epoch = some finished.block
  content : finished.block.data =
    finished.transactions.map fun t => (t.2.serializeToString proto crypto.sha256).1
  exactly : (finished.transactions.map Prod.fst).Perm
    ((finished.results.filter fun t => t.2.recorded).map Prod.fst)
  objects : ∀ t ∈ finished.transactions,
    t.2.epoch = finished.epoch ∧ (t.1, t.2.transactionResult) ∈ finished.results
  resent : ∀ r, (r, .ABORT) ∈ finished.results → manager.Resent r (finished.epoch + 1)

/-- How far the loop over the finished epoch has come. -/
structure Settled (manager : TransactionManagerImpl) (heap : Heap) (done : List (Ref × TransactionResult)) :
    Prop where
  results : manager.results = done ++ manager.unfinished.map fun r => (r, (heap r).transactionResult)
  queue : manager.storage.transactionQueue = (done.filter fun t => t.2.recorded).map Prod.fst
  objects : ∀ t ∈ done, t.2.recorded = true →
    (heap t.1).epoch = manager.epoch ∧ (heap t.1).transactionResult = t.2
  resent : ∀ r, (r, .ABORT) ∈ done →
    r ∈ manager.unsent ∧ (heap r).kvrwSet = .empty ∨ manager.Resent r (manager.epoch + 1)

structure Outcomes (toEpoch : Nat → Nat) (crypto : BlockCrypto) (proto : TransactionProto)
    (manager : TransactionManagerImpl) (heap : Heap) : Prop where
  number : manager.epoch = toEpoch (manager.storage.blockNum + 1)
  queue : manager.finishing = false → manager.storage.transactionQueue = []
  settled : manager.finishing = true → ∃ done, manager.Settled heap done
  finished : ∀ finished ∈ manager.finished, manager.Right crypto proto finished

variable {toEpoch : Nat → Nat} {crypto : BlockCrypto} {proto : TransactionProto}
  {manager next : TransactionManagerImpl} {heap after : Heap}

theorem new_outcomes (toEpoch : Nat → Nat) (blockNum : Nat) (files : Nat → Option Block) (heap : Heap) :
    (new toEpoch blockNum files).Outcomes toEpoch crypto proto heap := by
  constructor <;> simp [new, finishing]

theorem Settled.mem_queue {done : List (Ref × TransactionResult)} (settled : manager.Settled heap done)
    {t : Ref × TransactionResult} (member : t ∈ done) (recorded : t.2.recorded = true) :
    t.1 ∈ manager.storage.transactionQueue := by
  rw [settled.queue]
  exact List.mem_map_of_mem (List.mem_filter.mpr ⟨member, recorded⟩)

theorem Right.mono {finished : FinishedEpoch} (right : manager.Right crypto proto finished)
    (epoch : manager.epoch ≤ next.epoch) (files : next.storage.files finished.epoch =
      manager.storage.files finished.epoch) (sent : ∀ t ∈ manager.sent, t ∈ next.sent) :
    next.Right crypto proto finished :=
  { right with
    earlier := Nat.lt_of_lt_of_le right.earlier epoch
    stored := by rw [files]; exact right.stored
    resent := fun r aborted => by
      obtain ⟨object, member, rest⟩ := right.resent r aborted
      exact ⟨object, sent _ member, rest⟩ }

theorem Outcomes.world (outcomes : manager.Outcomes toEpoch crypto proto heap)
    (unsent : ∀ r ∈ manager.unsent, after r = heap r)
    (kept : manager.finishing = true → ∀ r, r ∈ manager.unfinished ∨ r ∈ manager.storage.transactionQueue →
      after r = heap r) : manager.Outcomes toEpoch crypto proto after := by
  refine { outcomes with settled := fun finishing => ?_ }
  obtain ⟨done, settled⟩ := outcomes.settled finishing
  refine ⟨done, ?_, settled.queue, fun t member recorded => ?_, fun r aborted => ?_⟩
  · rw [settled.results]
    refine congrArg (done ++ ·) (List.map_congr_left fun r member => ?_)
    rw [kept finishing r (.inl member)]
  · rw [kept finishing t.1 (.inr (settled.mem_queue member recorded))]
    exact settled.objects t member recorded
  · refine (settled.resent r aborted).imp_left fun resent => ⟨resent.1, ?_⟩
    obtain ⟨member, empty⟩ := resent
    rw [unsent r member]
    exact empty

theorem Outcomes.signal (outcomes : manager.Outcomes toEpoch crypto proto heap) (lastEpochFinishSignal : Nat) :
    Outcomes toEpoch crypto proto { manager with lastEpochFinishSignal } heap where
  number := outcomes.number
  queue := outcomes.queue
  settled finishing := by
    obtain ⟨done, settled⟩ := outcomes.settled finishing
    exact ⟨done, settled.results, settled.queue, settled.objects, settled.resent⟩
  finished f member := (outcomes.finished f member).mono (Nat.le_refl _) rfl fun _ h => h

theorem Outcomes.collecting (outcomes : manager.Outcomes toEpoch crypto proto heap) (idle : manager.finishing = false)
    (still : next.finishing = false) (epoch : next.epoch = manager.epoch) (storage : next.storage = manager.storage)
    (finished : next.finished = manager.finished) (sent : ∀ t ∈ manager.sent, t ∈ next.sent) :
    next.Outcomes toEpoch crypto proto heap where
  number := by rw [storage, epoch]; exact outcomes.number
  queue _ := by rw [storage]; exact outcomes.queue idle
  settled finishing := by rw [still] at finishing; cases finishing
  finished f member := by
    rw [finished] at member
    exact (outcomes.finished f member).mono (Nat.le_of_eq epoch.symm) (by rw [storage]) sent

theorem Outcomes.finishEpoch (outcomes : manager.Outcomes toEpoch crypto proto heap) (pc : manager.pc = .check) :
    (manager.finishEpoch toEpoch heap).Outcomes toEpoch crypto proto heap where
  number := outcomes.number
  queue finishing := by cases finishing
  settled _ := ⟨[], rfl, outcomes.queue (by rw [finishing, pc]), by simp, by simp⟩
  finished f member := (outcomes.finished f member).mono (Nat.le_refl _) rfl fun _ h => h

theorem Outcomes.send (outcomes : manager.Outcomes toEpoch crypto proto heap) (lists : manager.Lists toEpoch heap)
    {trWrapper : TransactionWrapper} {pc : ManagerPc} (sends : manager.Sends trWrapper pc) :
    (manager.send heap trWrapper pc).1.Outcomes toEpoch crypto proto heap := by
  obtain ⟨unfinished, unsent, finishing⟩ := sends.same heap
  have more : ∀ t ∈ manager.sent, t ∈ (manager.send heap trWrapper pc).1.sent := fun t member =>
    List.mem_append_left _ member
  refine ⟨outcomes.number, fun idle => outcomes.queue (by rwa [finishing] at idle), fun busy => ?_,
    fun f member => (outcomes.finished f member).mono (Nat.le_refl _) rfl more⟩
  rw [finishing] at busy
  obtain ⟨done, settled⟩ := outcomes.settled busy
  refine ⟨done, by rw [unfinished]; exact settled.results, settled.queue, settled.objects, fun r aborted => ?_⟩
  rcases settled.resent r aborted with ⟨waiting, empty⟩ | ⟨object, member, rest⟩
  · have epoch : (heap r).epoch = manager.epoch + 1 := by
      refine lists.next r (lists.sendingNext (fun _ same => ?_) r waiting)
      rw [TransactionManagerImpl.finishing, same] at busy
      cases busy
    rw [unsent] at waiting
    rcases List.mem_append.mp waiting with now | later
    · exact .inr ⟨heap r, List.mem_append_right _ (List.mem_map_of_mem now), epoch, empty⟩
    · exact .inl ⟨later, empty⟩
  · exact .inr ⟨object, more _ member, rest⟩

theorem Outcomes.recorded (outcomes : manager.Outcomes toEpoch crypto proto heap) (lists : manager.Lists toEpoch heap)
    {tr : Ref} {rest : List Ref} {trWrapper : TransactionWrapper}
    (pc : manager.pc = .finishing (tr :: rest) trWrapper) (recorded : (heap tr).transactionResult.recorded = true) :
    Outcomes toEpoch crypto proto { manager with
      storage.transactionQueue := manager.storage.transactionQueue ++ [tr]
      pc := .finishing rest trWrapper } heap := by
  have unfinished : manager.unfinished = tr :: rest := by rw [TransactionManagerImpl.unfinished, pc]
  have unsent : manager.unsent = trWrapper.transactionList := by rw [TransactionManagerImpl.unsent, pc]
  obtain ⟨done, settled⟩ := outcomes.settled (by rw [finishing, pc])
  have results := settled.results
  rw [unfinished] at results
  refine ⟨outcomes.number, (fun idle => by cases idle), fun _ => ⟨done ++ [(tr, (heap tr).transactionResult)], ?_⟩,
    fun f member => (outcomes.finished f member).mono (Nat.le_refl _) rfl fun _ h => h⟩
  constructor
  case results => simpa [TransactionManagerImpl.unfinished] using results
  case queue => simp [settled.queue, recorded]
  case objects =>
    intro t member kept
    rcases List.mem_append.mp member with old | new
    · exact settled.objects t old kept
    · rw [List.mem_singleton.mp new]
      exact ⟨lists.current tr (by rw [unfinished]; exact .head _), rfl⟩
  case resent =>
    intro r aborted
    have old : (r, TransactionResult.ABORT) ∈ done := by
      refine (List.mem_append.mp aborted).resolve_right fun new => ?_
      rw [← (Prod.mk.inj (List.mem_singleton.mp new)).2] at recorded
      cases recorded
    have before := settled.resent r old
    rw [unsent] at before
    exact before

theorem Outcomes.retried (outcomes : manager.Outcomes toEpoch crypto proto heap) (lists : manager.Lists toEpoch heap)
    {tr : Ref} {rest : List Ref} {trWrapper : TransactionWrapper}
    (pc : manager.pc = .finishing (tr :: rest) trWrapper) (result : (heap tr).transactionResult = .ABORT)
    {next : ManagerPc}
    (shape : next = .sendFull { trWrapper with transactionList := trWrapper.transactionList ++ [tr] } rest
        (.new (toEpoch (manager.epoch + 1))) ∨
      next = .finishing rest { trWrapper with transactionList := trWrapper.transactionList ++ [tr] }) :
    Outcomes toEpoch crypto proto { manager with
      nextEpochTrWrapper :=
        { manager.nextEpochTrWrapper with
          transactionList := manager.nextEpochTrWrapper.transactionList ++ [tr] }
      pc := next } (Function.update heap tr (FinishEpoch.retry (toEpoch (manager.epoch + 1)) (heap tr))) := by
  have unfinished : manager.unfinished = tr :: rest := by rw [TransactionManagerImpl.unfinished, pc]
  have unsent : manager.unsent = trWrapper.transactionList := by rw [TransactionManagerImpl.unsent, pc]
  obtain ⟨done, settled⟩ := outcomes.settled (by rw [finishing, pc])
  have results := settled.results
  rw [unfinished] at results
  obtain ⟨notRest, notQueue, notNext⟩ := lists.apart unfinished
  have other : ∀ {r}, r ≠ tr →
      Function.update heap tr (FinishEpoch.retry (toEpoch (manager.epoch + 1)) (heap tr)) r = heap r := fun different =>
    Function.update_of_ne different ..
  let after : TransactionManagerImpl :=
    { manager with
      nextEpochTrWrapper :=
        { manager.nextEpochTrWrapper with
          transactionList := manager.nextEpochTrWrapper.transactionList ++ [tr] }
      pc := next }
  have unfinishedAfter : after.unfinished = rest := by rcases shape with rfl | rfl <;> rfl
  have unsentAfter : after.unsent = trWrapper.transactionList ++ [tr] := by
    rcases shape with rfl | rfl
    · exact List.append_nil _
    · rfl
  have busyAfter : after.finishing = true := by rcases shape with rfl | rfl <;> rfl
  refine ⟨outcomes.number, (fun idle => by rw [busyAfter] at idle; cases idle), fun _ =>
    ⟨done ++ [(tr, .ABORT)], ?_⟩, fun f member => (outcomes.finished f member).mono (Nat.le_refl _) rfl fun _ h => h⟩
  constructor
  case results =>
    rw [unfinishedAfter]
    show manager.results = _
    rw [results, List.map_cons, result, List.append_assoc, List.singleton_append]
    congr 2
    refine List.map_congr_left fun r member => ?_
    rw [other (by rintro rfl; exact notRest member)]
  case queue =>
    rw [List.filter_append, List.map_append, ← settled.queue]
    exact (List.append_nil _).symm
  case objects =>
    intro t member recorded
    rcases List.mem_append.mp member with old | new
    · have queued := settled.mem_queue old recorded
      rw [other (by rintro same; rw [same] at queued; exact notQueue queued)]
      exact settled.objects t old recorded
    · rw [List.mem_singleton.mp new] at recorded
      cases recorded
  case resent =>
    intro r aborted
    rw [unsentAfter]
    rcases List.mem_append.mp aborted with old | new
    · have before := settled.resent r old
      refine before.imp_left fun resent => ?_
      obtain ⟨waiting, empty⟩ := resent
      have listed := lists.sendingNext (by simp [pc]) r waiting
      rw [unsent] at waiting
      refine ⟨List.mem_append_left _ waiting, ?_⟩
      rw [other (by rintro rfl; exact notNext listed)]
      exact empty
    · cases List.mem_singleton.mp new
      refine .inl ⟨List.mem_append_right _ (.head _), ?_⟩
      rw [Function.update_self]
      rfl

theorem Outcomes.finishTransaction (outcomes : manager.Outcomes toEpoch crypto proto heap) (lists : manager.Lists toEpoch heap)
    {tr : Ref} {rest : List Ref} {trWrapper : TransactionWrapper}
    (pc : manager.pc = .finishing (tr :: rest) trWrapper) :
    (manager.finishTransaction toEpoch heap tr rest trWrapper).1.Outcomes toEpoch crypto proto
      (manager.finishTransaction toEpoch heap tr rest trWrapper).2 := by
  have decided := lists.decided (by rw [finishing, pc]) tr (by rw [TransactionManagerImpl.unfinished, pc]; exact .head _)
  cases result : (heap tr).transactionResult with
  | PENDING => exact absurd result decided
  | COMMIT | ABORT_NO_RETRY =>
    rw [finishTransaction_recorded rest trWrapper (by simp [result])]
    exact outcomes.recorded lists pc (by rw [result]; rfl)
  | ABORT =>
    obtain ⟨next, same, shape⟩ := finishTransaction_retried manager rest result
      (lists.retries _ _ (.inl pc)) lists.wrapper
    rw [same]
    exact outcomes.retried lists pc result shape

theorem Outcomes.generateBlock (outcomes : manager.Outcomes toEpoch crypto proto heap)
    (here : toEpoch (manager.storage.blockNum + 1) = manager.storage.blockNum + 1)
    (small : toEpoch (manager.epoch + 1) = manager.epoch + 1) (pc : manager.pc = .generate)
    (generated : manager.generateBlock toEpoch crypto proto heap = some next) :
    next.Outcomes toEpoch crypto proto heap := by
  have same : manager.epoch = manager.storage.blockNum + 1 := outcomes.number.trans here
  obtain ⟨block, number, data, rfl⟩ := generateBlock_eq generated
  obtain ⟨done, settled⟩ := outcomes.settled (by rw [finishing, pc])
  have unsent : manager.unsent = [] := by rw [TransactionManagerImpl.unsent, pc]
  have results : manager.results = done := by
    rw [settled.results, TransactionManagerImpl.unfinished, pc]
    exact List.append_nil _
  have queued : (BlockStorageToFile.popAll heap manager.storage.transactionQueue).Perm
      ((done.filter fun t => t.2.recorded).map Prod.fst) := by
    rw [← settled.queue]
    exact BlockStorageToFile.popAll_perm heap _
  refine ⟨by rw [same], fun _ => rfl, (fun busy => by cases busy), fun f member => ?_⟩
  rcases List.mem_append.mp member with old | new
  · have right := outcomes.finished f old
    have earlier := right.earlier
    refine right.mono ?_ (Function.update_of_ne ?_ ..) fun _ h => h
    · rw [small]
      exact Nat.le_succ _
    · omega
  · cases List.mem_singleton.mp new
    constructor
    case earlier =>
      rw [small]
      exact Nat.lt_succ_self _
    case number => exact number.trans same.symm
    case stored =>
      rw [same]
      exact Function.update_self ..
    case content =>
      rw [data, List.map_map]
      rfl
    case exactly =>
      rw [results, List.map_map]
      simpa [Function.comp_def] using queued
    case objects =>
      intro t member
      obtain ⟨r, inQueue, rfl⟩ := List.mem_map.mp member
      obtain ⟨x, kept, rfl⟩ := List.mem_map.mp (queued.mem_iff.mp inQueue)
      obtain ⟨inDone, recorded⟩ := List.mem_filter.mp kept
      obtain ⟨epoch, result⟩ := settled.objects x inDone recorded
      refine ⟨epoch, ?_⟩
      rw [results, result]
      exact inDone
    case resent =>
      intro r aborted
      rw [results] at aborted
      rcases settled.resent r aborted with ⟨waiting, -⟩ | resent
      · rw [unsent] at waiting
        cases waiting
      · exact resent

theorem Outcomes.step (outcomes : manager.Outcomes toEpoch crypto proto heap) (lists : manager.Lists toEpoch heap)
    (here : toEpoch (manager.storage.blockNum + 1) = manager.storage.blockNum + 1)
    (small : toEpoch (manager.epoch + 1) = manager.epoch + 1)
    {answer : Option (List Ref)} {sent : Option TransactionWrapper}
    (step : manager.step toEpoch crypto proto heap answer = some (next, after, sent)) :
    next.Outcomes toEpoch crypto proto after := by
  cases step_cases step with
  | goto goes =>
    have idle : manager.finishing = false := by
      cases goes with
      | exhausted pc | nothing pc | again pc => rw [finishing, pc]
    exact outcomes.collecting idle goes.same.2.2 rfl rfl rfl fun _ h => h
  | receiveCurrent pc | receiveNext pc =>
    exact outcomes.collecting (by rw [finishing, pc]) rfl rfl rfl rfl fun _ h => h
  | finishEpoch pc => exact outcomes.finishEpoch pc
  | finishTransaction pc => exact outcomes.finishTransaction lists pc
  | send sends => exact outcomes.send lists sends
  | generate pc generated => exact outcomes.generateBlock here small pc generated

end TransactionManagerImpl

end Blockchain
