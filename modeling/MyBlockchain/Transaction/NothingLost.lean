import MyBlockchain.Transaction.FinishedEpochs
import MyBlockchain.Worker.Chaincode
import MyBlockchain.Library.Runs

namespace Blockchain

open Varint TransactionManagerImpl

/-- The manager and the transaction objects it shares with the other threads. -/
structure ManagerWorld where
  manager : TransactionManagerImpl
  heap : Heap

inductive ManagerMove
  | manager (answer : Option (List Ref))
  | epochTransactionFinishSignal (epoch : Nat)
  | execute (r : Ref) (transactionResult : TransactionResult) (kvrwSet : KVRWSet)
  | create (r : Ref) (transaction : MockTransaction)
  deriving DecidableEq, Repr

namespace ManagerWorld

variable (crypto : BlockCrypto) (proto : TransactionProto)

/-- The coordinator does what it likes with the transactions it was sent, until it announces their epoch
with none of them pending; the comm module makes new ones. -/
def step (world : ManagerWorld) : ManagerMove → Option ManagerWorld
  | .manager answer =>
    let manager := world.manager
    if manager.pc = .check ∧ manager.lastEpochFinishSignal = manager.epoch ∧
        ∃ r ∈ manager.currentEpochTrWrapper.transactionList, (world.heap r).transactionResult = .PENDING then none
    else (manager.step uint32 crypto proto world.heap answer).map fun (manager, heap, _) => { manager, heap }
  | .epochTransactionFinishSignal epoch =>
    some { world with manager.lastEpochFinishSignal := uint32 epoch }
  | .execute r transactionResult kvrwSet =>
    if r ∈ world.manager.unsent ∨
        world.manager.finishing = true ∧ (world.heap r).epoch = world.manager.epoch then none
    else some { world with
      heap := Function.update world.heap r { world.heap r with transactionResult, kvrwSet } }
  | .create r transaction =>
    if r ∈ world.manager.received then none
    else some { world with heap := Function.update world.heap r transaction }

def run (world : ManagerWorld) (moves : List ManagerMove) : Option ManagerWorld :=
  moves.foldlM (ManagerWorld.step crypto proto) world

end ManagerWorld

namespace ManagerWorld

/-- The step is made while the epoch is still the number of the next block, and has an epoch after it. -/
def Short (world : ManagerWorld) (_ : ManagerMove) : Prop := world.manager.storage.blockNum + 2 < 2 ^ 32

instance (world : ManagerWorld) (move : ManagerMove) : Decidable (world.Short move) :=
  inferInstanceAs (Decidable (_ < _))

end ManagerWorld

namespace TransactionManagerImpl

/-- Where the transactions are, what is in the blocks, and what was sent again. -/
structure NothingLost (crypto : BlockCrypto) (proto : TransactionProto) (manager : TransactionManagerImpl)
    (heap : Heap) : Prop where
  received : manager.received.Nodup
  places : manager.finishing = false →
    (manager.blocked ++ manager.currentEpochTrWrapper.transactionList ++
      manager.nextEpochTrWrapper.transactionList).Perm manager.received ∧
    (∀ r ∈ manager.currentEpochTrWrapper.transactionList, (heap r).epoch = manager.epoch) ∧
    ∀ r ∈ manager.nextEpochTrWrapper.transactionList, (heap r).epoch = manager.epoch + 1
  finishing : (manager.blocked ++ manager.storage.transactionQueue ++ manager.unfinished ++
    manager.nextEpochTrWrapper.transactionList).Perm manager.received
  boundary : ∀ next, manager.pc = .generate → manager.generateBlock uint32 crypto proto heap = some next →
    (next.blocked ++ next.currentEpochTrWrapper.transactionList).Perm next.received ∧
    ∀ r ∈ next.currentEpochTrWrapper.transactionList, (heap r).epoch = next.epoch
  blocks : ∀ finished ∈ manager.finished, manager.Right crypto proto finished
  serialized : ∀ finished ∈ manager.finished, ∀ entry ∈ finished.block.data,
    ∃ tid rest, entry = encode tid ++ (encode finished.block.header.number ++ rest)
  resent : ∀ finished ∈ manager.finished, ∀ r, (r, .ABORT) ∈ finished.results →
    manager.sendings.count (r, finished.epoch + 1) = 1 ∧
    ∀ object, (r, object) ∈ manager.sent → object.epoch = finished.epoch + 1 → object.kvrwSet = .empty

variable {crypto : BlockCrypto} {proto : TransactionProto} {manager : TransactionManagerImpl} {heap : Heap}

theorem Lists.boundary (lists : manager.Lists uint32 heap) {next : TransactionManagerImpl}
    (small : uint32 (manager.epoch + 1) = manager.epoch + 1) (pc : manager.pc = .generate)
    (generated : manager.generateBlock uint32 crypto proto heap = some next) :
    (next.blocked ++ next.currentEpochTrWrapper.transactionList).Perm next.received ∧
    ∀ r ∈ next.currentEpochTrWrapper.transactionList, (heap r).epoch = next.epoch := by
  have after := lists.generateBlock small pc generated
  obtain ⟨block, -, -, rfl⟩ := generateBlock_eq generated
  have places := after.places
  simp only [unfinished, TransactionWrapper.new, List.append_nil] at places
  exact ⟨places, after.current⟩

theorem Right.serialized {finished : FinishedEpoch} (right : manager.Right crypto proto finished) {entry : Bytes}
    (member : entry ∈ finished.block.data) :
    ∃ tid rest, entry = encode tid ++ (encode finished.block.header.number ++ rest) := by
  rw [right.content] at member
  obtain ⟨t, listed, rfl⟩ := List.mem_map.mp member
  rw [right.number, ← (right.objects t listed).1, MockTransaction.serializeToString_eq]
  refine ⟨t.2.tid, delimited (proto.payloadToBytes t.2.transactionPayload) ++
    (delimited (proto.rwSetToBytes t.2.kvrwSet) ++ crypto.sha256 (t.2.serializedFields proto)), ?_⟩
  simp only [MockTransaction.serializedFields, List.append_assoc]

theorem Resent.once (lists : manager.Lists uint32 heap) {r : Ref} {epoch : Nat} (resent : manager.Resent r epoch) :
    manager.sendings.count (r, epoch) = 1 ∧
    ∀ object, (r, object) ∈ manager.sent → object.epoch = epoch → object.kvrwSet = .empty := by
  obtain ⟨object, member, rfl, empty⟩ := resent
  have listed : (r, object.epoch) ∈ manager.sendings := List.mem_map.mpr ⟨_, member, rfl⟩
  refine ⟨List.count_eq_one_of_mem lists.distinct listed, fun other otherMember same => ?_⟩
  have equal : (r, other) = (r, object) :=
    List.inj_on_of_nodup_map lists.distinct otherMember member (congrArg (Prod.mk r) same)
  cases equal
  exact empty

theorem nothingLost (lists : manager.Lists uint32 heap) (outcomes : manager.Outcomes uint32 crypto proto heap)
    (small : manager.pc = .generate → uint32 (manager.epoch + 1) = manager.epoch + 1) :
    manager.NothingLost crypto proto heap where
  received := lists.nodup
  places idle := by
    have unfinished : manager.unfinished = manager.currentEpochTrWrapper.transactionList := by
      rw [TransactionManagerImpl.finishing] at idle
      rw [TransactionManagerImpl.unfinished]
      split at idle <;> simp_all
    have places := lists.places
    have current := lists.current
    rw [outcomes.queue idle, List.append_nil, unfinished] at places
    rw [unfinished] at current
    exact ⟨places, current, lists.next⟩
  finishing := lists.places
  boundary _ pc generated := lists.boundary (small pc) pc generated
  blocks := outcomes.finished
  serialized finished member _ listed := (outcomes.finished finished member).serialized listed
  resent finished member r aborted := ((outcomes.finished finished member).resent r aborted).once lists

end TransactionManagerImpl

namespace ManagerWorld

variable {crypto : BlockCrypto} {proto : TransactionProto} {world next : ManagerWorld}

structure Invariants (crypto : BlockCrypto) (proto : TransactionProto) (world : ManagerWorld) : Prop where
  lists : world.manager.Lists uint32 world.heap
  outcomes : world.manager.Outcomes uint32 crypto proto world.heap
  short : world.manager.finishing = true → world.manager.storage.blockNum + 2 < 2 ^ 32

theorem Invariants.epoch_eq (invariants : world.Invariants crypto proto)
    (short : world.manager.storage.blockNum + 2 < 2 ^ 32) :
    world.manager.epoch = world.manager.storage.blockNum + 1 ∧
    uint32 (world.manager.storage.blockNum + 1) = world.manager.storage.blockNum + 1 ∧
    uint32 (world.manager.epoch + 1) = world.manager.epoch + 1 := by
  have here : uint32 (world.manager.storage.blockNum + 1) = world.manager.storage.blockNum + 1 :=
    Nat.mod_eq_of_lt (by omega)
  have same := invariants.outcomes.number.trans here
  refine ⟨same, here, ?_⟩
  rw [same]
  exact Nat.mod_eq_of_lt short

theorem Invariants.epoch (invariants : world.Invariants crypto proto) (busy : world.manager.finishing = true)
    {r : Ref} (member : r ∈ world.manager.unfinished ∨ r ∈ world.manager.storage.transactionQueue) :
    (world.heap r).epoch = world.manager.epoch := by
  rcases member with left | queued
  · exact invariants.lists.current r left
  · obtain ⟨done, settled⟩ := invariants.outcomes.settled busy
    rw [settled.queue] at queued
    obtain ⟨t, kept, rfl⟩ := List.mem_map.mp queued
    obtain ⟨listed, recorded⟩ := List.mem_filter.mp kept
    exact (settled.objects t listed recorded).1

theorem Invariants.execute (invariants : world.Invariants crypto proto) {r : Ref} {transaction : MockTransaction}
    (same : transaction.epoch = (world.heap r).epoch) (sent : r ∉ world.manager.unsent)
    (open_ : world.manager.finishing = true → (world.heap r).epoch ≠ world.manager.epoch) :
    Invariants crypto proto { world with heap := Function.update world.heap r transaction } := by
  have kept : ∀ {other}, other ≠ r → Function.update world.heap r transaction other = world.heap other :=
    fun different => Function.update_of_ne different ..
  have settled : world.manager.finishing = true → ∀ other,
      other ∈ world.manager.unfinished ∨ other ∈ world.manager.storage.transactionQueue →
        Function.update world.heap r transaction other = world.heap other := by
    intro busy other member
    refine kept fun equal => open_ busy ?_
    rw [← equal]
    exact invariants.epoch busy member
  have lists : world.manager.Lists uint32 (Function.update world.heap r transaction) := by
    refine invariants.lists.world (fun other _ => ?_) fun busy other member decided => ?_
    · by_cases equal : other = r
      · subst equal
        rw [Function.update_self]
        exact same
      · rw [kept equal]
    · rw [settled busy other (.inl member)]
      exact decided
  have outcomes := invariants.outcomes.world (fun other member => kept fun equal => sent (equal ▸ member)) settled
  exact ⟨lists, outcomes, invariants.short⟩

theorem Invariants.create (invariants : world.Invariants crypto proto) {r : Ref} (transaction : MockTransaction)
    (unknown : r ∉ world.manager.received) :
    Invariants crypto proto { world with heap := Function.update world.heap r transaction } := by
  have kept : ∀ other ∈ world.manager.received,
      Function.update world.heap r transaction other = world.heap other := by
    intro other member
    refine Function.update_of_ne ?_ ..
    rintro rfl
    exact unknown member
  have lists : world.manager.Lists uint32 (Function.update world.heap r transaction) := by
    refine invariants.lists.world (fun other member => by rw [kept other member]) fun _ other member decided => ?_
    rw [kept other (invariants.lists.mem_received (.inl member))]
    exact decided
  refine ⟨lists, invariants.outcomes.world (fun other member => kept other ?_) (fun _ other member => kept other ?_),
    invariants.short⟩
  · exact invariants.lists.mem_received (invariants.lists.unsent_mem member)
  · rw [← invariants.lists.places.mem_iff]
    simp only [List.mem_append]
    tauto

/-- Only the step that ends the finishing of an epoch stores a block. -/
theorem blockNum_of_finishing {manager after : TransactionManagerImpl} {heap later : Heap} {answer : Option (List Ref)}
    {sent : Option TransactionWrapper}
    (stepped : manager.step uint32 crypto proto heap answer = some (after, later, sent))
    (finishing : after.finishing = true) : after.storage.blockNum = manager.storage.blockNum := by
  cases TransactionManagerImpl.step_cases stepped with
  | goto | receiveCurrent | receiveNext | finishEpoch | send => rfl
  | finishTransaction => rfl
  | generate pc generated =>
    obtain ⟨block, -, -, rfl⟩ := generateBlock_eq generated
    cases finishing

theorem Invariants.others (invariants : world.Invariants crypto proto) {move : ManagerMove}
    (other : ∀ answer, move ≠ .manager answer) (step : world.step crypto proto move = some next) :
    next.Invariants crypto proto := by
  cases move with
  | manager answer => exact absurd rfl (other answer)
  | epochTransactionFinishSignal epoch =>
    cases step
    exact ⟨invariants.lists.signal _, invariants.outcomes.signal _, invariants.short⟩
  | execute r transactionResult kvrwSet =>
    obtain ⟨allowed, same⟩ := Option.ite_none_left_eq_some.mp step
    cases same
    rw [not_or, not_and] at allowed
    exact invariants.execute rfl allowed.1 allowed.2
  | create r transaction =>
    obtain ⟨unknown, same⟩ := Option.ite_none_left_eq_some.mp step
    cases same
    exact invariants.create transaction unknown

theorem Invariants.step (invariants : world.Invariants crypto proto) {move : ManagerMove} (short : world.Short move)
    (step : world.step crypto proto move = some next) : next.Invariants crypto proto := by
  cases move with
  | manager answer =>
    obtain ⟨allowed, step⟩ := Option.ite_none_left_eq_some.mp step
    obtain ⟨⟨manager, heap, sent⟩, stepped, rfl⟩ := Option.map_eq_some_iff.mp step
    obtain ⟨-, here, small⟩ := invariants.epoch_eq short
    obtain ⟨lists, outcomes, -⟩ := invariants
    refine ⟨lists.step small (fun pc signal r member pending => ?_) stepped, outcomes.step lists here small stepped,
      fun finishing => ?_⟩
    · exact allowed ⟨pc, signal, r, member, pending⟩
    · dsimp only
      rw [blockNum_of_finishing stepped finishing]
      exact short
  | epochTransactionFinishSignal _ | execute _ _ _ | create _ _ =>
    exact invariants.others (fun _ same => by cases same) step

theorem initial_invariants (blockNum : Nat) (files : Nat → Option Block) (heap : Heap) :
    Invariants crypto proto { manager := .new uint32 blockNum files, heap } where
  lists := new_lists uint32 blockNum files heap
  outcomes := new_outcomes uint32 blockNum files heap
  short finishing := by cases finishing

end ManagerWorld

/-- Each transaction is in one place, whatever its results are, in every run of the manager that stays below the last
epoch a `uint32_t` can hold. -/
theorem nothing_lost (crypto : BlockCrypto) (proto : TransactionProto) (blockNum : Nat)
    (files : Nat → Option Block) (heap : Heap) (moves : List ManagerMove) (world : ManagerWorld)
    (short : Runs.Along (ManagerWorld.step crypto proto) ManagerWorld.Short
      { manager := .new uint32 blockNum files, heap } moves)
    (ran : ManagerWorld.run crypto proto { manager := .new uint32 blockNum files, heap } moves = some world) :
    world.manager.NothingLost crypto proto world.heap := by
  have invariants : world.Invariants crypto proto :=
    Runs.invariant_along (ManagerWorld.Invariants crypto proto) (fun stepped short invariants =>
      invariants.step short stepped) ran short (ManagerWorld.initial_invariants blockNum files heap)
  refine nothingLost invariants.lists invariants.outcomes fun pc => ?_
  exact (invariants.epoch_eq (invariants.short (by rw [finishing, pc]))).2.2

section TwoEpochs

def abortOnce : List ManagerMove :=
  let go := ManagerMove.manager none
  [.manager (some [1, 2]), go, go, .manager (some [3]), go, .execute 1 .COMMIT ⟨[], []⟩,
    .execute 2 .ABORT ⟨[⟨bytesOf "b", [], []⟩], []⟩, .epochTransactionFinishSignal 1, go, go, go, go, go,
    go, go, .execute 3 .ABORT_NO_RETRY ⟨[], []⟩, .execute 2 .COMMIT ⟨[], []⟩, .epochTransactionFinishSignal 2,
    go, go, go, go, go]

def abortOnceHeap : Heap := fun r => { counterTransaction r (bytesOf "b") with epoch := if r = 3 then 2 else 1 }

theorem nothing_lost_abort_once :
    ∃ world, ManagerWorld.run counterCrypto counterProto
        { manager := .new uint32 0 fun _ => none, heap := abortOnceHeap } abortOnce = some world ∧
      world.manager.sendings = [(1, 1), (2, 1), (3, 2), (2, 2)] ∧ world.manager.blocked = [1, 3, 2] ∧
      world.manager.NothingLost counterCrypto counterProto world.heap := by
  have shown : (ManagerWorld.run counterCrypto counterProto
      { manager := .new uint32 0 fun _ => none, heap := abortOnceHeap } abortOnce).map
        (fun world => (world.manager.sendings, world.manager.blocked)) =
      some ([(1, 1), (2, 1), (3, 2), (2, 2)], [1, 3, 2]) := by
    decide +kernel
  obtain ⟨world, ran, same⟩ := Option.map_eq_some_iff.mp shown
  obtain ⟨sendings, blocked⟩ := Prod.mk.inj same
  exact ⟨world, ran, sendings, blocked, nothing_lost _ _ _ _ _ _ _ (by decide +kernel) ran⟩

end TwoEpochs

section LastEpoch

/-- Transaction 1 finishes in the last epoch of a `uint32_t`, transaction 2 in the one after it. -/
def lastEpoch : List ManagerMove :=
  let go := ManagerMove.manager none
  [.manager (some [1]), go, go, .manager (some [2]), go, .execute 1 .COMMIT ⟨[], []⟩,
    .epochTransactionFinishSignal 4294967295, go, go, go, go, .execute 2 .COMMIT ⟨[], []⟩,
    .epochTransactionFinishSignal 0, go, go, go, go, go, go]

def lastEpochHeap : Heap := fun r =>
  { counterTransaction r (bytesOf "b") with epoch := if r = 1 then 4294967295 else 0 }

def numberedBlocks (number : Nat) : Option Block :=
  some { Block.new with header := { Block.new.header with number } }

/-- The block after number 4294967295 is number 4294967296, and its epoch is 0. -/
theorem wrapped_epoch_misnumbers :
    ∃ world, ManagerWorld.run counterCrypto counterProto
        { manager := .new uint32 4294967294 numberedBlocks, heap := lastEpochHeap } lastEpoch = some world ∧
      world.manager.finished.map (fun finished => (finished.epoch, finished.block.header.number)) =
        [(4294967295, 4294967295), (0, 4294967296)] ∧
      ¬ world.manager.NothingLost counterCrypto counterProto world.heap := by
  have shown : (ManagerWorld.run counterCrypto counterProto
      { manager := .new uint32 4294967294 numberedBlocks, heap := lastEpochHeap } lastEpoch).map
        (fun world => world.manager.finished.map fun finished => (finished.epoch, finished.block.header.number)) =
      some [(4294967295, 4294967295), (0, 4294967296)] := by
    decide +kernel
  obtain ⟨world, ran, numbers⟩ := Option.map_eq_some_iff.mp shown
  refine ⟨world, ran, numbers, fun holds => ?_⟩
  have wrapped : (0, 4294967296) ∈
      world.manager.finished.map fun finished => (finished.epoch, finished.block.header.number) := by
    rw [numbers]
    exact .tail _ (.head _)
  obtain ⟨finished, member, same⟩ := List.mem_map.mp wrapped
  obtain ⟨epoch, number⟩ := Prod.mk.inj same
  have equal := (holds.blocks finished member).number
  omega

end LastEpoch

end Blockchain
