import MyBlockchain.Comm.TransactionMap
import MyBlockchain.Library.Runs
import MyBlockchain.Transaction.NothingLost

namespace Blockchain

open TransactionManagerImpl

namespace TransactionManagerImpl

def asked (manager : TransactionManagerImpl) : Option Nat :=
  match manager.pc with
  | .getCurrent => some manager.epoch
  | .getNext => some (uint32 (manager.epoch + 1))
  | _ => none

def finishings (manager : TransactionManagerImpl) : List (Ref × Nat) :=
  manager.finished.flatMap fun finished => finished.transactions.map fun t => (t.1, finished.epoch)

end TransactionManagerImpl

/-- The manager with the fields of `CommController` that decide who deletes a transaction. `collected` is the list of
the wrapper that a call of `getTransaction` is filling; while `switching` the manager has called
`clearTransactionForEpoch` and not switched its lists yet. Ghosts: the epoch of `CommController` when a transaction was
handed out, and the deletions with the epoch that was cleared. -/
structure OwnershipWorld where
  world : ManagerWorld
  epoch : Nat
  transactionMap : TransactionMap
  collected : List Ref
  switching : Bool
  handedOut : List (Ref × Nat)
  deleted : List (Ref × Nat)

inductive OwnershipMove
  | advanceEpoch
  | collect (tr : Ref)
  | manager (move : ManagerMove)
  deriving DecidableEq, Repr

namespace OwnershipWorld

def initial (blockNum : Nat) (files : Nat → Option Block) (heap : Heap) : OwnershipWorld where
  world := { manager := .new uint32 blockNum files, heap }
  epoch := uint32 (blockNum + 1)
  transactionMap := fun _ => []
  collected := []
  switching := false
  handedOut := []
  deleted := []

/-- A round of the loop in `getTransaction`, which reads `CommController::epoch` for itself. -/
def collect (owner : OwnershipWorld) (tr : Ref) : OwnershipWorld :=
  { owner with
    transactionMap := owner.transactionMap.push owner.epoch tr
    collected := owner.collected ++ [tr]
    handedOut := owner.handedOut ++ [(tr, owner.epoch)] }

def Collects (owner : OwnershipWorld) (tr : Ref) : Prop :=
  owner.world.manager.asked = some (owner.world.heap tr).epoch ∧ (owner.world.heap tr).epoch ≤ owner.epoch ∧
    tr ∉ owner.world.manager.received ∧ tr ∉ owner.collected

instance (owner : OwnershipWorld) (tr : Ref) : Decidable (owner.Collects tr) :=
  inferInstanceAs (Decidable (_ ∧ _))

/-- `getTransaction` answers with what it has collected, or with null when a transaction of a later epoch is on top.
An object that it holds is not made anew. -/
def Allows (owner : OwnershipWorld) : ManagerMove → Prop
  | .manager answer =>
    match owner.world.manager.asked with
    | none => True
    | some asked => match answer with
      | none => owner.collected = [] ∧ asked < owner.epoch
      | some batch => batch = owner.collected ∧ batch ≠ []
  | .create r _ => r ∉ owner.collected
  | _ => True

instance (owner : OwnershipWorld) (move : ManagerMove) : Decidable (owner.Allows move) := by
  unfold Allows
  split
  · split
    · infer_instance
    · split <;> infer_instance
  · infer_instance
  · infer_instance

def clearTransactionForEpoch (owner : OwnershipWorld) (epoch : Nat) : OwnershipWorld :=
  let (transactionMap, deleted) := owner.transactionMap.clearTransactionForEpoch owner.world.heap epoch
  { owner with transactionMap, deleted := owner.deleted ++ deleted.map fun tr => (tr, epoch) }

def switchLists (owner : OwnershipWorld) : OwnershipWorld :=
  { owner with world := { owner.world with manager := owner.world.manager.nextEpoch uint32 }, switching := false }

variable (crypto : BlockCrypto) (proto : TransactionProto)

def endEpoch (owner : OwnershipWorld) : Option OwnershipWorld :=
  (owner.world.manager.storeBlock crypto proto owner.world.heap).map fun manager =>
    { owner.clearTransactionForEpoch manager.epoch with world := { owner.world with manager }, switching := true }

def step (owner : OwnershipWorld) : OwnershipMove → Option OwnershipWorld
  | .advanceEpoch => some { owner with epoch := uint32 (owner.epoch + 1) }
  | .collect tr => if owner.Collects tr then some (owner.collect tr) else none
  | .manager (.manager answer) =>
    if owner.switching then some owner.switchLists
    else if owner.world.manager.pc = .generate then owner.endEpoch crypto proto
    else if owner.Allows (.manager answer) then
      (owner.world.step crypto proto (.manager answer)).map fun world => { owner with world, collected := [] }
    else none
  | .manager move =>
    if owner.Allows move then (owner.world.step crypto proto move).map fun world => { owner with world } else none

def run (owner : OwnershipWorld) (moves : List OwnershipMove) : Option OwnershipWorld :=
  moves.foldlM (step crypto proto) owner

def openEpoch (owner : OwnershipWorld) : Nat :=
  if owner.switching then owner.world.manager.epoch + 1 else owner.world.manager.epoch

/-- Each finished transaction has been deleted once, in the call for the epoch it finished in; no list of the manager
holds a deleted transaction, apart from the one that it is about to drop; nothing of a cleared epoch is left in the
map. -/
structure Owned (owner : OwnershipWorld) : Prop where
  deleted : owner.deleted.Perm owner.world.manager.finishings
  once : (owner.deleted.map Prod.fst).Nodup
  current : owner.switching = false →
    ∀ d ∈ owner.deleted, d.1 ∉ owner.world.manager.currentEpochTrWrapper.transactionList
  next : ∀ d ∈ owner.deleted, d.1 ∉ owner.world.manager.nextEpochTrWrapper.transactionList
  left : ∀ epoch, ∀ tr ∈ owner.transactionMap epoch, owner.openEpoch ≤ (owner.world.heap tr).epoch

structure StrictlyOwned (owner : OwnershipWorld) : Prop where
  owned : owner.Owned
  dropped : ∀ d ∈ owner.deleted, d.1 ∉ owner.world.manager.currentEpochTrWrapper.transactionList

def Clears (owner : OwnershipWorld) : OwnershipMove → Prop
  | .manager (.manager _) => owner.switching = false ∧ owner.world.manager.pc = .generate
  | _ => False

/-- When an epoch is cleared, the transactions that finished in it were handed out before `CommController::epoch`
was past it. -/
def Timely (owner : OwnershipWorld) (move : OwnershipMove) : Prop :=
  owner.Clears move → ∀ given ∈ owner.handedOut, given.1 ∈ owner.world.manager.storage.transactionQueue →
    given.2 ≤ owner.world.manager.epoch

def Idle (owner : OwnershipWorld) (move : OwnershipMove) : Prop :=
  owner.Clears move → owner.world.manager.storage.transactionQueue = []

instance (owner : OwnershipWorld) (move : OwnershipMove) : Decidable (owner.Clears move) := by
  cases move with
  | advanceEpoch | collect => exact instDecidableFalse
  | manager move =>
    cases move with
    | epochTransactionFinishSignal | execute | create => exact instDecidableFalse
    | manager answer => exact inferInstanceAs (Decidable (_ ∧ _))

instance (owner : OwnershipWorld) (move : OwnershipMove) : Decidable (owner.Timely move) :=
  inferInstanceAs (Decidable (_ → _))

instance (owner : OwnershipWorld) (move : OwnershipMove) : Decidable (owner.Idle move) :=
  inferInstanceAs (Decidable (_ → _))

def Short (owner : OwnershipWorld) : OwnershipMove → Prop
  | .advanceEpoch => owner.epoch + 1 < 2 ^ 32
  | _ => owner.switching = true ∨ owner.world.manager.storage.blockNum + 2 < 2 ^ 32

instance (owner : OwnershipWorld) (move : OwnershipMove) : Decidable (owner.Short move) := by
  cases move with
  | advanceEpoch => exact inferInstanceAs (Decidable (_ < _))
  | collect | manager => exact inferInstanceAs (Decidable (_ ∨ _))

end OwnershipWorld

namespace ManagerWorld

variable {crypto : BlockCrypto} {proto : TransactionProto} {world next : ManagerWorld}

def Listed (world : ManagerWorld) : Prop :=
  world.manager.finishing = true →
    world.manager.results.map Prod.fst = world.manager.currentEpochTrWrapper.transactionList

/-- What a step that generates no block does to the lists; `batch` are the transactions it takes from the comm
module. -/
structure Frame (world next : ManagerWorld) (batch : List Ref) : Prop where
  epoch : next.manager.epoch = world.manager.epoch
  finished : next.manager.finished = world.manager.finished
  received : next.manager.received = world.manager.received ++ batch
  current : ∀ r ∈ next.manager.currentEpochTrWrapper.transactionList,
    r ∈ world.manager.currentEpochTrWrapper.transactionList ∨ r ∈ batch
  listed : world.Listed → next.Listed

theorem Frame.same (epoch : next.manager.epoch = world.manager.epoch)
    (finished : next.manager.finished = world.manager.finished)
    (received : next.manager.received = world.manager.received)
    (current : next.manager.currentEpochTrWrapper = world.manager.currentEpochTrWrapper)
    (listed : world.Listed → next.Listed) : world.Frame next [] where
  epoch := epoch
  finished := finished
  received := by rw [received, List.append_nil]
  current r member := by
    rw [current] at member
    exact .inl member
  listed := listed

def batchOf (world : ManagerWorld) : ManagerMove → List Ref
  | .manager (some batch) => if world.manager.asked = none then [] else batch
  | _ => []

theorem manager_frame {manager : TransactionManagerImpl} {heap after : Heap} {answer : Option (List Ref)}
    {sent : Option TransactionWrapper}
    (stepped : world.manager.step uint32 crypto proto heap answer = some (manager, after, sent))
    (quiet : world.manager.pc ≠ .generate) :
    world.Frame { manager, heap := after } (world.batchOf (.manager answer)) := by
  unfold TransactionManagerImpl.step at stepped
  have nothing : world.manager.asked = none → world.batchOf (.manager answer) = [] := by
    intro asks
    cases answer with
    | none => rfl
    | some batch => exact if_pos asks
  cases pc : world.manager.pc with
  | getCurrent =>
    rw [pc] at stepped
    cases answer with
    | none =>
      cases stepped
      exact .same rfl rfl rfl rfl fun _ busy => by cases busy
    | some batch =>
      obtain ⟨-, same⟩ := Option.ite_none_right_eq_some.mp stepped
      cases same
      have asks : world.manager.asked ≠ none := by simp [asked, pc]
      rw [batchOf, if_neg asks]
      exact ⟨rfl, rfl, rfl, fun r member => List.mem_append.mp member, fun _ busy => by cases busy⟩
  | getNext =>
    rw [pc] at stepped
    cases answer with
    | none =>
      cases stepped
      exact .same rfl rfl rfl rfl fun _ busy => by cases busy
    | some batch =>
      obtain ⟨-, same⟩ := Option.ite_none_right_eq_some.mp stepped
      cases same
      have asks : world.manager.asked ≠ none := by simp [asked, pc]
      rw [batchOf, if_neg asks]
      exact ⟨rfl, rfl, rfl, fun r member => .inl member, fun _ busy => by cases busy⟩
  | check =>
    rw [pc] at stepped
    rw [nothing (by rw [asked, pc])]
    dsimp only at stepped
    split at stepped
    · cases stepped
      refine .same rfl rfl rfl rfl fun _ _ => ?_
      simp [TransactionManagerImpl.finishEpoch, Function.comp_def]
    · cases stepped
      exact .same rfl rfl rfl rfl fun _ busy => by cases busy
  | finishing rest trWrapper =>
    rw [pc] at stepped
    rw [nothing (by rw [asked, pc])]
    cases rest with
    | nil =>
      cases stepped
      exact .same rfl rfl rfl rfl fun listed _ => listed (by rw [TransactionManagerImpl.finishing, pc])
    | cons tr rest =>
      cases stepped
      exact .same rfl rfl rfl rfl fun listed _ => listed (by rw [TransactionManagerImpl.finishing, pc])
  | sendCurrent _ | sendNext _ =>
    rw [pc] at stepped
    rw [nothing (by rw [asked, pc])]
    cases stepped
    exact .same rfl rfl rfl rfl fun _ busy => by cases busy
  | sendFull _ _ _ =>
    rw [pc] at stepped
    rw [nothing (by rw [asked, pc])]
    cases stepped
    exact .same rfl rfl rfl rfl fun listed _ => listed (by rw [TransactionManagerImpl.finishing, pc])
  | generate => exact absurd pc quiet

theorem step_frame {move : ManagerMove} (step : world.step crypto proto move = some next)
    (quiet : ∀ answer, move = .manager answer → world.manager.pc ≠ .generate) :
    world.Frame next (world.batchOf move) := by
  cases move with
  | manager answer =>
    obtain ⟨-, step⟩ := Option.ite_none_left_eq_some.mp step
    obtain ⟨⟨manager, heap, sent⟩, stepped, rfl⟩ := Option.map_eq_some_iff.mp step
    exact manager_frame stepped (quiet answer rfl)
  | epochTransactionFinishSignal epoch =>
    cases step
    exact .same rfl rfl rfl rfl fun listed => listed
  | execute r transactionResult kvrwSet =>
    obtain ⟨-, same⟩ := Option.ite_none_left_eq_some.mp step
    cases same
    exact .same rfl rfl rfl rfl fun listed => listed
  | create r transaction =>
    obtain ⟨-, same⟩ := Option.ite_none_left_eq_some.mp step
    cases same
    exact .same rfl rfl rfl rfl fun listed => listed

end ManagerWorld

namespace OwnershipWorld

variable {crypto : BlockCrypto} {proto : TransactionProto} {owner after : OwnershipWorld} {tr : Ref}

/-- A transaction that is not in a block yet is under the key of the epoch it was handed out in, until the manager
has come to that epoch; from then on it goes with the manager's epoch. -/
structure Kept (crypto : BlockCrypto) (proto : TransactionProto) (owner : OwnershipWorld) : Prop where
  invariants : owner.world.Invariants crypto proto
  known : owner.handedOut.map Prod.fst = owner.world.manager.received ++ owner.collected
  distinct : (owner.world.manager.received ++ owner.collected).Nodup
  pending : ∀ tr ∈ owner.collected, owner.world.manager.epoch ≤ (owner.world.heap tr).epoch
  idle : owner.world.manager.asked = none → owner.collected = []
  current : ∀ r ∈ owner.world.manager.currentEpochTrWrapper.transactionList, r ∉ owner.world.manager.blocked
  mapped : ∀ tr epoch, (tr, epoch) ∈ owner.handedOut → tr ∉ owner.world.manager.blocked →
    tr ∈ owner.transactionMap (max epoch owner.world.manager.epoch)
  held : ∀ key, ∀ tr ∈ owner.transactionMap key, tr ∉ owner.world.manager.blocked ∧
    ∃ epoch, (tr, epoch) ∈ owner.handedOut ∧ key = max epoch owner.world.manager.epoch
  once : ∀ key, (owner.transactionMap key).Nodup
  deleted : owner.deleted.Perm owner.world.manager.finishings
  listed : owner.world.Listed

theorem initial_kept (blockNum : Nat) (files : Nat → Option Block) (heap : Heap) :
    (initial blockNum files heap).Kept crypto proto where
  invariants := ManagerWorld.initial_invariants blockNum files heap
  known := rfl
  distinct := .nil
  pending _ member := by cases member
  idle _ := rfl
  current _ member := by cases member
  mapped _ _ member := by cases member
  held _ _ member := by cases member
  once _ := .nil
  deleted := .nil
  listed busy := by cases busy

theorem Kept.blocked_received (kept : owner.Kept crypto proto) (blocked : tr ∈ owner.world.manager.blocked) :
    tr ∈ owner.world.manager.received := by
  rw [← kept.invariants.lists.places.mem_iff]
  simp only [List.mem_append]
  exact .inl (.inl (.inl blocked))

theorem Kept.place (kept : owner.Kept crypto proto) (received : tr ∈ owner.world.manager.received)
    (open_ : tr ∉ owner.world.manager.blocked) :
    tr ∈ owner.world.manager.storage.transactionQueue ∨ tr ∈ owner.world.manager.unfinished ∨
      tr ∈ owner.world.manager.nextEpochTrWrapper.transactionList := by
  rw [← kept.invariants.lists.places.mem_iff] at received
  simp only [List.mem_append] at received
  tauto

theorem Kept.not_blocked (kept : owner.Kept crypto proto)
    (here : tr ∈ owner.world.manager.storage.transactionQueue ∨
      tr ∈ owner.world.manager.nextEpochTrWrapper.transactionList) : tr ∉ owner.world.manager.blocked := by
  intro blocked
  have nodup := kept.invariants.lists.places.nodup_iff.mpr kept.invariants.lists.nodup
  simp only [List.nodup_append, List.mem_append] at nodup
  rcases here with queued | next
  · exact nodup.1.1.2.2 tr blocked tr queued rfl
  · exact nodup.2.2 tr (.inl (.inl blocked)) tr next rfl

theorem finishings_fst (manager : TransactionManagerImpl) : manager.finishings.map Prod.fst = manager.blocked := by
  simp [finishings, blocked, List.map_flatMap, Function.comp_def]

theorem Kept.epoch_le (kept : owner.Kept crypto proto) (open_ : tr ∉ owner.world.manager.blocked)
    (known : tr ∈ owner.world.manager.received ++ owner.collected) :
    owner.world.manager.epoch ≤ (owner.world.heap tr).epoch := by
  rcases List.mem_append.mp known with received | collected
  · rcases kept.place received open_ with queued | unfinished | next
    · cases busy : owner.world.manager.finishing with
      | true => rw [kept.invariants.epoch busy (.inr queued)]
      | false =>
        rw [kept.invariants.outcomes.queue busy] at queued
        cases queued
    · rw [kept.invariants.lists.current tr unfinished]
    · rw [kept.invariants.lists.next tr next]
      exact Nat.le_succ _
  · exact kept.pending tr collected

theorem Kept.owned (kept : owner.Kept crypto proto) (still : owner.switching = false) : owner.Owned where
  deleted := kept.deleted
  once := by
    rw [(kept.deleted.map Prod.fst).nodup_iff, finishings_fst]
    have nodup := kept.invariants.lists.places.nodup_iff.mpr kept.invariants.lists.nodup
    simp only [List.nodup_append] at nodup
    exact nodup.1.1.1
  current _ d member listed := by
    have blocked := (kept.deleted.map Prod.fst).mem_iff.mp (List.mem_map_of_mem member)
    rw [finishings_fst] at blocked
    exact kept.current d.1 listed blocked
  next d member listed := by
    have blocked := (kept.deleted.map Prod.fst).mem_iff.mp (List.mem_map_of_mem member)
    rw [finishings_fst] at blocked
    exact kept.not_blocked (.inr listed) blocked
  left key tr member := by
    obtain ⟨open_, epoch, given, -⟩ := kept.held key tr member
    rw [openEpoch, still]
    refine kept.epoch_le open_ ?_
    rw [← kept.known]
    exact List.mem_map_of_mem given

theorem Kept.frame (kept : owner.Kept crypto proto) {next : ManagerWorld} {batch collected : List Ref}
    (invariants : next.Invariants crypto proto) (frame : owner.world.Frame next batch)
    (split : batch ++ collected = owner.collected)
    (pending : ∀ tr ∈ collected, owner.world.manager.epoch ≤ (next.heap tr).epoch)
    (idle : next.manager.asked = none → collected = []) :
    Kept crypto proto { owner with world := next, collected } := by
  have blocked : next.manager.blocked = owner.world.manager.blocked := by
    rw [TransactionManagerImpl.blocked, frame.finished, TransactionManagerImpl.blocked]
  have known : next.manager.received ++ collected = owner.world.manager.received ++ owner.collected := by
    rw [frame.received, List.append_assoc, split]
  constructor
  case invariants => exact invariants
  case known =>
    rw [known]
    exact kept.known
  case distinct =>
    rw [known]
    exact kept.distinct
  case pending =>
    rw [frame.epoch]
    exact pending
  case idle => exact idle
  case current =>
    intro r member
    rw [blocked]
    rcases frame.current r member with before | new
    · exact kept.current r before
    · intro old
      have collected : r ∈ owner.collected := by
        rw [← split]
        exact List.mem_append_left _ new
      exact (List.nodup_append.mp kept.distinct).2.2 r (kept.blocked_received old) r collected rfl
  case mapped =>
    rw [blocked, frame.epoch]
    exact kept.mapped
  case held =>
    rw [blocked, frame.epoch]
    exact kept.held
  case once => exact kept.once
  case deleted =>
    rw [finishings, frame.finished]
    exact kept.deleted
  case listed => exact frame.listed kept.listed

theorem Kept.collect (kept : owner.Kept crypto proto)
    (small : uint32 (owner.world.manager.epoch + 1) = owner.world.manager.epoch + 1) (collects : owner.Collects tr) :
    (owner.collect tr).Kept crypto proto := by
  obtain ⟨asks, arrived, unknown, fresh⟩ := collects
  have new : tr ∉ owner.handedOut.map Prod.fst := by
    rw [kept.known]
    simp [unknown, fresh]
  have since : owner.world.manager.epoch ≤ (owner.world.heap tr).epoch := by
    unfold asked at asks
    rw [small] at asks
    split at asks
    · exact Nat.le_of_eq (Option.some.inj asks)
    · exact (Nat.le_succ _).trans (Nat.le_of_eq (Option.some.inj asks))
    · cases asks
  have pushed : ∀ key, (owner.collect tr).transactionMap key =
      owner.transactionMap key ++ if owner.epoch = key then [tr] else [] := fun key => TransactionMap.push_apply ..
  have key : max owner.epoch owner.world.manager.epoch = owner.epoch := by omega
  constructor
  case invariants => exact kept.invariants
  case known =>
    rw [OwnershipWorld.collect, List.map_append, kept.known]
    exact List.append_assoc ..
  case distinct =>
    rw [OwnershipWorld.collect, ← List.append_assoc]
    refine List.nodup_append.mpr ⟨kept.distinct, List.nodup_singleton tr, ?_⟩
    rintro other before r member rfl
    rw [List.mem_singleton.mp member, ← kept.known] at before
    exact new before
  case pending =>
    intro other member
    rcases List.mem_append.mp member with before | now
    · exact kept.pending other before
    · rw [List.mem_singleton.mp now]
      exact since
  case idle =>
    intro none
    rw [OwnershipWorld.collect, asks] at none
    cases none
  case current => exact kept.current
  case mapped =>
    intro other epoch given open_
    rw [pushed]
    rcases List.mem_append.mp given with before | now
    · exact List.mem_append_left _ (kept.mapped other epoch before open_)
    · cases List.mem_singleton.mp now
      refine List.mem_append_right _ ?_
      rw [if_pos (by exact key.symm)]
      exact .head _
  case held =>
    intro other r member
    rw [pushed] at member
    rcases List.mem_append.mp member with before | now
    · obtain ⟨open_, epoch, given, same⟩ := kept.held other r before
      exact ⟨open_, epoch, List.mem_append_left _ given, same⟩
    · split at now
      · next here =>
        cases List.mem_singleton.mp now
        refine ⟨fun blocked => unknown (kept.blocked_received blocked), owner.epoch, ?_, ?_⟩
        · exact List.mem_append_right _ (.head _)
        · exact here.symm.trans key.symm
      · cases now
  case once =>
    intro other
    rw [pushed]
    split
    · refine List.nodup_append.mpr ⟨kept.once other, List.nodup_singleton tr, ?_⟩
      rintro r before _ member rfl
      obtain ⟨-, epoch, given, -⟩ := kept.held other r before
      rw [List.mem_singleton.mp member] at given
      exact new (List.mem_map_of_mem given)
    · rw [List.append_nil]
      exact kept.once other
  case deleted => exact kept.deleted
  case listed => exact kept.listed

theorem Kept.manager (kept : owner.Kept crypto proto) {answer : Option (List Ref)} {next : ManagerWorld}
    (allows : owner.Allows (.manager answer)) (quiet : owner.world.manager.pc ≠ .generate)
    (short : owner.world.Short (.manager answer))
    (stepped : owner.world.step crypto proto (.manager answer) = some next) :
    Kept crypto proto { owner with world := next, collected := [] } := by
  have frame := ManagerWorld.step_frame stepped fun _ _ => quiet
  refine kept.frame (kept.invariants.step short stepped) frame ?_ nofun fun _ => rfl
  rw [List.append_nil]
  simp only [Allows] at allows
  split at allows
  · next none =>
    rw [kept.idle none]
    cases answer with
    | none => rfl
    | some batch => exact if_pos none
  · next epoch asks =>
    cases answer with
    | none => exact allows.1.symm
    | some batch =>
      rw [ManagerWorld.batchOf, asks, if_neg nofun]
      exact allows.1

theorem Kept.others (kept : owner.Kept crypto proto) {move : ManagerMove} {next : ManagerWorld}
    (allows : owner.Allows move) (stepped : owner.world.step crypto proto move = some next)
    (other : ∀ answer, move ≠ .manager answer) :
    Kept crypto proto { owner with world := next } := by
  have frame := ManagerWorld.step_frame stepped fun answer same => absurd same (other answer)
  have batch : owner.world.batchOf move = [] := by
    cases move with
    | manager answer => exact absurd rfl (other answer)
    | _ => rfl
  rw [batch] at frame
  obtain ⟨epochs, asks⟩ : (∀ tr ∈ owner.collected, (next.heap tr).epoch = (owner.world.heap tr).epoch) ∧
      next.manager.asked = owner.world.manager.asked := by
    cases move with
    | manager answer => exact absurd rfl (other answer)
    | epochTransactionFinishSignal epoch =>
      cases stepped
      exact ⟨fun _ _ => rfl, rfl⟩
    | execute r transactionResult kvrwSet =>
      obtain ⟨-, same⟩ := Option.ite_none_left_eq_some.mp stepped
      cases same
      refine ⟨fun tr _ => ?_, rfl⟩
      by_cases here : tr = r
      · simp [here]
      · simp [here]
    | create r transaction =>
      obtain ⟨-, same⟩ := Option.ite_none_left_eq_some.mp stepped
      cases same
      refine ⟨fun tr member => ?_, rfl⟩
      have different : tr ≠ r := by
        rintro rfl
        exact allows member
      simp [different]
  refine kept.frame (kept.invariants.others other stepped) frame (List.nil_append _) (fun tr member => ?_) fun none => ?_
  · rw [epochs tr member]
    exact kept.pending tr member
  · exact kept.idle (asks.symm.trans none)

end OwnershipWorld

namespace ManagerWorld

variable {crypto : BlockCrypto} {proto : TransactionProto} {world next : ManagerWorld}

structure EpochEnds (world next : ManagerWorld) : Prop where
  heap : next.heap = world.heap
  epoch : next.manager.epoch = world.manager.epoch + 1
  received : next.manager.received = world.manager.received
  current : next.manager.currentEpochTrWrapper = world.manager.nextEpochTrWrapper
  asked : next.manager.asked ≠ none
  finishings : next.manager.finishings.Perm (world.manager.finishings ++
    world.manager.storage.transactionQueue.map fun tr => (tr, world.manager.epoch))

theorem generate_step {stored : TransactionManagerImpl} (pc : world.manager.pc = .generate)
    (storing : world.manager.storeBlock crypto proto world.heap = some stored) :
    world.step crypto proto (.manager none) = some { world with manager := stored.nextEpoch uint32 } := by
  have generated : world.manager.generateBlock uint32 crypto proto world.heap = some (stored.nextEpoch uint32) := by
    rw [generateBlock, storing]
    rfl
  have stepped : world.manager.step uint32 crypto proto world.heap none =
      some (stored.nextEpoch uint32, world.heap, none) := by
    unfold TransactionManagerImpl.step
    rw [pc]
    dsimp only
    rw [generated]
    rfl
  unfold ManagerWorld.step
  dsimp only
  rw [if_neg (by simp [pc]), stepped]
  rfl

theorem epochEnds {stored : TransactionManagerImpl}
    (small : uint32 (world.manager.epoch + 1) = world.manager.epoch + 1)
    (storing : world.manager.storeBlock crypto proto world.heap = some stored) :
    world.EpochEnds { world with manager := stored.nextEpoch uint32 } := by
  have generated : world.manager.generateBlock uint32 crypto proto world.heap = some (stored.nextEpoch uint32) := by
    rw [generateBlock, storing]
    rfl
  generalize stored.nextEpoch uint32 = next at generated ⊢
  obtain ⟨block, -, -, rfl⟩ := generateBlock_eq generated
  refine ⟨rfl, small, rfl, rfl, nofun, ?_⟩
  simp only [finishings, List.flatMap_append, List.flatMap_singleton, List.map_map, Function.comp_def]
  exact ((BlockStorageToFile.popAll_perm _ _).map _).append_left _

/-- Between the end of an epoch and the switch the other threads do what they could do after it. -/
theorem others_nextEpoch {move : ManagerMove} (pc : world.manager.pc = .generate)
    (other : ∀ answer, move ≠ .manager answer) (step : world.step crypto proto move = some next) :
    ManagerWorld.step crypto proto { world with manager := world.manager.nextEpoch uint32 } move =
        some { next with manager := next.manager.nextEpoch uint32 } ∧
      next.manager.pc = .generate ∧ next.manager.epoch = world.manager.epoch := by
  cases move with
  | manager answer => exact absurd rfl (other answer)
  | epochTransactionFinishSignal epoch =>
    cases step
    exact ⟨rfl, pc, rfl⟩
  | execute r transactionResult kvrwSet =>
    obtain ⟨-, same⟩ := Option.ite_none_left_eq_some.mp step
    cases same
    have free : ¬ (r ∈ (world.manager.nextEpoch uint32).unsent ∨ (world.manager.nextEpoch uint32).finishing = true ∧
        (world.heap r).epoch = (world.manager.nextEpoch uint32).epoch) := by
      rintro (member | ⟨busy, -⟩)
      · cases member
      · cases busy
    refine ⟨?_, pc, rfl⟩
    simp only [ManagerWorld.step]
    rw [if_neg free]
  | create r transaction =>
    obtain ⟨unknown, same⟩ := Option.ite_none_left_eq_some.mp step
    cases same
    exact ⟨if_neg unknown, pc, rfl⟩

theorem EpochEnds.mem_blocked (ends : world.EpochEnds next) {r : Ref} :
    r ∈ next.manager.blocked ↔ r ∈ world.manager.blocked ∨ r ∈ world.manager.storage.transactionQueue := by
  rw [← OwnershipWorld.finishings_fst, (ends.finishings.map Prod.fst).mem_iff, List.map_append, List.mem_append,
    OwnershipWorld.finishings_fst, List.map_map]
  simp [Function.comp_def]

end ManagerWorld

namespace OwnershipWorld

variable {crypto : BlockCrypto} {proto : TransactionProto} {owner : OwnershipWorld} {next : ManagerWorld} {tr : Ref}

structure AtEnd (owner : OwnershipWorld) : Prop where
  collected : owner.collected = []
  queued : ∀ tr ∈ owner.world.manager.storage.transactionQueue,
    (owner.world.heap tr).epoch = owner.world.manager.epoch
  waiting : ∀ tr, tr ∈ owner.handedOut.map Prod.fst → tr ∉ owner.world.manager.blocked →
    tr ∉ owner.world.manager.storage.transactionQueue →
      tr ∈ owner.world.manager.nextEpochTrWrapper.transactionList ∧
      (owner.world.heap tr).epoch = owner.world.manager.epoch + 1

theorem Kept.atEnd (kept : owner.Kept crypto proto) (pc : owner.world.manager.pc = .generate) : owner.AtEnd := by
  have collected : owner.collected = [] := kept.idle (by rw [asked, pc])
  constructor
  case collected => exact collected
  case queued =>
    intro tr queued
    exact kept.invariants.epoch (by rw [finishing, pc]) (.inr queued)
  case waiting =>
    intro tr known open_ out
    rw [kept.known, collected, List.append_nil] at known
    rcases kept.place known open_ with queued | unfinished | next
    · exact absurd queued out
    · rw [TransactionManagerImpl.unfinished, pc] at unfinished
      cases unfinished
    · exact ⟨next, kept.invariants.lists.next tr next⟩

theorem Kept.handedOut_unique (kept : owner.Kept crypto proto) {first second : Nat}
    (one : (tr, first) ∈ owner.handedOut) (other : (tr, second) ∈ owner.handedOut) : first = second := by
  have nodup := kept.distinct
  rw [← kept.known] at nodup
  exact congrArg Prod.snd (List.inj_on_of_nodup_map nodup one other rfl)

/-- The transactions under the key of the cleared epoch that finished in it are all that did, if none of them was
handed out too late. -/
theorem Kept.cleared (kept : owner.Kept crypto proto) (pc : owner.world.manager.pc = .generate)
    (timely : ∀ tr ∈ owner.world.manager.storage.transactionQueue, ∀ epoch, (tr, epoch) ∈ owner.handedOut →
      epoch ≤ owner.world.manager.epoch) :
    ((owner.transactionMap owner.world.manager.epoch).filter
      fun tr => (owner.world.heap tr).epoch = owner.world.manager.epoch).Perm
      owner.world.manager.storage.transactionQueue := by
  have atEnd := kept.atEnd pc
  have nodup : owner.world.manager.storage.transactionQueue.Nodup := by
    have nodup := kept.invariants.lists.places.nodup_iff.mpr kept.invariants.lists.nodup
    simp only [List.nodup_append] at nodup
    exact nodup.1.1.2.1
  refine (List.perm_ext_iff_of_nodup ((kept.once _).filter _) nodup).mpr fun tr => ?_
  rw [List.mem_filter, decide_eq_true_eq]
  constructor
  · rintro ⟨member, same⟩
    obtain ⟨open_, epoch, given, -⟩ := kept.held _ tr member
    by_contra out
    have later := (atEnd.waiting tr (List.mem_map_of_mem given) open_ out).2
    omega
  · intro queued
    have open_ := kept.not_blocked (.inl queued)
    have received : tr ∈ owner.world.manager.received := by
      rw [← kept.invariants.lists.places.mem_iff]
      simp only [List.mem_append]
      exact .inl (.inl (.inr queued))
    have known : tr ∈ owner.handedOut.map Prod.fst := by
      rw [kept.known]
      exact List.mem_append_left _ received
    obtain ⟨⟨_, epoch⟩, given, rfl⟩ := List.mem_map.mp known
    have mapped := kept.mapped _ epoch given open_
    rw [Nat.max_eq_right (timely _ queued epoch given)] at mapped
    exact ⟨mapped, atEnd.queued _ queued⟩

theorem mem_cleared (owner : OwnershipWorld) (epoch key : Nat) (tr : Ref) :
    tr ∈ (owner.clearTransactionForEpoch epoch).transactionMap key ↔
      key ≠ epoch ∧ (tr ∈ owner.transactionMap key ∨
        tr ∈ owner.transactionMap epoch ∧ (owner.world.heap tr).epoch = key) := by
  obtain ⟨-, erased, moved⟩ :=
    TransactionMap.clearTransactionForEpoch_spec owner.world.heap owner.transactionMap epoch
  unfold clearTransactionForEpoch
  by_cases here : key = epoch
  · subst here
    dsimp only
    rw [erased]
    simp
  · dsimp only
    rw [moved key here]
    simp [here]

theorem Kept.cleared_once (kept : owner.Kept crypto proto) (key : Nat) :
    ((owner.clearTransactionForEpoch owner.world.manager.epoch).transactionMap key).Nodup := by
  obtain ⟨-, erased, moved⟩ :=
    TransactionMap.clearTransactionForEpoch_spec owner.world.heap owner.transactionMap owner.world.manager.epoch
  unfold OwnershipWorld.clearTransactionForEpoch
  by_cases here : key = owner.world.manager.epoch
  · subst here
    dsimp only
    rw [erased]
    exact .nil
  · dsimp only
    rw [moved key here]
    refine List.nodup_append.mpr ⟨kept.once key, (kept.once _).filter _, ?_⟩
    rintro tr stays _ moves rfl
    obtain ⟨-, first, given, same⟩ := kept.held key tr stays
    obtain ⟨-, second, again, other⟩ := kept.held _ tr (List.mem_filter.mp moves).1
    have equal := kept.handedOut_unique given again
    omega

theorem Kept.generate (kept : owner.Kept crypto proto) (pc : owner.world.manager.pc = .generate)
    (timely : ∀ tr ∈ owner.world.manager.storage.transactionQueue, ∀ epoch, (tr, epoch) ∈ owner.handedOut →
      epoch ≤ owner.world.manager.epoch)
    (ends : owner.world.EpochEnds next) (idle : next.manager.finishing = false)
    (invariants : next.Invariants crypto proto) :
    Kept crypto proto
      { owner.clearTransactionForEpoch owner.world.manager.epoch with world := next, switching := false } := by
  have atEnd := kept.atEnd pc
  have later : ∀ {tr}, tr ∈ owner.handedOut.map Prod.fst → tr ∉ owner.world.manager.blocked →
      (owner.world.heap tr).epoch ≠ owner.world.manager.epoch →
        (owner.world.heap tr).epoch = owner.world.manager.epoch + 1 ∧ tr ∉ next.manager.blocked := by
    intro tr known open_ differs
    have out : tr ∉ owner.world.manager.storage.transactionQueue := fun queued => differs (atEnd.queued tr queued)
    refine ⟨(atEnd.waiting tr known open_ out).2, fun blocked => ?_⟩
    exact (ends.mem_blocked.mp blocked).elim open_ out
  constructor
  case invariants => exact invariants
  case known =>
    rw [ends.received]
    exact kept.known
  case distinct =>
    rw [ends.received]
    exact kept.distinct
  case pending =>
    intro tr member
    rw [OwnershipWorld.clearTransactionForEpoch, atEnd.collected] at member
    cases member
  case idle => exact fun none => absurd none ends.asked
  case current =>
    intro r member blocked
    rw [ends.current] at member
    rcases ends.mem_blocked.mp blocked with before | queued
    · exact kept.not_blocked (.inr member) before
    · have one := atEnd.queued r queued
      have other := kept.invariants.lists.next r member
      omega
  case mapped =>
    intro tr epoch given open_
    have open_ : tr ∉ owner.world.manager.blocked ∧ tr ∉ owner.world.manager.storage.transactionQueue := by
      rw [← not_or, ← ends.mem_blocked]
      exact open_
    have own := (atEnd.waiting tr (List.mem_map_of_mem given) open_.1 open_.2).2
    have mapped := kept.mapped tr epoch given open_.1
    rw [ends.epoch]
    refine (owner.mem_cleared _ _ tr).mpr ⟨by omega, ?_⟩
    by_cases ahead : owner.world.manager.epoch < epoch
    · rw [Nat.max_eq_left (by omega)] at mapped ⊢
      exact .inl mapped
    · rw [Nat.max_eq_right (by omega)] at mapped ⊢
      exact .inr ⟨mapped, own⟩
  case held =>
    intro key tr member
    rw [ends.epoch]
    obtain ⟨here, stays | ⟨there, own⟩⟩ := (owner.mem_cleared _ key tr).mp member
    · obtain ⟨open_, epoch, given, same⟩ := kept.held key tr stays
      refine ⟨fun blocked => ?_, epoch, given, by omega⟩
      have queued := (ends.mem_blocked.mp blocked).resolve_left open_
      have early := timely tr queued epoch given
      omega
    · obtain ⟨open_, epoch, given, same⟩ := kept.held _ tr there
      have known : tr ∈ owner.handedOut.map Prod.fst := List.mem_map_of_mem given
      obtain ⟨after, open_⟩ := later known open_ (by omega)
      exact ⟨open_, epoch, given, by omega⟩
  case once => exact kept.cleared_once
  case deleted =>
    refine List.Perm.trans ?_ ends.finishings.symm
    have cleared := kept.cleared pc timely
    rw [← (TransactionMap.clearTransactionForEpoch_spec ..).1] at cleared
    exact kept.deleted.append (cleared.map _)
  case listed =>
    intro busy
    rw [idle] at busy
    cases busy

/-- A transaction that finished in an epoch before the one it was handed out in stays in the map. -/
theorem Kept.leaks (kept : owner.Kept crypto proto) (pc : owner.world.manager.pc = .generate) {epoch : Nat}
    (queued : tr ∈ owner.world.manager.storage.transactionQueue) (given : (tr, epoch) ∈ owner.handedOut)
    (late : owner.world.manager.epoch < epoch) (epoch_eq : next.manager.epoch = owner.world.manager.epoch)
    (heap : next.heap = owner.world.heap) :
    ¬ Owned { owner.clearTransactionForEpoch owner.world.manager.epoch with world := next, switching := true } := by
  intro owned
  have mapped := kept.mapped tr epoch given (kept.not_blocked (.inl queued))
  rw [Nat.max_eq_left (by omega)] at mapped
  have stays := owned.left epoch tr ((owner.mem_cleared _ epoch tr).mpr ⟨by omega, .inl mapped⟩)
  rw [openEpoch, if_pos rfl, heap, epoch_eq, (kept.atEnd pc).queued tr queued] at stays
  omega

/-- What has finished in the epoch is in the list that the manager is about to drop. -/
theorem Kept.queued_listed (kept : owner.Kept crypto proto) (pc : owner.world.manager.pc = .generate)
    (queued : tr ∈ owner.world.manager.storage.transactionQueue) :
    tr ∈ owner.world.manager.currentEpochTrWrapper.transactionList := by
  have busy : owner.world.manager.finishing = true := by rw [finishing, pc]
  obtain ⟨done, settled⟩ := kept.invariants.outcomes.settled busy
  rw [settled.queue] at queued
  obtain ⟨result, member, rfl⟩ := List.mem_map.mp queued
  rw [← kept.listed busy, settled.results]
  exact List.mem_map_of_mem (List.mem_append_left _ (List.mem_of_mem_filter member))

structure Sound (crypto : BlockCrypto) (proto : TransactionProto) (owner : OwnershipWorld) : Prop where
  kept : owner.switching = false → owner.Kept crypto proto
  switched : owner.switching = true → owner.switchLists.Kept crypto proto
  generated : owner.switching = true → owner.world.manager.pc = .generate
  small : owner.switching = true → uint32 (owner.world.manager.epoch + 1) = owner.world.manager.epoch + 1

theorem Kept.sound (kept : owner.Kept crypto proto) (still : owner.switching = false) : owner.Sound crypto proto where
  kept _ := kept
  switched switching := by rw [still] at switching; cases switching
  generated switching := by rw [still] at switching; cases switching
  small switching := by rw [still] at switching; cases switching

theorem Sound.owned (sound : owner.Sound crypto proto) : owner.Owned := by
  cases switching : owner.switching with
  | false => exact (sound.kept switching).owned switching
  | true =>
    have owned := (sound.switched switching).owned rfl
    constructor
    case deleted => exact owned.deleted
    case once => exact owned.once
    case current =>
      intro still
      rw [switching] at still
      cases still
    case next => exact owned.current rfl
    case left =>
      intro key tr member
      have later := owned.left key tr member
      rw [openEpoch, if_pos switching, ← sound.small switching]
      exact later

theorem Clears.eq {move : OwnershipMove} (clears : owner.Clears move) :
    owner.switching = false ∧ owner.world.manager.pc = .generate := by
  cases move with
  | advanceEpoch | collect => exact clears.elim
  | manager move =>
    cases move with
    | epochTransactionFinishSignal | execute | create => exact clears.elim
    | manager answer => exact clears

theorem step_clears {owner after : OwnershipWorld} {move : OwnershipMove} (clears : owner.Clears move)
    (stepped : owner.step crypto proto move = some after) :
    ∃ stored, owner.world.manager.storeBlock crypto proto owner.world.heap = some stored ∧
      stored.epoch = owner.world.manager.epoch ∧ stored.pc = owner.world.manager.pc ∧
      stored.currentEpochTrWrapper = owner.world.manager.currentEpochTrWrapper ∧
      after = { owner.clearTransactionForEpoch owner.world.manager.epoch with
        world := { owner.world with manager := stored }, switching := true } := by
  cases move with
  | advanceEpoch | collect => exact clears.elim
  | manager move =>
    cases move with
    | epochTransactionFinishSignal | execute | create => exact clears.elim
    | manager answer =>
      obtain ⟨still, pc⟩ := clears
      simp only [OwnershipWorld.step, still, Bool.false_eq_true, if_false, if_pos pc] at stepped
      obtain ⟨stored, storing, rfl⟩ := Option.map_eq_some_iff.mp stepped
      obtain ⟨⟨storage, block⟩, -, rfl⟩ := Option.map_eq_some_iff.mp storing
      exact ⟨_, storing, rfl, rfl, rfl, rfl⟩

theorem Kept.clears (kept : owner.Kept crypto proto) {move : OwnershipMove} {after : OwnershipWorld}
    (clears : owner.Clears move) (short : owner.world.manager.storage.blockNum + 2 < 2 ^ 32)
    (timely : owner.Timely move) (pc : owner.world.manager.pc = .generate)
    (stepped : owner.step crypto proto move = some after) : after.Sound crypto proto := by
  obtain ⟨stored, storing, epoch, stay, -, rfl⟩ := step_clears clears stepped
  obtain ⟨-, -, small⟩ := kept.invariants.epoch_eq short
  have invariants := kept.invariants.step (show owner.world.Short (.manager none) from short)
    (ManagerWorld.generate_step pc storing)
  have ends := ManagerWorld.epochEnds small storing
  constructor
  case kept => exact fun still => by cases still
  case switched =>
    intro _
    exact kept.generate pc (fun tr queued epoch given => timely clears (tr, epoch) given queued) ends rfl invariants
  case generated => exact fun _ => stay.trans pc
  case small =>
    intro _
    show uint32 (stored.epoch + 1) = stored.epoch + 1
    rw [epoch]
    exact small

theorem Sound.others (sound : owner.Sound crypto proto) {move : ManagerMove} (other : ∀ answer, move ≠ .manager answer)
    (allows : owner.Allows move) (stepped : owner.world.step crypto proto move = some next) :
    Sound crypto proto { owner with world := next } := by
  rcases Bool.eq_false_or_eq_true owner.switching with switching | switching
  · have pc := sound.generated switching
    obtain ⟨later, generated, epoch⟩ := ManagerWorld.others_nextEpoch pc other stepped
    have allowed : owner.switchLists.Allows move := by
      cases move with
      | manager answer => exact absurd rfl (other answer)
      | epochTransactionFinishSignal | execute | create => exact allows
    have kept := (sound.switched switching).others allowed later other
    constructor
    case kept =>
      intro still
      rw [show owner.switching = false from still] at switching
      cases switching
    case switched => exact fun _ => kept
    case generated => exact fun _ => generated
    case small =>
      intro _
      show uint32 (next.manager.epoch + 1) = next.manager.epoch + 1
      rw [epoch]
      exact sound.small switching
  · exact ((sound.kept switching).others allows stepped other).sound switching

theorem step_others {owner after : OwnershipWorld} {move : ManagerMove} (other : ∀ answer, move ≠ .manager answer)
    (stepped : owner.step crypto proto (.manager move) = some after) :
    owner.Allows move ∧ ∃ next, owner.world.step crypto proto move = some next ∧ after = { owner with world := next } := by
  cases move with
  | manager answer => exact absurd rfl (other answer)
  | epochTransactionFinishSignal | execute | create =>
    simp only [OwnershipWorld.step] at stepped
    obtain ⟨allows, stepped⟩ := Option.ite_none_right_eq_some.mp stepped
    obtain ⟨next, made, rfl⟩ := Option.map_eq_some_iff.mp stepped
    exact ⟨allows, next, made, rfl⟩

theorem step_sound {owner after : OwnershipWorld} {move : OwnershipMove}
    (stepped : owner.step crypto proto move = some after) (short : owner.Short move) (timely : owner.Timely move)
    (sound : owner.Sound crypto proto) : after.Sound crypto proto := by
  cases move with
  | advanceEpoch =>
    cases stepped
    exact ⟨fun still => { sound.kept still with }, fun switching => { sound.switched switching with },
      sound.generated, sound.small⟩
  | collect tr =>
    obtain ⟨collects, stepped⟩ := Option.ite_none_right_eq_some.mp stepped
    cases stepped
    cases switching : owner.switching with
    | true =>
      have asks := collects.1
      rw [asked, sound.generated switching] at asks
      cases asks
    | false =>
      have kept := sound.kept switching
      have small := (kept.invariants.epoch_eq (short.resolve_left (by simp [switching]))).2.2
      exact (kept.collect small collects).sound switching
  | manager move =>
    cases move with
    | epochTransactionFinishSignal _ | execute _ _ _ | create _ _ =>
      obtain ⟨allows, next, made, rfl⟩ := step_others (fun _ same => by cases same) stepped
      exact sound.others (fun _ same => by cases same) allows made
    | manager answer =>
      rcases Bool.eq_false_or_eq_true owner.switching with switching | switching
      · simp only [OwnershipWorld.step, switching, if_true] at stepped
        cases stepped
        exact (sound.switched switching).sound rfl
      · have kept := sound.kept switching
        have below := short.resolve_left (by simp [switching])
        by_cases pc : owner.world.manager.pc = .generate
        · have clears : owner.Clears (.manager (.manager answer)) := ⟨switching, pc⟩
          exact kept.clears clears below timely pc stepped
        · simp only [OwnershipWorld.step] at stepped
          rw [if_neg (by simp [switching]), if_neg pc] at stepped
          obtain ⟨allows, stepped⟩ := Option.ite_none_right_eq_some.mp stepped
          obtain ⟨next, made, rfl⟩ := Option.map_eq_some_iff.mp stepped
          exact (kept.manager allows pc below made).sound switching

theorem step_breaks {owner after : OwnershipWorld} {move : OwnershipMove}
    (stepped : owner.step crypto proto move = some after) (late : ¬ owner.Timely move)
    (sound : owner.Sound crypto proto) : ¬ after.Owned := by
  rw [Timely] at late
  push Not at late
  obtain ⟨clears, ⟨tr, epoch⟩, given, queued, ahead⟩ := late
  obtain ⟨still, pc⟩ := clears.eq
  obtain ⟨stored, -, same, -, -, rfl⟩ := step_clears clears stepped
  exact (sound.kept still).leaks pc queued given ahead same rfl

def Undisturbed (owner : OwnershipWorld) : Prop :=
  owner.switching = true → ∀ d ∈ owner.deleted, d.1 ∉ owner.world.manager.currentEpochTrWrapper.transactionList

theorem Sound.strictlyOwned (sound : owner.Sound crypto proto) (undisturbed : owner.Undisturbed) :
    owner.StrictlyOwned where
  owned := sound.owned
  dropped := by
    cases switching : owner.switching with
    | false => exact sound.owned.current switching
    | true => exact undisturbed switching

theorem Idle.timely {move : OwnershipMove} (idle : owner.Idle move) : owner.Timely move := by
  intro clears given _ queued
  rw [idle clears] at queued
  cases queued

/-- Where no transaction has finished the call deletes nothing. -/
theorem Kept.nothing_deleted (kept : owner.Kept crypto proto) (pc : owner.world.manager.pc = .generate)
    (empty : owner.world.manager.storage.transactionQueue = []) :
    (owner.clearTransactionForEpoch owner.world.manager.epoch).deleted = owner.deleted := by
  have cleared := kept.cleared pc (by simp [empty])
  rw [empty, ← (TransactionMap.clearTransactionForEpoch_spec ..).1] at cleared
  show owner.deleted ++ List.map _ (TransactionMap.clearTransactionForEpoch _ _ _).2 = _
  rw [cleared.eq_nil]
  exact List.append_nil _

theorem step_undisturbed {owner after : OwnershipWorld} {move : OwnershipMove}
    (stepped : owner.step crypto proto move = some after) (idle : owner.Idle move) (sound : owner.Sound crypto proto)
    (undisturbed : owner.Undisturbed) : after.Undisturbed := by
  cases move with
  | advanceEpoch =>
    cases stepped
    exact undisturbed
  | collect tr =>
    obtain ⟨-, stepped⟩ := Option.ite_none_right_eq_some.mp stepped
    cases stepped
    exact undisturbed
  | manager move =>
    cases move with
    | epochTransactionFinishSignal | execute | create =>
      obtain ⟨-, next, made, rfl⟩ := step_others (fun _ same => by cases same) stepped
      have frame := ManagerWorld.step_frame made fun _ same => by cases same
      intro switching d member listed
      rcases frame.current d.1 listed with before | new
      · exact undisturbed switching d member before
      · cases new
    | manager answer =>
      rcases Bool.eq_false_or_eq_true owner.switching with switching | switching
      · simp only [OwnershipWorld.step, switching, if_true] at stepped
        cases stepped
        intro switching
        cases switching
      · by_cases pc : owner.world.manager.pc = .generate
        · have clears : owner.Clears (.manager (.manager answer)) := ⟨switching, pc⟩
          have kept := sound.kept switching
          obtain ⟨stored, -, -, -, current, rfl⟩ := step_clears clears stepped
          intro _ d member
          change d ∈ (owner.clearTransactionForEpoch owner.world.manager.epoch).deleted at member
          rw [kept.nothing_deleted pc (idle clears)] at member
          show d.1 ∉ stored.currentEpochTrWrapper.transactionList
          rw [current]
          exact (kept.owned switching).current switching d member
        · simp only [OwnershipWorld.step] at stepped
          rw [if_neg (by simp [switching]), if_neg pc] at stepped
          obtain ⟨-, stepped⟩ := Option.ite_none_right_eq_some.mp stepped
          obtain ⟨next, -, rfl⟩ := Option.map_eq_some_iff.mp stepped
          intro switching_
          rw [show owner.switching = true from switching_] at switching
          cases switching

theorem step_disturbs {owner after : OwnershipWorld} {move : OwnershipMove}
    (stepped : owner.step crypto proto move = some after) (busy : ¬ owner.Idle move)
    (sound : owner.Sound crypto proto) : ¬ after.StrictlyOwned := by
  intro strictly
  by_cases timely : owner.Timely move
  · rw [Idle] at busy
    push Not at busy
    obtain ⟨clears, finished⟩ := busy
    obtain ⟨still, pc⟩ := clears.eq
    have kept := sound.kept still
    obtain ⟨tr, queued⟩ := List.exists_mem_of_ne_nil _ finished
    obtain ⟨stored, -, -, -, current, rfl⟩ := step_clears clears stepped
    have cleared := kept.cleared pc fun tr queued epoch given => timely clears (tr, epoch) given queued
    rw [← (TransactionMap.clearTransactionForEpoch_spec ..).1] at cleared
    have deleted : (tr, owner.world.manager.epoch) ∈
        (owner.clearTransactionForEpoch owner.world.manager.epoch).deleted := by
      refine List.mem_append_right _ (List.mem_map_of_mem ?_)
      exact cleared.mem_iff.mpr queued
    refine strictly.dropped _ deleted ?_
    show tr ∈ stored.currentEpochTrWrapper.transactionList
    rw [current]
    exact kept.queued_listed pc queued
  · exact step_breaks stepped timely sound strictly.owned

theorem initial_sound (blockNum : Nat) (files : Nat → Option Block) (heap : Heap) :
    (initial blockNum files heap).Sound crypto proto :=
  (initial_kept blockNum files heap).sound rfl

end OwnershipWorld

open OwnershipWorld in
/-- In a run in which no epoch number wraps each transaction is deleted when it should be if and only if no transaction
finishes in an epoch that `CommController` had passed when it was handed out; and no list that the manager has holds a
deleted transaction, not even the one it is about to drop, if and only if no transaction finishes at all. -/
theorem transaction_ownership_iff (crypto : BlockCrypto) (proto : TransactionProto) (blockNum : Nat)
    (files : Nat → Option Block) (heap : Heap) (moves : List OwnershipMove) (final : OwnershipWorld)
    (short : Runs.Along (step crypto proto) Short (initial blockNum files heap) moves)
    (ran : (initial blockNum files heap).run crypto proto moves = some final) :
    ((∀ front reached, front <+: moves →
      (initial blockNum files heap).run crypto proto front = some reached → reached.Owned) ↔
        Runs.Along (step crypto proto) Timely (initial blockNum files heap) moves) ∧
    ((∀ front reached, front <+: moves →
      (initial blockNum files heap).run crypto proto front = some reached → reached.StrictlyOwned) ↔
        Runs.Along (step crypto proto) Idle (initial blockNum files heap) moves) := by
  have sound : (initial blockNum files heap).Sound crypto proto := initial_sound blockNum files heap
  constructor
  · exact Runs.good_iff_along (Sound crypto proto) Owned (fun stepped short timely sound =>
      step_sound stepped short timely sound) Sound.owned (fun stepped _ late sound => step_breaks stepped late sound)
      ran short sound
  · refine Runs.good_iff_along (fun owner => owner.Sound crypto proto ∧ owner.Undisturbed) StrictlyOwned
      (fun stepped short idle holds => ?_) (fun holds => holds.1.strictlyOwned holds.2)
      (fun stepped _ busy holds => step_disturbs stepped busy holds.1) ran short ⟨sound, fun switching => by cases switching⟩
    obtain ⟨sound, undisturbed⟩ := holds
    exact ⟨step_sound stepped short idle.timely sound, step_undisturbed stepped idle sound undisturbed⟩

section OneEpoch

def oneEpoch (early late : List OwnershipMove) : List OwnershipMove :=
  let go := OwnershipMove.manager (.manager none)
  early ++ [.collect 1, .manager (.manager (some [1])), go] ++ late ++
    [go, .collect 3, .manager (.manager (some [3])), go, .manager (.execute 1 .COMMIT ⟨[], []⟩),
      .manager (.epochTransactionFinishSignal 1), go, go, go, go, go]

open OwnershipWorld in
/-- Transaction 1 is deleted by the call for epoch 1, just before its list is dropped. -/
theorem transaction_ownership_in_time :
    ∃ final, (initial 0 (fun _ => none) abortOnceHeap).run counterCrypto counterProto (oneEpoch [] [.advanceEpoch]) =
        some final ∧ final.deleted = [(1, 1)] ∧
      (∀ front reached, front <+: oneEpoch [] [.advanceEpoch] →
        (initial 0 (fun _ => none) abortOnceHeap).run counterCrypto counterProto front =
          some reached → reached.Owned) ∧
      ¬ ∀ front reached, front <+: oneEpoch [] [.advanceEpoch] →
        (initial 0 (fun _ => none) abortOnceHeap).run counterCrypto counterProto front =
          some reached → reached.StrictlyOwned := by
  have shown : ((initial 0 (fun _ => none) abortOnceHeap).run counterCrypto counterProto
      (oneEpoch [] [.advanceEpoch])).map deleted = some [(1, 1)] := by
    decide +kernel
  obtain ⟨final, ran, deleted⟩ := Option.map_eq_some_iff.mp shown
  have short : Runs.Along (step counterCrypto counterProto) Short (initial 0 (fun _ => none) abortOnceHeap)
      (oneEpoch [] [.advanceEpoch]) := by
    decide +kernel
  have timely : Runs.Along (step counterCrypto counterProto) Timely (initial 0 (fun _ => none) abortOnceHeap)
      (oneEpoch [] [.advanceEpoch]) := by
    decide +kernel
  have busy : ¬ Runs.Along (step counterCrypto counterProto) Idle (initial 0 (fun _ => none) abortOnceHeap)
      (oneEpoch [] [.advanceEpoch]) := by
    decide +kernel
  obtain ⟨owned, strictly⟩ := transaction_ownership_iff _ _ _ _ _ _ _ short ran
  exact ⟨final, ran, deleted, owned.mpr timely, fun all => busy (strictly.mp all)⟩

/-- Handed out when `CommController::epoch` is 2, transaction 1 finishes in epoch 1 and is never deleted. -/
theorem late_hand_out_leaks :
    ∃ final, (OwnershipWorld.initial 0 (fun _ => none) abortOnceHeap).run counterCrypto counterProto
        (oneEpoch [.advanceEpoch] []) = some final ∧
      final.world.manager.finishings = [(1, 1)] ∧ final.deleted = [] ∧ final.transactionMap 2 = [1, 3] ∧
      ¬ final.Owned := by
  have shown : ((OwnershipWorld.initial 0 (fun _ => none) abortOnceHeap).run counterCrypto counterProto
      (oneEpoch [.advanceEpoch] [])).map (fun final =>
        (final.world.manager.finishings, final.deleted, final.transactionMap 2)) =
      some ([(1, 1)], [], [1, 3]) := by
    decide +kernel
  obtain ⟨final, ran, same⟩ := Option.map_eq_some_iff.mp shown
  simp only [Prod.mk.injEq] at same
  obtain ⟨finishings, deleted, left⟩ := same
  refine ⟨final, ran, finishings, deleted, left, fun owned => ?_⟩
  have all := owned.deleted
  rw [deleted, finishings] at all
  exact absurd all.length_eq (by decide)

end OneEpoch

end Blockchain
