import MyBlockchain.Comm.RemoteAdmission
import MyBlockchain.Comm.TransactionIDs
import MyBlockchain.Coordinator.OwnWrites

namespace Blockchain

/-- No transaction of a message comes with reads or writes. -/
def ProxyBroadcast.WithoutRWSets (proto : CommProto) (message : ProxyBroadcast) : Prop :=
  ∀ transactionSet ∈ message.set, ∀ transactionRaw ∈ transactionSet.transaction, ∀ transaction,
    CommController.Reads proto transactionRaw transaction → transaction.kvrwSet = .empty

namespace UserCollector

variable {crypto : CommCrypto} {proto : CommProto} {helper after : SHA256Helper} {items : List UserRequest}
  {transactionList : List MockTransaction}

theorem collect_empty (collected : collect crypto proto helper items = some (after, transactionList)) :
    ∀ transaction ∈ transactionList, transaction.kvrwSet = .empty := by
  induction items generalizing helper transactionList with
  | nil =>
    cases collected
    exact fun _ member => by cases member
  | cons userRequest rest ih =>
    rw [collect] at collected
    obtain ⟨-, collected⟩ := Option.ite_none_right_eq_some.mp collected
    obtain ⟨-, collected⟩ := Option.ite_none_right_eq_some.mp collected
    obtain ⟨⟨last, more⟩, others, same⟩ := Option.map_eq_some_iff.mp collected
    cases same
    exact List.forall_mem_cons.mpr ⟨rfl, ih others⟩

theorem handOver_empty {request : EpochRequest}
    (made : makeRequest crypto proto helper items = some (after, transactionList, request)) (responseRaw : Bytes) :
    ∀ transaction ∈ (handOver proto transactionList responseRaw).1, transaction.kvrwSet = .empty := by
  obtain ⟨-, made⟩ := Option.ite_none_left_eq_some.mp made
  obtain ⟨⟨collected, list⟩, looped, same⟩ := Option.map_eq_some_iff.mp made
  cases same
  intro transaction member
  obtain ⟨before, inList, rfl⟩ := List.mem_map.mp member
  exact collect_empty looped before inList

end UserCollector

namespace CommController

variable (crypto : CommCrypto) {proto : CommProto} {comm : CommController}

def QueuesEmpty (comm : CommController) : Prop :=
  ∀ entry ∈ comm.broadcastTransactions, entry.transaction.kvrwSet = .empty

theorem QueuesEmpty.push (empty : comm.QueuesEmpty) {entry : Broadcast} (new : entry.transaction.kvrwSet = .empty)
    (sha256Helper : SHA256Helper) :
    QueuesEmpty { comm with sha256Helper, broadcastTransactions := comm.broadcastTransactions ++ [entry] } := by
  intro other member
  rcases List.mem_append.mp member with old | last
  · exact empty other old
  · rw [List.mem_singleton.mp last]
    exact new

theorem receiveMessage_empty {arrival : Nat × ProxyBroadcast} (without : arrival.2.WithoutRWSets proto)
    (empty : comm.QueuesEmpty) : (receiveMessage crypto proto comm arrival).1.QueuesEmpty := by
  refine CheckedLoop.run_invariant QueuesEmpty (fun comm transactionSet listed before => ?_) empty
  unfold receiveSet
  split
  · exact before
  · refine CheckedLoop.run_invariant QueuesEmpty (fun comm transactionRaw member before => ?_) before
    have step := @receiveTransaction_cases crypto proto transactionSet comm transactionRaw
    generalize receiveTransaction crypto proto transactionSet comm transactionRaw = result at step
    cases step with
    | refused => exact before
    | @admitted transaction reads _ sha256Helper =>
      exact before.push (without transactionSet listed transactionRaw member transaction reads) sha256Helper

theorem receiveFromLocalServer_empty (proto : CommProto) {responseRaw : Bytes} {transactions : List MockTransaction}
    (collected : ∀ transaction ∈ transactions, transaction.kvrwSet = .empty) (empty : comm.QueuesEmpty) :
    (receiveFromLocalServer crypto proto comm responseRaw transactions).1.QueuesEmpty := by
  unfold receiveFromLocalServer
  dsimp only
  split
  · exact empty
  · have looped : ∀ transactionSet,
        (CheckedLoop.run (receiveLocalTransaction crypto proto transactionSet) comm transactions).1.QueuesEmpty := by
      refine fun transactionSet =>
        CheckedLoop.run_invariant QueuesEmpty (fun comm transaction member before => ?_) empty
      unfold receiveLocalTransaction
      split
      · dsimp only
        split
        · exact before.push (collected transaction member) _
        · exact before
      · exact before
    split
    · next after stopped =>
      obtain rfl : _ = after := congrArg Prod.fst stopped
      exact looped _
    · next after completed =>
      obtain rfl : _ = after := congrArg Prod.fst completed
      split
      · exact looped _
      · exact looped _

end CommController

/-- The comm module with the helper of its collector, and the rest of the server. -/
structure BlockNode (Slot : Type) where
  comm : CommController
  collectorHelper : SHA256Helper
  system : BlockServer Slot

inductive BlockNodeMove
  | users (epoch : Nat) (items : List UserRequest) (responseRaw : Bytes)
  | peer (arrival : Nat × ProxyBroadcast)
  | dequeue (r : Ref) (entry : Broadcast)
  | serve (move : BlockServerMove)

namespace BlockNode

variable {Slot : Type}

def initial (db : Contents Slot) (blockNum : Nat) (files : Nat → Option Block) : BlockNode Slot where
  comm := .new (blockNum + 1)
  collectorHelper := ⟨[], false, false⟩
  system := .initial (fun _ => .new) db blockNum files

section Step

variable [DecidableEq Slot] (slotOf : SlotOf Slot) (chaincode : Chaincode) (blockCrypto : BlockCrypto)
  (crypto : CommCrypto) (proto : CommProto)

/-- A round of the collector and the local receiver, a message of another server, a transaction that leaves
`broadcastTransactions`, or a step of the rest. No CHECK fails in it. -/
def step (node : BlockNode Slot) : BlockNodeMove → Option (BlockNode Slot)
  | .users epoch items responseRaw => do
    let (collectorHelper, transactionList, _) ← UserCollector.makeRequest crypto proto node.collectorHelper items
    let (transactions, proof) := UserCollector.handOver proto transactionList responseRaw
    match CommController.receiveFromLocalServer crypto proto { node.comm with epoch } proof transactions with
    | (comm, true) => some { node with comm, collectorHelper }
    | (_, false) => none
  | .peer arrival =>
    match CommController.receiveMessage crypto proto node.comm arrival with
    | (comm, true) => some { node with comm }
    | (_, false) => none
  | .dequeue r entry =>
    if entry ∈ node.comm.broadcastTransactions then do
      let system ← node.system.step slotOf chaincode blockCrypto proto.toTransactionProto (.create r entry.transaction)
      let broadcastTransactions := node.comm.broadcastTransactions.erase entry
      some { node with comm.broadcastTransactions := broadcastTransactions, system }
    else none
  | .serve (.create _ _) => none
  | .serve move => do
    let system ← node.system.step slotOf chaincode blockCrypto proto.toTransactionProto move
    some { node with system }

def run (node : BlockNode Slot) (moves : List BlockNodeMove) : Option (BlockNode Slot) :=
  moves.foldlM (BlockNode.step slotOf chaincode blockCrypto crypto proto) node

end Step

structure Untainted (slotOf : SlotOf Slot) (chaincode : Chaincode) (node : BlockNode Slot) : Prop where
  queue : node.comm.QueuesEmpty
  handOff : node.system.HandOff
  rwSets : node.system.RWSets slotOf chaincode

variable {slotOf : SlotOf Slot} {chaincode : Chaincode} {blockCrypto : BlockCrypto} {crypto : CommCrypto}
  {proto : CommProto} {node next : BlockNode Slot}

theorem initial_untainted (db : Contents Slot) (blockNum : Nat) (files : Nat → Option Block) :
    (initial db blockNum files).Untainted slotOf chaincode where
  queue _ member := by cases member
  handOff := BlockServer.initial_handOff _ db blockNum files
  rwSets := BlockServer.initial_rwSets (fun _ => rfl) db blockNum files

theorem Untainted.step [DecidableEq Slot] (untainted : node.Untainted slotOf chaincode) {move : BlockNodeMove}
    (without : ∀ arrival, move = .peer arrival → arrival.2.WithoutRWSets proto)
    (step : node.step slotOf chaincode blockCrypto crypto proto move = some next) :
    next.Untainted slotOf chaincode := by
  unfold BlockNode.step at step
  split at step
  case h_1 epoch items responseRaw =>
    obtain ⟨⟨helper, transactionList, request⟩, made, step⟩ := Option.bind_eq_some_iff.mp step
    have queue := @CommController.receiveFromLocalServer_empty crypto { node.comm with epoch } proto responseRaw _
      (UserCollector.handOver_empty made responseRaw) untainted.queue
    dsimp only [UserCollector.handOver] at step queue
    split at step
    · next comm received =>
      cases step
      rw [received] at queue
      exact ⟨queue, untainted.handOff, untainted.rwSets⟩
    · cases step
  case h_2 arrival =>
    have queue := CommController.receiveMessage_empty crypto (without arrival rfl) untainted.queue
    split at step
    · next comm received =>
      cases step
      rw [received] at queue
      exact ⟨queue, untainted.handOff, untainted.rwSets⟩
    · cases step
  case h_3 r entry =>
    obtain ⟨queued, step⟩ := Option.ite_none_right_eq_some.mp step
    obtain ⟨system, stepped, same⟩ := Option.bind_eq_some_iff.mp step
    cases same
    refine ⟨fun other member => untainted.queue other (List.mem_of_mem_erase member),
      untainted.handOff.step stepped, untainted.rwSets.step untainted.handOff (fun _ transaction made => ?_) stepped⟩
    cases made
    exact untainted.queue entry queued
  case h_4 => cases step
  case h_5 move others =>
    obtain ⟨system, stepped, same⟩ := Option.bind_eq_some_iff.mp step
    cases same
    refine ⟨untainted.queue, untainted.handOff.step stepped,
      untainted.rwSets.step untainted.handOff (fun r transaction made => ?_) stepped⟩
    exact absurd made (others r transaction)

theorem Untainted.run [DecidableEq Slot] (untainted : node.Untainted slotOf chaincode) {moves : List BlockNodeMove}
    (without : ∀ arrival, .peer arrival ∈ moves → arrival.2.WithoutRWSets proto)
    (ran : node.run slotOf chaincode blockCrypto crypto proto moves = some next) :
    next.Untainted slotOf chaincode := by
  have along : Runs.Along (BlockNode.step slotOf chaincode blockCrypto crypto proto)
      (fun _ move => ∀ arrival, move = .peer arrival → arrival.2.WithoutRWSets proto) node moves := by
    apply Runs.along_of_forall
    rintro move member _ arrival rfl
    exact without arrival member
  exact Runs.invariant_along _ (fun stepped pure untainted => untainted.step pure stepped) ran along untainted

end BlockNode

/-- In every run in which no message brings a transaction with reads or writes, `executeList` starts with empty
sets, and what it leaves in a set is what the chaincode adds. -/
theorem own_writes {Slot : Type} [DecidableEq Slot] (slotOf : SlotOf Slot) (chaincode : Chaincode)
    (blockCrypto : BlockCrypto) (crypto : CommCrypto) (proto : CommProto) (db : Contents Slot) (blockNum : Nat)
    (files : Nat → Option Block) (moves : List BlockNodeMove) (node : BlockNode Slot)
    (ran : (BlockNode.initial db blockNum files).run slotOf chaincode blockCrypto crypto proto moves = some node)
    (without : ∀ arrival, .peer arrival ∈ moves → arrival.2.WithoutRWSets proto) :
    node.system.OwnWrites slotOf chaincode := by
  have untainted := (BlockNode.initial_untainted db blockNum files).run without ran
  exact untainted.rwSets.ownWrites untainted.handOff

section CreateData

open Varint

/-- The only set with a write that is read: one of the table of the test chaincode. -/
def peerSet : KVRWSet :=
  let write := { table := bytesOf "test_table", key := bytesOf "peer", isDelete := false, value := bytesOf "7" }
  { reads := [], writes := [write] }

def peerSetToBytes (rwSet : KVRWSet) : Bytes :=
  rwSet.writes.flatMap fun write =>
    0x1a :: delimited (0x0a :: delimited write.table ++ 0x12 :: delimited write.key ++ 0x2a :: delimited write.value)

def readHeaded (bytes : Bytes) : Option TransactionPayload :=
  match bytes with
  | 0x0a :: rest => do
    let (size, rest) ← readVarint64 rest
    let (header, rest) := rest.splitAt size
    match rest with
    | 0x22 :: rest => do
      let (size, rest) ← readVarint64 rest
      some { TransactionPayload.default with header, digest := rest.take size }
    | _ => none
  | _ => none

def headedProto : CommProto where
  payloadToBytes payload := 0x0a :: delimited payload.header ++ 0x22 :: delimited payload.digest
  parsePayload := readHeaded
  rwSetToBytes := peerSetToBytes
  parseRWSet bytes :=
    if bytes = [] then some .empty else if bytes = peerSetToBytes peerSet then some peerSet else none
  readPayload bytes := (readHeaded bytes).getD .default
  readResponse _ := { epoch := 0, request := { requestBatchSize := 0, batchHash := [] }, nonce := 0, signature := [] }

def headedCrypto : CommCrypto :=
  { paddedCrypto with sha256 := fun bytes => (bytes ++ List.replicate 32 0).take 32 }

def createData (epoch : Nat) (kvrwSet : KVRWSet) : MockTransaction :=
  let transactionPayload := { TransactionPayload.default with
    header := bytesOf "create_data"
    digest := [UInt8.ofNat epoch] }
  { MockTransaction.new with epoch, transactionPayload, kvrwSet }

def createDataSet (epoch : Nat) (kvrwSet : KVRWSet) : TransactionsWithProof :=
  let serialized := (createData epoch kvrwSet).serializeToString headedProto.toTransactionProto headedCrypto.sha256
  { proof := [], transaction := [serialized.1] }

/-- One transaction in epoch 1 and one in epoch 2, up to the point where a worker is to execute the first. -/
def toExecution (kvrwSet : KVRWSet) : List BlockNodeMove :=
  let message epoch kvrwSet := .peer (epoch, { epoch, set := [createDataSet epoch kvrwSet] })
  let dequeue epoch kvrwSet := .dequeue epoch
    { transaction := (createData epoch kvrwSet).setTransactionID epoch, transactionSet := createDataSet epoch kvrwSet }
  let go := BlockServerMove.manager none
  let batch r := BlockServerMove.manager (some [r])
  let step := BlockServerMove.coordinator
  let work := BlockServerMove.worker 1
  [message 1 kvrwSet, message 2 .empty, dequeue 1 kvrwSet, dequeue 2 .empty] ++
    [batch 1, go, go, batch 2, go, go, go, step, step, step, step, work, step, step, step, step, work].map .serve

def toCommit : List BlockNodeMove :=
  let step := BlockServerMove.coordinator
  let work := BlockServerMove.worker 1
  [work, work, work, step, step, step, step, step, work, work].map .serve

def createDataRun (moves : List BlockNodeMove) : Option (BlockNode (Bytes × Bytes)) :=
  (BlockNode.initial (fun _ => none) 0 fun _ => none).run tableSlotOf (ORMTestChaincode.InvokeChaincode counterInputs)
    counterCrypto headedCrypto headedProto moves

theorem own_writes_create_data :
    ∃ node, createDataRun (toExecution .empty) = some node ∧ (node.system.server.workers 1).pc = .executing [1] ∧
      node.system.OwnWrites tableSlotOf (ORMTestChaincode.InvokeChaincode counterInputs) := by
  have shown : (createDataRun (toExecution .empty)).map (fun node => (node.system.server.workers 1).pc) =
      some (.executing [1]) := by
    decide +kernel
  obtain ⟨node, ran, pc⟩ := Option.map_eq_some_iff.mp shown
  refine ⟨node, ran, pc, own_writes _ _ _ _ _ _ _ _ _ _ ran fun arrival peer => ?_⟩
  have read : ∀ epoch ∈ [1, 2], ∀ transactionRaw ∈ (createDataSet epoch .empty).transaction,
      CommController.Reads headedProto transactionRaw (createData epoch .empty) := by
    decide +kernel
  obtain ⟨epoch, known, rfl⟩ : ∃ epoch ∈ [1, 2],
      arrival = (epoch, { epoch, set := [createDataSet epoch .empty] }) := by
    simpa [toExecution] using peer
  intro transactionSet listed transactionRaw member transaction reads
  cases List.mem_singleton.mp listed
  have same := (read epoch known transactionRaw member).symm.trans reads
  obtain rfl : createData epoch .empty = transaction := by simpa using same
  rfl

/-- The write of `peerSet` reaches the database, though no chaincode has made it. -/
theorem injected_write_committed :
    (∃ node, createDataRun (toExecution peerSet) = some node ∧
      ¬ node.system.OwnWrites tableSlotOf (ORMTestChaincode.InvokeChaincode counterInputs)) ∧
    ∃ node, createDataRun (toExecution peerSet ++ toCommit) = some node ∧
      selectDB tableSlotOf node.system.server.shared.database.db (bytesOf "test_table", bytesOf "peer") = bytesOf "7" := by
  have started : (createDataRun (toExecution peerSet)).map (fun node =>
      (node.system.server.workerIDs, (node.system.server.workers 1).pc, (node.system.server.shared.heap 1).kvrwSet)) =
      some ([1], .executing [1], peerSet) := by
    decide +kernel
  have committed : (createDataRun (toExecution peerSet ++ toCommit)).map (fun node =>
      selectDB tableSlotOf node.system.server.shared.database.db (bytesOf "test_table", bytesOf "peer")) =
      some (bytesOf "7") := by
    decide +kernel
  refine ⟨?_, Option.map_eq_some_iff.mp committed⟩
  obtain ⟨node, ran, found⟩ := Option.map_eq_some_iff.mp started
  simp only [Prod.mk.injEq] at found
  obtain ⟨ids, pc, rwSet⟩ := found
  refine ⟨node, ran, fun own => ?_⟩
  have empty := own.starts 1 (by rw [ids]; exact .head _) 1 [] pc
  rw [rwSet] at empty
  exact absurd empty (by decide)

end CreateData

end Blockchain
