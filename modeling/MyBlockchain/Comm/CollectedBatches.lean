import MyBlockchain.Comm.BatchHandOver
import MyBlockchain.Comm.EpochServer
import MyBlockchain.Library.WireFormat

namespace Blockchain

/-- What its fields of 32 bits hold, with the digest of a batch. -/
def EpochRequest.Fits (request : EpochRequest) : Prop :=
  request.requestBatchSize < 2 ^ 32 ∧ request.batchHash.length = 32

def EpochResponse.Fits (response : EpochResponse) : Prop :=
  response.epoch < 2 ^ 32 ∧ response.request.Fits ∧ response.nonce < 2 ^ 32 ∧ response.signature.length ≤ 2 ^ 20

/-- A round of `UserCollector::run`: the items that it dequeues, the requests of other servers that come to the epoch
server before its own, and the clock of the epoch server for that. -/
structure CollectorRound where
  items : List UserRequest
  others : List EpochRound
  received : Int
  processed : Int

namespace UserCollector

variable (crypto : CommCrypto) (proto : CommProto) (writeRequest : EpochRequest → Bytes)
  (readRequest : Bytes → EpochRequest) (writeResponse : EpochResponse → Bytes) (rsaEncrypt : Bytes → Bytes)

/-- A round up to what it calls `newTransactionHandle` with; `none` as in `makeRequest`. -/
def collectRound (helper : SHA256Helper) (server : EpochServer) (round : CollectorRound) :
    Option (SHA256Helper × EpochServer × List MockTransaction × Bytes) :=
  (makeRequest crypto proto helper round.items).map fun (helper, transactionList, request) =>
    let server := (server.serve readRequest rsaEncrypt round.others).1
    let (server, response) :=
      server.process readRequest rsaEncrypt ⟨writeRequest request, round.received, round.processed⟩
    (helper, server, handOver proto transactionList (writeResponse response))

def collectRounds (helper : SHA256Helper) (server : EpochServer) :
    List CollectorRound → Option (List (List MockTransaction × Bytes))
  | [] => some []
  | round :: rest =>
    (collectRound crypto proto writeRequest readRequest writeResponse rsaEncrypt helper server round).bind fun (helper, server, batch) =>
      (collectRounds helper server rest).map (batch :: ·)

structure Proven (batch : List MockTransaction × Bytes) : Prop where
  sized : batch.1.length = (proto.readResponse batch.2).request.requestBatchSize
  hashed : ∃ last, (digests batch.1).getLast? = some last ∧
    (proto.readResponse batch.2).request.batchHash = crypto.sha256 last
  signed : (proto.readResponse batch.2).signature = rsaEncrypt (proto.readResponse batch.2).message
  epochs : ∀ transaction ∈ batch.1, transaction.epoch = (proto.readResponse batch.2).epoch

variable {crypto proto writeRequest readRequest writeResponse rsaEncrypt} {server : EpochServer}

theorem process_bounded (server : EpochServer) (round : EpochRound) (bounded : server.epochNum < 2 ^ 32) :
    (server.process readRequest rsaEncrypt round).1.epochNum < 2 ^ 32 := by
  rcases server.process_epochNum readRequest rsaEncrypt round with turned | same
  · rw [turned]
    exact Nat.mod_lt _ (by decide)
  · rw [same]
    exact bounded

theorem serve_bounded (server : EpochServer) (rounds : List EpochRound) (bounded : server.epochNum < 2 ^ 32) :
    (server.serve readRequest rsaEncrypt rounds).1.epochNum < 2 ^ 32 := by
  induction rounds generalizing server with
  | nil => exact bounded
  | cons round rest ih => exact ih _ (@process_bounded readRequest rsaEncrypt server round bounded)

theorem digests_setEpoch (transactionList : List MockTransaction) (epoch : Nat) :
    digests (transactionList.map fun transaction => transaction.setEpoch epoch) = digests transactionList := by
  rw [digests, List.map_map]
  rfl

section Rounds

variable (requests : ∀ request : EpochRequest, request.Fits → readRequest (writeRequest request) = request)
  (responses : ∀ response : EpochResponse, response.Fits → proto.readResponse (writeResponse response) = response)
  (hashes : ∀ data, (crypto.sha256 data).length = 32) (signatures : ∀ message, (rsaEncrypt message).length ≤ 2 ^ 20)
include requests responses hashes signatures

theorem collectRound_spec {helper later : SHA256Helper} {next : EpochServer} {round : CollectorRound}
    {batch : List MockTransaction × Bytes} (fits : round.items.length < 2 ^ 32) (bounded : server.epochNum < 2 ^ 32)
    (collected : collectRound crypto proto writeRequest readRequest writeResponse rsaEncrypt helper server round =
      some (later, next, batch)) :
    next.epochNum < 2 ^ 32 ∧ digests batch.1 = round.items.map UserRequest.digest ∧
      Proven crypto proto rsaEncrypt batch := by
  obtain ⟨⟨fed, transactionList, request⟩, made, same⟩ := Option.map_eq_some_iff.mp collected
  obtain ⟨list, last, ends, asked⟩ := makeRequest_spec made
  have length : transactionList.length = round.items.length := by
    simpa [digests] using congrArg List.length list
  have small : request.Fits := by
    rw [asked]
    exact ⟨length ▸ fits, hashes last⟩
  have arrives := requests request small
  have before := @serve_bounded readRequest rsaEncrypt server round.others bounded
  dsimp only at same
  generalize (server.serve readRequest rsaEncrypt round.others).1 = waiting at same before
  have after := @process_bounded readRequest rsaEncrypt waiting ⟨writeRequest request, round.received, round.processed⟩ before
  have own : (waiting.process readRequest rsaEncrypt ⟨writeRequest request, round.received, round.processed⟩).2.request =
    readRequest (writeRequest request) := rfl
  have epoch : (waiting.process readRequest rsaEncrypt ⟨writeRequest request, round.received, round.processed⟩).2.epoch =
    waiting.epochNum := rfl
  have nonce : (waiting.process readRequest rsaEncrypt ⟨writeRequest request, round.received, round.processed⟩).2.nonce <
    2 ^ 32 := Nat.mod_lt _ (by decide)
  have signed : (waiting.process readRequest rsaEncrypt ⟨writeRequest request, round.received, round.processed⟩).2.signature =
    rsaEncrypt (waiting.process readRequest rsaEncrypt
      ⟨writeRequest request, round.received, round.processed⟩).2.message := rfl
  rw [arrives] at own
  cases answered : waiting.process readRequest rsaEncrypt ⟨writeRequest request, round.received, round.processed⟩ with
  | mk server' response =>
  rw [answered] at same after own epoch nonce signed
  have reads := responses response ⟨epoch ▸ before, own ▸ small, nonce, signed ▸ signatures _⟩
  cases same
  refine ⟨after, ?_, ?_, ?_, ?_, ?_⟩
  · rw [handOver, digests_setEpoch]
    exact list
  · rw [handOver, reads, List.length_map, own, asked]
  · refine ⟨last, ?_, ?_⟩
    · rw [handOver, digests_setEpoch]
      exact ends
    · rw [handOver, reads, own, asked]
  · rw [handOver, reads]
    exact signed
  · intro transaction member
    rw [handOver, reads] at member ⊢
    obtain ⟨old, -, rfl⟩ := List.mem_map.mp member
    rfl

theorem collectRounds_spec {rounds : List CollectorRound} {helper : SHA256Helper}
    {batches : List (List MockTransaction × Bytes)} (fits : ∀ round ∈ rounds, round.items.length < 2 ^ 32)
    (bounded : server.epochNum < 2 ^ 32)
    (collected : collectRounds crypto proto writeRequest readRequest writeResponse rsaEncrypt helper server rounds =
      some batches) :
    digests (batches.flatMap Prod.fst) = (rounds.flatMap CollectorRound.items).map UserRequest.digest ∧
      ∀ batch ∈ batches, Proven crypto proto rsaEncrypt batch := by
  induction rounds generalizing helper server batches with
  | nil =>
    cases collected
    exact ⟨rfl, fun _ member => by cases member⟩
  | cons round rest ih =>
    obtain ⟨⟨later, next, batch⟩, first, more⟩ := Option.bind_eq_some_iff.mp collected
    obtain ⟨others, further, rfl⟩ := Option.map_eq_some_iff.mp more
    obtain ⟨bounded', list, proven⟩ := collectRound_spec requests responses hashes signatures (fits round (.head _)) bounded first
    obtain ⟨lists, all⟩ := ih (fun round member => fits round (.tail _ member)) bounded' further
    constructor
    · rw [List.flatMap_cons, List.flatMap_cons, List.map_append, ← list, ← lists, digests, List.map_append]
      rfl
    · intro other member
      rcases List.mem_cons.mp member with rfl | member
      · exact proven
      · exact all other member

open BatchHandOver in
/-- What users have sent reaches the local receiver as it was collected: nothing is lost, doubled or out of order, and
each batch comes with the signed proof of its own size, hash and epoch. -/
theorem collected_batches_received {rounds : List CollectorRound} {batches : List (List MockTransaction × Bytes)}
    {maxSpins : Nat} {moves : List (HandOverMove MockTransaction Bytes)} {system : BatchHandOver MockTransaction Bytes}
    (now : Int) (helper : SHA256Helper) (fits : ∀ round ∈ rounds, round.items.length < 2 ^ 32)
    (collected : collectRounds crypto proto writeRequest readRequest writeResponse rsaEncrypt helper (.start now) rounds =
      some batches)
    (ran : moves.foldlM (step (fun responseRaw => (proto.readResponse responseRaw).request.requestBatchSize) maxSpins)
      BatchHandOver.start = some system)
    (handed : system.handed <+: batches) :
    digests (system.received.flatMap Prod.fst) <+: (rounds.flatMap CollectorRound.items).map UserRequest.digest ∧
      ∀ batch ∈ system.received, Proven crypto proto rsaEncrypt batch := by
  have first : (EpochServer.start now).epochNum < 2 ^ 32 := Nat.one_lt_two_pow (by decide)
  obtain ⟨lists, all⟩ := collectRounds_spec requests responses hashes signatures fits first collected
  have invariant := run_invariant ran fun batch member => (all batch (handed.subset member)).sized
  have received : system.received <+: batches := by
    rw [invariant.received_eq]
    exact (List.take_prefix _ _).trans handed
  refine ⟨?_, fun batch member => all batch (received.subset member)⟩
  obtain ⟨rest, rfl⟩ := received
  rw [← lists, List.flatMap_append, digests, digests, List.map_append]
  exact List.prefix_append _ _

end Rounds

end UserCollector

namespace EpochCodec

open WireFormat

/-- With this codec the collector can be run: it writes the fields as protobuf does. -/
def writeRequest (request : EpochRequest) : Bytes :=
  write (varintField 1 request.requestBatchSize ++ bytesField 2 request.batchHash)

def readRequest (bytes : Bytes) : EpochRequest :=
  let fields := (read bytes).getD []
  { requestBatchSize := lastVarint 1 fields % 2 ^ 32, batchHash := lastBytes 2 fields }

def writeResponse (response : EpochResponse) : Bytes :=
  write (varintField 1 response.epoch ++ (repeatedField 2 [writeRequest response.request] ++
    (varintField 3 response.nonce ++ bytesField 4 response.signature)))

/-- Requests that are found in more than one field are merged. -/
def readResponse (bytes : Bytes) : EpochResponse :=
  let fields := (read bytes).getD []
  { epoch := lastVarint 1 fields % 2 ^ 32, request := readRequest (bytesOf 2 fields).flatten,
    nonce := lastVarint 3 fields % 2 ^ 32, signature := lastBytes 4 fields }

theorem readRequest_writeRequest (request : EpochRequest) (fits : request.Fits) :
    readRequest (writeRequest request) = request := by
  have size : lastVarint 1 (varintField 1 request.requestBatchSize ++ bytesField 2 request.batchHash) =
      request.requestBatchSize := by
    simp [lastVarint]
  have hash : lastBytes 2 (varintField 1 request.requestBatchSize ++ bytesField 2 request.batchHash) =
      request.batchHash := by
    simp [lastBytes]
  rw [readRequest, writeRequest, read_write, Option.getD_some, size, hash, Nat.mod_eq_of_lt fits.1]

theorem readResponse_writeResponse (response : EpochResponse) (fits : response.Fits) :
    readResponse (writeResponse response) = response := by
  obtain ⟨epoch, request, nonce, -⟩ := fits
  rw [readResponse, writeResponse, read_write, Option.getD_some]
  generalize all : varintField 1 response.epoch ++ (repeatedField 2 [writeRequest response.request] ++
    (varintField 3 response.nonce ++ bytesField 4 response.signature)) = fields
  have asked : (bytesOf 2 fields).flatten = writeRequest response.request := by
    rw [← all]
    simp [bytesOf_repeatedField]
  have first : lastVarint 1 fields = response.epoch := by
    rw [← all]
    simp [lastVarint, varintsOf_repeatedField]
  have third : lastVarint 3 fields = response.nonce := by
    rw [← all]
    simp [lastVarint, varintsOf_repeatedField]
  have fourth : lastBytes 4 fields = response.signature := by
    rw [← all]
    simp [lastBytes, bytesOf_repeatedField_ne]
  rw [asked, first, third, fourth, readRequest_writeRequest _ request, Nat.mod_eq_of_lt epoch, Nat.mod_eq_of_lt nonce]

end EpochCodec

namespace UserCollector

def trustingCrypto : CommCrypto :=
  { sha256 := fun data => (data ++ List.replicate 32 0).take 32
    userSignHelper := ⟨fun _ _ => true⟩
    epochServerSignHelper := ⟨fun _ _ => true⟩ }

def parsingProto : CommProto := { signedProto with readResponse := EpochCodec.readResponse }

def twoRounds : List CollectorRound :=
  [⟨[⟨[], [7]⟩], [], 0, 0⟩, ⟨[⟨[], [8]⟩, ⟨[], [9]⟩], [⟨EpochCodec.writeRequest ⟨3, [5]⟩, 0, 1⟩], 2, 2⟩]

def twoBatches : List (List MockTransaction × Bytes) :=
  (collectRounds trustingCrypto parsingProto EpochCodec.writeRequest EpochCodec.readRequest EpochCodec.writeResponse
    (List.take 16) ⟨[], false, false⟩ (.start 0) twoRounds).getD []

def putTransaction : List (HandOverMove MockTransaction Bytes) :=
  [.enqueue, .transactions (.put .collector), .transactions (.next .collector), .transactions (.sema .collector .go),
    .transactions (.next .collector)]

def putProof : List (HandOverMove MockTransaction Bytes) :=
  [.enqueue, .proofs (.put .collector), .proofs (.next .collector), .proofs (.sema .collector .go),
    .proofs (.next .collector)]

def takeProof : List (HandOverMove MockTransaction Bytes) :=
  [.dequeue, .proofs (.sema .receiver .go), .proofs (.sema .receiver .go), .proofs (.next .receiver),
    .proofs (.take .receiver 0), .proofs (.next .receiver)]

def takeBatch (size : Nat) : List (HandOverMove MockTransaction Bytes) :=
  [.dequeue, .transactions (.sema .receiver .go), .transactions (.sema .receiver .go), .transactions (.next .receiver)] ++
    List.replicate size (.transactions (.take .receiver 0)) ++ [.transactions (.next .receiver)]

def twoBatchMoves : List (HandOverMove MockTransaction Bytes) :=
  match twoBatches with
  | [first, second] =>
    .newTransactionHandle first.1 first.2 :: putTransaction ++ putProof ++ takeProof ++
      .newTransactionHandle second.1 second.2 :: putTransaction ++ takeBatch 1 ++ putTransaction ++ putProof ++
      takeProof ++ takeBatch 2
  | _ => []

theorem collected_batches_received_two_rounds :
    (twoBatches.map fun batch => batch.1.map MockTransaction.epoch) = [[1], [2, 2]] ∧
    ∃ system : BatchHandOver MockTransaction Bytes,
      twoBatchMoves.foldlM (BatchHandOver.step
        (fun responseRaw => (parsingProto.readResponse responseRaw).request.requestBatchSize) 0) .start = some system ∧
      system.received = twoBatches ∧
      digests (system.received.flatMap Prod.fst) <+: [[7], [8], [9]] ∧
      ∀ batch ∈ system.received, Proven trustingCrypto parsingProto (List.take 16) batch := by
  have collected : collectRounds trustingCrypto parsingProto EpochCodec.writeRequest EpochCodec.readRequest
      EpochCodec.writeResponse (List.take 16) ⟨[], false, false⟩ (.start 0) twoRounds = some twoBatches := by
    decide +kernel
  have run : (twoBatchMoves.foldlM (BatchHandOver.step
      (fun responseRaw => (parsingProto.readResponse responseRaw).request.requestBatchSize) 0) .start).map
        (fun system => (system.handed, system.received)) = some (twoBatches, twoBatches) := by decide +kernel
  obtain ⟨system, ran, ends⟩ := Option.map_eq_some_iff.mp run
  obtain ⟨handed, received⟩ := Prod.mk.inj ends
  refine ⟨by decide +kernel, system, ran, received, ?_⟩
  exact collected_batches_received EpochCodec.readRequest_writeRequest EpochCodec.readResponse_writeResponse
    (fun data => by simp [trustingCrypto]) (fun message => by rw [List.length_take]; omega) 0 ⟨[], false, false⟩
    (by decide) collected ran (by rw [handed])

end UserCollector

end Blockchain
