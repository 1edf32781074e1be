import Mathlib.Data.List.Induction
import MyBlockchain.Comm.TransactionIDs

namespace Blockchain

inductive HashUse
  | transactionID (signature digest : Bytes)
  | verdict (transactionSet : TransactionsWithProof) (response : EpochResponse)
  deriving DecidableEq, Repr

inductive HashResult
  | tid (transactionID : Nat)
  | verdict (accepted : Bool)
  deriving DecidableEq, Repr

inductive HelperCall
  | reset
  | hash (data : Bytes)
  | execute (use : HashUse)
  deriving DecidableEq, Repr

def HashUse.result (crypto : CommCrypto) (use : HashUse) (digest : Bytes) : HashResult :=
  match use with
  | .transactionID _ _ => .tid (transactionIDOf digest)
  | .verdict _ response =>
    .verdict (response.request.batchHash = digest ∧
      crypto.epochServerSignHelper.rsaDecrypt response.message response.signature)

structure SharedHelper where
  sha256Helper : SHA256Helper
  outcomes : List (HashUse × HashResult)
  deriving DecidableEq, Repr

namespace SharedHelper

def new : SharedHelper := { sha256Helper := ⟨[], false, false⟩, outcomes := [] }

def call (crypto : CommCrypto) (shared : SharedHelper) : HelperCall → SharedHelper
  | .reset => { shared with sha256Helper := shared.sha256Helper.reset }
  | .hash data => { shared with sha256Helper := (shared.sha256Helper.hash data).1 }
  | .execute use =>
    let (sha256Helper, digest, _) := shared.sha256Helper.execute crypto.sha256
    { sha256Helper, outcomes := shared.outcomes ++ [(use, use.result crypto digest)] }

def run (crypto : CommCrypto) (shared : SharedHelper) (calls : List HelperCall) : SharedHelper :=
  calls.foldl (SharedHelper.call crypto) shared

end SharedHelper

/-! The calls of the receiver threads, one after the other; false is a failed CHECK. -/

namespace CommController

variable (proto : CommProto)

def hashTransactionCalls (calls : List HelperCall) (transactionRaw : Bytes) : List HelperCall × Bool :=
  match MockTransaction.new.deserializeFromString proto.toTransactionProto transactionRaw with
  | none => (calls, false)
  | some (transaction, _) => (calls ++ [.hash transaction.transactionPayload.digest], true)

def verifyBatchHashCalls (transactionSet : TransactionsWithProof) (response : EpochResponse)
    (calls : List HelperCall) : List HelperCall × Bool :=
  if transactionSet.transaction.length ≠ response.request.requestBatchSize then (calls, true)
  else
    match CheckedLoop.run (hashTransactionCalls proto) (calls ++ [.reset]) transactionSet.transaction with
    | (calls, false) => (calls, false)
    | (calls, true) => (calls ++ [.execute (.verdict transactionSet response)], true)

def transactionIDCalls (signature digest : Bytes) : List HelperCall :=
  [.hash signature, .hash digest, .execute (.transactionID signature digest)]

def receiveTransactionCalls (epoch : Nat) (transactionSet : TransactionsWithProof) (calls : List HelperCall)
    (transactionRaw : Bytes) : List HelperCall × Bool :=
  match MockTransaction.new.deserializeFromString proto.toTransactionProto transactionRaw with
  | some (transaction, true) =>
    if transaction.epoch = epoch then
      let signature := (proto.readResponse transactionSet.proof).signature
      (calls ++ transactionIDCalls signature transaction.transactionPayload.digest, true)
    else (calls, false)
  | _ => (calls, false)

def receiveSetCalls (epoch : Nat) (calls : List HelperCall) (transactionSet : TransactionsWithProof) :
    List HelperCall × Bool :=
  match verifyBatchHashCalls proto transactionSet (proto.readResponse transactionSet.proof) calls with
  | (calls, false) => (calls, false)
  | (calls, true) =>
    CheckedLoop.run (receiveTransactionCalls proto epoch transactionSet) calls transactionSet.transaction

def receiveMessageCalls (calls : List HelperCall) (arrival : Nat × ProxyBroadcast) : List HelperCall × Bool :=
  CheckedLoop.run (receiveSetCalls proto arrival.1) calls arrival.2.set

def receiveFromOtherServerCalls (arrivals : List (Nat × ProxyBroadcast)) : List HelperCall :=
  (CheckedLoop.run (receiveMessageCalls proto) [] arrivals).1

def receiveLocalTransactionCalls (epoch : Nat) (transactionSet : TransactionsWithProof) (calls : List HelperCall)
    (transaction : MockTransaction) : List HelperCall × Bool :=
  if transaction.epoch = epoch then
    let signature := (proto.readResponse transactionSet.proof).signature
    (calls ++ transactionIDCalls signature transaction.transactionPayload.digest, true)
  else (calls, false)

def receiveBatchCalls (sha256 : Bytes → Bytes) (calls : List HelperCall)
    (batch : Nat × Bytes × List MockTransaction) : List HelperCall × Bool :=
  let (epoch, responseRaw, transactions) := batch
  let response := proto.readResponse responseRaw
  if response.epoch ≠ epoch then (calls, false)
  else
    let transactionSet := {
      proof := responseRaw
      transaction := transactions.map fun transaction =>
        (transaction.serializeToString proto.toTransactionProto sha256).1 }
    match CheckedLoop.run (receiveLocalTransactionCalls proto epoch transactionSet) calls transactions with
    | (calls, false) => (calls, false)
    | (calls, true) => verifyBatchHashCalls proto transactionSet response calls

def receiveFromLocalServerCalls (sha256 : Bytes → Bytes) (batches : List (Nat × Bytes × List MockTransaction)) :
    List HelperCall :=
  (CheckedLoop.run (receiveBatchCalls proto sha256) [] batches).1

def receiverThreads (sha256 : Bytes → Bytes) (batches : List (Nat × Bytes × List MockTransaction))
    (remotes : List (List (Nat × ProxyBroadcast))) : List (List HelperCall) :=
  receiveFromLocalServerCalls proto sha256 batches :: remotes.map (receiveFromOtherServerCalls proto)

end CommController

namespace SharedHelper

variable {crypto : CommCrypto} {proto : CommProto}

def lastFed (calls : List HelperCall) : Bytes :=
  calls.foldl (fun fed call => match call with | .reset => [] | .hash data => data | .execute _ => fed) []

theorem run_append (shared : SharedHelper) (calls : List HelperCall) (call : HelperCall) :
    shared.run crypto (calls ++ [call]) = (shared.run crypto calls).call crypto call := by
  rw [run, List.foldl_append]
  rfl

@[simp] theorem lastFed_append (calls : List HelperCall) (call : HelperCall) :
    lastFed (calls ++ [call]) = match call with | .reset => [] | .hash data => data | .execute _ => lastFed calls := by
  rw [lastFed, List.foldl_append]
  rfl

theorem run_fed (crypto : CommCrypto) (calls : List HelperCall) :
    (new.run crypto calls).sha256Helper.fed = lastFed calls ∧
      (new.run crypto calls).sha256Helper.corrupted = false := by
  induction calls using List.reverseRecOn with
  | nil => exact ⟨rfl, rfl⟩
  | append_singleton calls call ih =>
    rw [run_append, lastFed_append]
    cases call with
    | reset => exact ⟨rfl, rfl⟩
    | hash data => simp [SharedHelper.call]
    | execute use => simpa [SharedHelper.call, SHA256Helper.execute, ih.2] using ih.1

theorem run_execute (calls : List HelperCall) (use : HashUse) :
    (new.run crypto (calls ++ [.execute use])).outcomes =
      (new.run crypto calls).outcomes ++ [(use, use.result crypto (crypto.sha256 (lastFed calls)))] := by
  obtain ⟨fed, sound⟩ := run_fed crypto calls
  rw [run_append]
  simp [call, SHA256Helper.execute, sound, fed]

end SharedHelper

open CheckedLoop (Together)
open SharedHelper (lastFed)

namespace CommController

variable {crypto : CommCrypto} {proto : CommProto} {epoch : Nat} {comm : CommController} {calls : List HelperCall}

theorem hashTransactions_calls (crypto : CommCrypto) (proto : CommProto) (calls : List HelperCall)
    (raws : List Bytes) :
    hashTransactions proto (SharedHelper.new.run crypto calls).sha256Helper raws =
      match CheckedLoop.run (hashTransactionCalls proto) calls raws with
      | (calls, true) => some (SharedHelper.new.run crypto calls).sha256Helper
      | (_, false) => none := by
  induction raws generalizing calls with
  | nil => rfl
  | cons transactionRaw rest ih =>
    rw [hashTransactions, CheckedLoop.run, hashTransactionCalls]
    cases read : MockTransaction.new.deserializeFromString proto.toTransactionProto transactionRaw with
    | none => rfl
    | some result =>
      have next := ih (calls ++ [.hash result.1.transactionPayload.digest])
      rw [SharedHelper.run_append] at next
      exact next

theorem verifyBatchHash_own (helper : SHA256Helper) {transactionSet : TransactionsWithProof}
    {response : EpochResponse} (size : transactionSet.transaction.length = response.request.requestBatchSize)
    {calls after : List HelperCall}
    (completed : CheckedLoop.run (hashTransactionCalls proto) (calls ++ [.reset]) transactionSet.transaction =
      (after, true)) :
    verifyBatchHash crypto proto helper transactionSet response =
      some ((SharedHelper.new.run crypto (after ++ [.execute (.verdict transactionSet response)])).sha256Helper,
        decide (response.request.batchHash = crypto.sha256 (lastFed after) ∧
          crypto.epochServerSignHelper.rsaDecrypt response.message response.signature = true)) := by
  have looped := hashTransactions_calls crypto proto (calls ++ [.reset])
    transactionSet.transaction
  rw [completed, SharedHelper.run_append] at looped
  obtain ⟨fed, sound⟩ := SharedHelper.run_fed crypto after
  rw [verifyBatchHash, if_neg (not_not_intro size)]
  have start : helper.reset = (SharedHelper.call crypto (SharedHelper.new.run crypto calls) .reset).sha256Helper := rfl
  rw [start, looped, SharedHelper.run_append]
  by_cases same : response.request.batchHash = crypto.sha256 (lastFed after)
  · simp [SharedHelper.call, SHA256Helper.execute, sound, fed, same]
  · simp [SharedHelper.call, SHA256Helper.execute, sound, fed, same]

def tids (outcomes : List (HashUse × HashResult)) : List ((Bytes × Bytes) × Nat) :=
  outcomes.filterMap fun outcome =>
    match outcome with
    | (.transactionID signature digest, .tid tid) => some ((signature, digest), tid)
    | _ => none

/-- The calls so far leave the helper of the receiver, and the IDs in its queue. -/
structure Follows (crypto : CommCrypto) (proto : CommProto) (epoch : Nat) (comm : CommController)
    (calls : List HelperCall) : Prop where
  epoch : comm.epoch = epoch
  helper : comm.sha256Helper = (SharedHelper.new.run crypto calls).sha256Helper
  tids : assigned proto comm = tids (SharedHelper.new.run crypto calls).outcomes

theorem Follows.queues (follows : Follows crypto proto epoch comm calls) (transactionSet : TransactionsWithProof)
    (transaction : MockTransaction) :
    let digest := transaction.transactionPayload.digest
    let tid := transactionIDOf (crypto.sha256 digest)
    Follows crypto proto epoch
      { comm with
        sha256Helper := ⟨digest, true, false⟩
        broadcastTransactions := comm.broadcastTransactions ++
          [{ transaction := transaction.setTransactionID tid, transactionSet }] }
      (calls ++ transactionIDCalls (proto.readResponse transactionSet.proof).signature digest) := by
  intro digest tid
  have ran : SharedHelper.new.run crypto
      (calls ++ transactionIDCalls (proto.readResponse transactionSet.proof).signature digest) =
      { sha256Helper := ⟨digest, true, false⟩
        outcomes := (SharedHelper.new.run crypto calls).outcomes ++
          [(.transactionID (proto.readResponse transactionSet.proof).signature digest, .tid tid)] } := by
    rw [SharedHelper.run, List.foldl_append]
    simp [transactionIDCalls, SharedHelper.call, SharedHelper.run, SHA256Helper.execute, HashUse.result, tid]
  refine ⟨follows.epoch, by rw [ran], ?_⟩
  have ids := follows.tids
  rw [ran]
  simp only [assigned, CommController.tids, List.map_append, List.filterMap_append] at ids ⊢
  rw [ids]
  rfl

theorem receiveTransaction_calls (transactionSet : TransactionsWithProof) (transactionRaw : Bytes)
    (follows : Follows crypto proto epoch comm calls) :
    Together (Follows crypto proto epoch) (receiveTransaction crypto proto transactionSet comm transactionRaw)
      (receiveTransactionCalls proto epoch transactionSet calls transactionRaw) := by
  unfold receiveTransaction receiveTransactionCalls
  rw [follows.epoch]
  generalize MockTransaction.new.deserializeFromString proto.toTransactionProto transactionRaw = read
  rcases read with _ | ⟨transaction, _ | _⟩
  · exact ⟨rfl, fun passed => by cases passed⟩
  · exact ⟨rfl, fun passed => by cases passed⟩
  · dsimp only
    split
    · refine ⟨rfl, fun _ => ?_⟩
      have queued := follows.queues transactionSet transaction
      simpa [SHA256Helper.execute, follows.epoch] using queued
    · exact ⟨rfl, fun passed => by cases passed⟩

theorem hashTransactionCalls_outcomes (crypto : CommCrypto) (proto : CommProto) (calls : List HelperCall)
    (raws : List Bytes) :
    (SharedHelper.new.run crypto (CheckedLoop.run (hashTransactionCalls proto) (calls ++ [.reset]) raws).1).outcomes =
      (SharedHelper.new.run crypto calls).outcomes := by
  refine CheckedLoop.run_invariant (fun after : List HelperCall =>
    (SharedHelper.new.run crypto after).outcomes = (SharedHelper.new.run crypto calls).outcomes)
    (fun after transactionRaw _ before => ?_) ?_
  · unfold hashTransactionCalls
    split
    · exact before
    · rw [SharedHelper.run_append]
      exact before
  · rw [SharedHelper.run_append]
    rfl

theorem verifyBatchHash_calls (transactionSet : TransactionsWithProof) (response : EpochResponse)
    (follows : Follows crypto proto epoch comm calls) :
    (∃ sha256Helper verdict after,
      verifyBatchHash crypto proto comm.sha256Helper transactionSet response = some (sha256Helper, verdict) ∧
      verifyBatchHashCalls proto transactionSet response calls = (after, true) ∧
      Follows crypto proto epoch { comm with sha256Helper } after) ∨
    (verifyBatchHash crypto proto comm.sha256Helper transactionSet response = none ∧
      ∃ after, verifyBatchHashCalls proto transactionSet response calls = (after, false)) := by
  by_cases size : transactionSet.transaction.length = response.request.requestBatchSize
  · rw [verifyBatchHashCalls, if_neg (not_not_intro size)]
    cases looped : CheckedLoop.run (hashTransactionCalls proto) (calls ++ [.reset]) transactionSet.transaction with
    | mk after passed =>
      cases passed with
      | true =>
        refine .inl ⟨_, _, _, verifyBatchHash_own comm.sha256Helper size looped, rfl, follows.epoch, rfl, ?_⟩
        have kept := hashTransactionCalls_outcomes crypto proto calls transactionSet.transaction
        rw [looped] at kept
        rw [SharedHelper.run_execute, kept, tids, List.filterMap_append]
        exact follows.tids.trans (List.append_nil _).symm
      | false =>
        have same := hashTransactions_calls crypto proto (calls ++ [.reset])
          transactionSet.transaction
        rw [looped, SharedHelper.run_append] at same
        refine .inr ⟨?_, _, rfl⟩
        rw [verifyBatchHash, if_neg (not_not_intro size)]
        have start : comm.sha256Helper.reset =
          (SharedHelper.call crypto (SharedHelper.new.run crypto calls) .reset).sha256Helper := rfl
        rw [start, same]
        rfl
  · refine .inl ⟨_, _, calls, if_pos size, if_pos size, follows⟩

theorem receiveSet_calls (transactionSet : TransactionsWithProof)
    (follows : Follows crypto proto epoch comm calls) :
    Together (Follows crypto proto epoch) (receiveSet crypto proto comm transactionSet)
      (receiveSetCalls proto epoch calls transactionSet) := by
  unfold receiveSet receiveSetCalls
  rcases verifyBatchHash_calls transactionSet (proto.readResponse transactionSet.proof) follows with
    ⟨_, _, _, verified, called, after⟩ | ⟨verified, _, called⟩
  · rw [verified, called]
    exact CheckedLoop.run_together (Follows crypto proto epoch)
      (fun _ _ transactionRaw before => receiveTransaction_calls transactionSet transactionRaw before) after
  · rw [verified, called]
    exact ⟨rfl, fun passed => by cases passed⟩

theorem receiveBatch_calls (responseRaw : Bytes) (transactions : List MockTransaction)
    (follows : Follows crypto proto epoch comm calls) :
    Together (Follows crypto proto epoch) (receiveFromLocalServer crypto proto comm responseRaw transactions)
      (receiveBatchCalls proto crypto.sha256 calls (epoch, responseRaw, transactions)) := by
  unfold receiveFromLocalServer receiveBatchCalls
  dsimp only
  rw [follows.epoch]
  split
  · exact ⟨rfl, fun passed => by cases passed⟩
  · generalize ({ proof := responseRaw, transaction := _ } : TransactionsWithProof) = transactionSet
    have looped : Together (Follows crypto proto epoch)
        (CheckedLoop.run (receiveLocalTransaction crypto proto transactionSet) comm transactions)
        (CheckedLoop.run (receiveLocalTransactionCalls proto epoch transactionSet) calls transactions) := by
      refine CheckedLoop.run_together _ (fun comm calls transaction before => ?_) follows
      unfold receiveLocalTransaction receiveLocalTransactionCalls
      rw [before.epoch]
      split
      · rw [MockTransaction.serializeToString_eq]
        refine ⟨rfl, fun _ => ?_⟩
        have queued := before.queues transactionSet transaction
        simpa [SHA256Helper.execute, before.epoch] using queued
      · exact ⟨rfl, fun passed => by cases passed⟩
    obtain ⟨same, kept⟩ := looped
    cases ran : CheckedLoop.run (receiveLocalTransaction crypto proto transactionSet) comm transactions with
    | mk next passed =>
      cases called : CheckedLoop.run (receiveLocalTransactionCalls proto epoch transactionSet) calls transactions with
      | mk after ended =>
        rw [ran, called] at same kept
        dsimp only at same kept
        subst same
        cases passed with
        | false => exact ⟨rfl, fun passed => by cases passed⟩
        | true =>
          dsimp only
          rcases verifyBatchHash_calls transactionSet (proto.readResponse responseRaw) (kept rfl) with
            ⟨_, _, _, verified, checked, follows⟩ | ⟨verified, _, checked⟩
          · rw [verified, checked]
            exact ⟨rfl, fun _ => follows⟩
          · rw [verified, checked]
            exact ⟨rfl, fun passed => by cases passed⟩

/-- A receiver that has the helper to itself assigns the IDs that its calls lead to. -/
theorem receiveFromOtherServer_calls (start : Nat) (arrivals : List (Nat × ProxyBroadcast))
    (completed : (receiveFromOtherServer crypto proto (.new start) arrivals).2 = true) :
    ∃ epoch, Follows crypto proto epoch (receiveFromOtherServer crypto proto (.new start) arrivals).1
      (receiveFromOtherServerCalls proto arrivals) := by
  refine (CheckedLoop.run_together (fun comm calls => ∃ epoch, Follows crypto proto epoch comm calls)
    (fun comm calls arrival before => ?_) ⟨start, rfl, rfl, rfl⟩).2 completed
  obtain ⟨_, follows⟩ := before
  have message : Together (Follows crypto proto arrival.1) (receiveMessage crypto proto comm arrival)
      (receiveMessageCalls proto calls arrival) :=
    CheckedLoop.run_together _ (fun _ _ transactionSet before => receiveSet_calls transactionSet before)
      ⟨rfl, follows.helper, follows.tids⟩
  exact ⟨message.1, fun passed => ⟨arrival.1, message.2 passed⟩⟩

end CommController

end Blockchain
