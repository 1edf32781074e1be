import Mathlib.Data.List.Infix
import Mathlib.Data.List.Induction
import MyBlockchain.Comm.SharedHelper

namespace Blockchain

open SharedHelper (lastFed)

variable {crypto : CommCrypto} {proto : CommProto}

def HashUse.own (crypto : CommCrypto) (proto : CommProto) : HashUse → HashResult
  | .transactionID signature digest => .tid (CommController.digestID crypto (signature, digest))
  | .verdict transactionSet response =>
    let verified := CommController.verifyBatchHash crypto proto ⟨[], false, false⟩ transactionSet response
    .verdict ((verified.map Prod.snd).getD false)

def Owns (crypto : CommCrypto) (proto : CommProto) (calls : List HelperCall) : Prop :=
  ∀ before use, before ++ [.execute use] <+: calls →
    use.result crypto (crypto.sha256 (lastFed before)) = use.own crypto proto

theorem Owns.nil : Owns crypto proto [] := by
  intro before use ran
  simp at ran

theorem Owns.append {calls : List HelperCall} (owns : Owns crypto proto calls) (call : HelperCall)
    (last : ∀ use, call = .execute use → use.result crypto (crypto.sha256 (lastFed calls)) = use.own crypto proto) :
    Owns crypto proto (calls ++ [call]) := by
  intro before use ran
  rcases List.prefix_concat_iff.mp ran with same | old
  · obtain ⟨rfl, here⟩ := List.append_inj' same rfl
    exact last use (List.singleton_inj.mp here).symm
  · exact owns before use old

namespace CommController

theorem hashTransactionCalls_owns {calls : List HelperCall} (owns : Owns crypto proto calls) (raws : List Bytes) :
    Owns crypto proto (CheckedLoop.run (hashTransactionCalls proto) calls raws).1 := by
  refine CheckedLoop.run_invariant (Owns crypto proto) (fun calls transactionRaw _ before => ?_) owns
  unfold hashTransactionCalls
  split
  · exact before
  · exact before.append _ fun _ here => by cases here

theorem verifyBatchHashCalls_owns {calls : List HelperCall} (owns : Owns crypto proto calls)
    (transactionSet : TransactionsWithProof) (response : EpochResponse) :
    Owns crypto proto (verifyBatchHashCalls proto transactionSet response calls).1 := by
  unfold verifyBatchHashCalls
  split
  · exact owns
  · next size =>
    have looped := hashTransactionCalls_owns
      (owns.append .reset fun _ here => by cases here) transactionSet.transaction
    split
    · next after stopped =>
      rw [stopped] at looped
      exact looped
    · next after completed =>
      rw [completed] at looped
      refine looped.append _ fun use here => ?_
      cases here
      rw [HashUse.own, verifyBatchHash_own _ (not_not.mp size) completed]
      rfl

theorem transactionIDCalls_owns {calls : List HelperCall} (owns : Owns crypto proto calls)
    (signature digest : Bytes) :
    Owns crypto proto (calls ++ transactionIDCalls signature digest) := by
  have first := owns.append (.hash signature) fun _ here => by cases here
  have second := first.append (.hash digest) fun _ here => by cases here
  have third := second.append (.execute (.transactionID signature digest)) fun use here => by
    cases here
    rw [SharedHelper.lastFed_append]
    rfl
  simpa [transactionIDCalls] using third

theorem receiveSetCalls_owns {calls : List HelperCall} (owns : Owns crypto proto calls) (epoch : Nat)
    (transactionSet : TransactionsWithProof) : Owns crypto proto (receiveSetCalls proto epoch calls transactionSet).1 := by
  have verified := verifyBatchHashCalls_owns owns transactionSet (proto.readResponse transactionSet.proof)
  unfold receiveSetCalls
  split
  · next after stopped =>
    rw [stopped] at verified
    exact verified
  · next after completed =>
    rw [completed] at verified
    refine CheckedLoop.run_invariant (Owns crypto proto) (fun calls transactionRaw _ before => ?_) verified
    unfold receiveTransactionCalls
    split
    · split
      · exact transactionIDCalls_owns before _ _
      · exact before
    · exact before

theorem receiveFromOtherServerCalls_owns (arrivals : List (Nat × ProxyBroadcast)) :
    Owns crypto proto (receiveFromOtherServerCalls proto arrivals) := by
  refine CheckedLoop.run_invariant (Owns crypto proto) (fun calls arrival _ before => ?_) Owns.nil
  exact CheckedLoop.run_invariant (Owns crypto proto)
    (fun calls transactionSet _ owns => receiveSetCalls_owns owns arrival.1 transactionSet) before

theorem receiveFromLocalServerCalls_owns (batches : List (Nat × Bytes × List MockTransaction)) :
    Owns crypto proto (receiveFromLocalServerCalls proto crypto.sha256 batches) := by
  refine CheckedLoop.run_invariant (Owns crypto proto) (fun calls batch _ before => ?_) Owns.nil
  unfold receiveBatchCalls
  dsimp only
  split
  · exact before
  · have looped : ∀ transactionSet, Owns crypto proto
        (CheckedLoop.run (receiveLocalTransactionCalls proto batch.1 transactionSet) calls batch.2.2).1 := by
      refine fun transactionSet =>
        CheckedLoop.run_invariant (Owns crypto proto) (fun calls transaction _ owns => ?_) before
      unfold receiveLocalTransactionCalls
      split
      · exact transactionIDCalls_owns owns _ _
      · exact owns
    split
    · next after stopped =>
      obtain rfl : _ = after := congrArg Prod.fst stopped
      exact looped _
    · next after completed =>
      obtain rfl : _ = after := congrArg Prod.fst completed
      exact verifyBatchHashCalls_owns (looped _) _ _

theorem receiverThreads_owns (batches : List (Nat × Bytes × List MockTransaction))
    (remotes : List (List (Nat × ProxyBroadcast))) :
    ∀ calls ∈ receiverThreads proto crypto.sha256 batches remotes, Owns crypto proto calls := by
  refine List.forall_mem_cons.mpr ⟨receiveFromLocalServerCalls_owns batches, ?_⟩
  exact List.forall_mem_map.mpr fun arrivals _ => receiveFromOtherServerCalls_owns arrivals

end CommController

def HelperCall.executes : HelperCall → Bool
  | .execute _ => true
  | _ => false

def callsOf (thread : Nat) (trace : List (Nat × HelperCall)) : List HelperCall :=
  (trace.filter fun event => event.1 = thread).map Prod.snd

/-- Any order of the calls in which each thread has got somewhere in its program. -/
structure Interleaves (threads : List (List HelperCall)) (trace : List (Nat × HelperCall)) : Prop where
  known : ∀ event ∈ trace, event.1 < threads.length
  order : ∀ program ∈ threads.zipIdx, callsOf program.2 trace <+: program.1

def lastFeeder (trace : List (Nat × HelperCall)) : Option Nat :=
  trace.foldl (fun feeder event => match event.2 with | .execute _ => feeder | _ => some event.1) none

/-- Nobody else feeds the helper between the last bytes of a thread and its `execute`. -/
def Unbroken (trace : List (Nat × HelperCall)) : Prop :=
  ∀ before thread use, before ++ [(thread, .execute use)] <+: trace → lastFeeder before = some thread

theorem unbroken_iff (trace : List (Nat × HelperCall)) :
    Unbroken trace ↔ ∀ ran ∈ trace.inits, ∀ event ∈ ran.getLast?, event.2.executes = true →
      lastFeeder ran = some event.1 := by
  have feeder : ∀ before thread use, lastFeeder (before ++ [(thread, .execute use)]) = lastFeeder before := by
    intro before thread use
    rw [lastFeeder, List.foldl_append]
    rfl
  constructor
  · intro unbroken ran member event last executes
    obtain ⟨before, rfl⟩ := List.getLast?_eq_some_iff.mp last
    obtain ⟨thread, call⟩ := event
    cases call with
    | reset | hash => cases executes
    | execute use =>
      rw [feeder]
      exact unbroken before thread use ((List.mem_inits _ _).mp member)
  · intro checked before thread use ran
    rw [← feeder before thread use]
    exact checked _ ((List.mem_inits _ _).mpr ran) _ List.getLast?_concat rfl

instance (trace : List (Nat × HelperCall)) : Decidable (Unbroken trace) :=
  decidable_of_iff _ (unbroken_iff trace).symm

def outcomes (crypto : CommCrypto) (trace : List (Nat × HelperCall)) : List (HashUse × HashResult) :=
  (SharedHelper.new.run crypto (trace.map Prod.snd)).outcomes

theorem callsOf_append (thread : Nat) (trace : List (Nat × HelperCall)) (event : Nat × HelperCall) :
    callsOf thread (trace ++ [event]) = callsOf thread trace ++ if event.1 = thread then [event.2] else [] := by
  unfold callsOf
  by_cases mine : event.1 = thread
  · simp [mine]
  · simp [mine]

theorem lastFeeder_fed {trace : List (Nat × HelperCall)} {thread : Nat} (feeder : lastFeeder trace = some thread) :
    lastFed (trace.map Prod.snd) = lastFed (callsOf thread trace) := by
  induction trace using List.reverseRecOn with
  | nil => cases feeder
  | append_singleton trace event ih =>
    obtain ⟨other, call⟩ := event
    rw [lastFeeder, List.foldl_append] at feeder
    rw [List.map_append, List.map_singleton, callsOf_append, SharedHelper.lastFed_append]
    cases call with
    | reset | hash =>
      obtain rfl : other = thread := Option.some.inj feeder
      rw [if_pos rfl, SharedHelper.lastFed_append]
    | execute =>
      dsimp only
      rw [ih feeder]
      split
      · rw [SharedHelper.lastFed_append]
      · rw [List.append_nil]

theorem Interleaves.before {threads : List (List HelperCall)} {trace : List (Nat × HelperCall)}
    {event : Nat × HelperCall} (interleaves : Interleaves threads (trace ++ [event])) : Interleaves threads trace where
  known other member := interleaves.known other (List.mem_append_left _ member)
  order program member := by
    have ran := interleaves.order program member
    rw [callsOf_append] at ran
    exact (List.prefix_append _ _).trans ran

theorem unbroken_outcomes {threads : List (List HelperCall)} (owns : ∀ calls ∈ threads, Owns crypto proto calls)
    {trace : List (Nat × HelperCall)} (interleaves : Interleaves threads trace) (unbroken : Unbroken trace) :
    ∀ outcome ∈ outcomes crypto trace, outcome.2 = outcome.1.own crypto proto := by
  induction trace using List.reverseRecOn with
  | nil => exact fun _ member => by cases member
  | append_singleton trace event ih =>
    have earlier := ih interleaves.before fun before thread use ran =>
      unbroken before thread use (ran.trans (List.prefix_append _ _))
    obtain ⟨thread, call⟩ := event
    rw [outcomes, List.map_append, List.map_singleton]
    cases call with
    | reset | hash =>
      rw [SharedHelper.run_append]
      exact earlier
    | execute use =>
      obtain ⟨calls, program⟩ : ∃ calls, threads[thread]? = some calls :=
        ⟨_, List.getElem?_eq_getElem (interleaves.known _ (List.mem_append_right _ (.head _)))⟩
      have ran := interleaves.order (calls, thread) (List.mk_mem_zipIdx_iff_getElem?.mpr program)
      rw [callsOf_append, if_pos rfl] at ran
      rw [SharedHelper.run_execute, lastFeeder_fed (unbroken trace thread use (List.prefix_refl _))]
      intro outcome member
      rcases List.mem_append.mp member with old | new
      · exact earlier outcome old
      · rw [List.mem_singleton.mp new]
        exact owns calls (List.mem_of_getElem? program) _ use ran

/-- Whatever the receiver threads are given: where nobody feeds the helper between a thread's last bytes and its
`execute`, each ID and each verdict depends on its own arguments alone. -/
theorem replica_consistent_hashing (crypto : CommCrypto) (proto : CommProto)
    (batches : List (Nat × Bytes × List MockTransaction)) (remotes : List (List (Nat × ProxyBroadcast)))
    (trace : List (Nat × HelperCall))
    (interleaves : Interleaves (CommController.receiverThreads proto crypto.sha256 batches remotes) trace)
    (unbroken : Unbroken trace) : ∀ outcome ∈ outcomes crypto trace, outcome.2 = outcome.1.own crypto proto :=
  unbroken_outcomes (CommController.receiverThreads_owns batches remotes) interleaves unbroken

section TwoReceivers

def twoReceivers : List (List HelperCall) :=
  CommController.receiverThreads noncedProto paddedCrypto.sha256 [(1, [0], [signedTransaction 1 1])]
    [[(1, { epoch := 1, set := [{ batchOf [1] with proof := [0, 0] }] })]]

def takeTurns : List (List HelperCall) → List Nat → List (Nat × HelperCall)
  | _, [] => []
  | threads, thread :: turns =>
    match threads.getD thread [] with
    | [] => takeTurns threads turns
    | call :: rest => (thread, call) :: takeTurns (threads.set thread rest) turns

def oneAfterTheOther : List (Nat × HelperCall) :=
  takeTurns twoReceivers (List.replicate 6 0 ++ List.replicate 6 1)

def cutOff : List (Nat × HelperCall) := takeTurns twoReceivers [0, 0, 1, 0]

def firstUse : HashUse := .transactionID (answerOne 1).signature (signedRequest 1).digest

theorem oneAfterTheOther_interleaves : Interleaves twoReceivers oneAfterTheOther :=
  ⟨by decide +kernel, by decide +kernel⟩

theorem cutOff_interleaves : Interleaves twoReceivers cutOff := ⟨by decide +kernel, by decide +kernel⟩

theorem replica_consistent_hashing_turns :
    (outcomes paddedCrypto oneAfterTheOther).length = 4 ∧
      ∀ outcome ∈ outcomes paddedCrypto oneAfterTheOther, outcome.2 = outcome.1.own paddedCrypto noncedProto :=
  ⟨by decide +kernel, replica_consistent_hashing paddedCrypto noncedProto _ _ oneAfterTheOther
    oneAfterTheOther_interleaves (by decide +kernel)⟩

/-- One transaction gets two IDs, so that its ID is no function of its signature and digest. -/
theorem interleaving_changes_id :
    Interleaves twoReceivers oneAfterTheOther ∧ Interleaves twoReceivers cutOff ∧
    (firstUse, .tid 280) ∈ outcomes paddedCrypto oneAfterTheOther ∧
    (firstUse, .tid 0) ∈ outcomes paddedCrypto cutOff ∧
    ¬ ∃ own : HashUse → HashResult, ∀ trace, Interleaves twoReceivers trace →
      ∀ outcome ∈ outcomes paddedCrypto trace, outcome.2 = own outcome.1 := by
  have alone : (firstUse, .tid 280) ∈ outcomes paddedCrypto oneAfterTheOther := by decide +kernel
  have cut : (firstUse, .tid 0) ∈ outcomes paddedCrypto cutOff := by decide +kernel
  refine ⟨oneAfterTheOther_interleaves, cutOff_interleaves, alone, cut, fun ⟨own, same⟩ => ?_⟩
  have first := same oneAfterTheOther oneAfterTheOther_interleaves _ alone
  have second := same cutOff cutOff_interleaves _ cut
  exact absurd (first.trans second.symm) (by decide)

end TwoReceivers

end Blockchain
