import MyBlockchain.Comm.BatchHash

namespace Blockchain

namespace CommController

variable (crypto : CommCrypto) (proto : CommProto)

/-- What `UserCollector::run` asks of a user's request, whose payload has no digest yet. -/
def SignedByUser (transactionPayload : TransactionPayload) : Prop :=
  crypto.userSignHelper.rsaDecrypt (proto.payloadToBytes { transactionPayload with digest := [] })
    transactionPayload.digest = true

structure Authenticated (arrivals : List (Nat × ProxyBroadcast)) (entry : Broadcast) : Prop where
  received : ∃ arrival ∈ arrivals, entry.transactionSet ∈ arrival.2.set
  listed : ∃ transactionRaw ∈ entry.transactionSet.transaction, ∃ transaction,
    Reads proto transactionRaw transaction ∧ entry.transaction = transaction.setTransactionID entry.transaction.tid
  accepted : Accepts crypto proto ⟨[], false, false⟩ entry.transactionSet
    (proto.readResponse entry.transactionSet.proof)
  epoch : (proto.readResponse entry.transactionSet.proof).epoch = entry.transaction.epoch
  signed : SignedByUser crypto proto entry.transaction.transactionPayload

def Authentic (arrival : Nat × ProxyBroadcast) : Prop :=
  ∀ transactionSet ∈ arrival.2.set, ∀ transactionRaw ∈ transactionSet.transaction,
    Accepts crypto proto ⟨[], false, false⟩ transactionSet (proto.readResponse transactionSet.proof) ∧
    (proto.readResponse transactionSet.proof).epoch = arrival.1 ∧
    ∀ transaction, Reads proto transactionRaw transaction → SignedByUser crypto proto transaction.transactionPayload

variable {crypto proto}

inductive TransactionStep (proto : CommProto) (transactionSet : TransactionsWithProof) (comm : CommController)
    (transactionRaw : Bytes) : CommController × Bool → Prop
  | refused : TransactionStep proto transactionSet comm transactionRaw (comm, false)
  | admitted {transaction : MockTransaction} (reads : Reads proto transactionRaw transaction)
      (epoch : transaction.epoch = comm.epoch) (sha256Helper : SHA256Helper) (tid : Nat) :
      TransactionStep proto transactionSet comm transactionRaw
        ({ comm with
          sha256Helper
          broadcastTransactions := comm.broadcastTransactions ++
            [{ transaction := transaction.setTransactionID tid, transactionSet }] }, true)

theorem receiveTransaction_cases (transactionSet : TransactionsWithProof) (comm : CommController)
    (transactionRaw : Bytes) :
    TransactionStep proto transactionSet comm transactionRaw
      (receiveTransaction crypto proto transactionSet comm transactionRaw) := by
  unfold receiveTransaction
  split
  · rename_i transaction reads
    split
    · rename_i epoch
      exact .admitted reads epoch _ _
    · exact .refused
  · exact .refused

structure Grows (before after : CommController) : Prop where
  epoch : after.epoch = before.epoch
  kept : before.broadcastTransactions ⊆ after.broadcastTransactions

theorem Grows.refl (comm : CommController) : Grows comm comm := ⟨rfl, fun _ member => member⟩

theorem Grows.trans {first second third : CommController} (before : Grows first second)
    (after : Grows second third) :
    Grows first third :=
  ⟨after.epoch.trans before.epoch, fun _ member => after.kept (before.kept member)⟩

theorem receiveTransaction_grows (transactionSet : TransactionsWithProof) (comm : CommController)
    (transactionRaw : Bytes) : Grows comm (receiveTransaction crypto proto transactionSet comm transactionRaw).1 := by
  have step := @receiveTransaction_cases crypto proto transactionSet comm transactionRaw
  generalize receiveTransaction crypto proto transactionSet comm transactionRaw = result at step
  cases step with
  | refused => exact .refl comm
  | admitted => exact ⟨rfl, fun _ member => List.mem_append_left _ member⟩

theorem receiveSet_grows (comm : CommController) (transactionSet : TransactionsWithProof) :
    Grows comm (receiveSet crypto proto comm transactionSet).1 := by
  unfold receiveSet
  split
  · exact .refl comm
  · exact CheckedLoop.run_invariant (Grows comm)
      (fun state raw _ old => old.trans (receiveTransaction_grows transactionSet state raw)) ⟨rfl, fun _ member => member⟩

theorem receiveMessage_kept (comm : CommController) (arrival : Nat × ProxyBroadcast) :
    comm.broadcastTransactions ⊆ (receiveMessage crypto proto comm arrival).1.broadcastTransactions := by
  have grown : Grows { comm with epoch := arrival.1 } (receiveMessage crypto proto comm arrival).1 :=
    CheckedLoop.run_invariant (Grows { comm with epoch := arrival.1 })
      (fun state set _ old => old.trans (receiveSet_grows state set)) (.refl _)
  exact grown.kept

section Admitted

variable (crypto proto) in
structure Admits (arrivals : List (Nat × ProxyBroadcast)) (epoch : Nat) (comm : CommController) : Prop where
  epoch : comm.epoch = epoch
  authenticated : ∀ entry ∈ comm.broadcastTransactions, Authenticated crypto proto arrivals entry

variable {arrivals : List (Nat × ProxyBroadcast)} {comm : CommController} {arrival : Nat × ProxyBroadcast}

theorem receiveTransaction_admits (authentic : Authentic crypto proto arrival) (arrived : arrival ∈ arrivals)
    {transactionSet : TransactionsWithProof} (listed : transactionSet ∈ arrival.2.set) {transactionRaw : Bytes}
    (member : transactionRaw ∈ transactionSet.transaction) (admits : Admits crypto proto arrivals arrival.1 comm) :
    Admits crypto proto arrivals arrival.1 (receiveTransaction crypto proto transactionSet comm transactionRaw).1 := by
  have step := @receiveTransaction_cases crypto proto transactionSet comm transactionRaw
  generalize receiveTransaction crypto proto transactionSet comm transactionRaw = result at step
  cases step with
  | refused => exact admits
  | @admitted transaction reads epoch _ tid =>
    refine ⟨admits.epoch, fun entry known => ?_⟩
    rcases List.mem_append.mp known with old | new
    · exact admits.authenticated entry old
    · rw [List.mem_singleton.mp new]
      obtain ⟨accepted, proved, signed⟩ := authentic transactionSet listed transactionRaw member
      have same : arrival.1 = transaction.epoch := admits.epoch.symm.trans epoch.symm
      exact
        { received := ⟨arrival, arrived, listed⟩
          listed := ⟨transactionRaw, member, transaction, reads, rfl⟩
          accepted
          epoch := proved.trans same
          signed := signed transaction reads }

theorem receiveSet_admits (authentic : Authentic crypto proto arrival) (arrived : arrival ∈ arrivals)
    {transactionSet : TransactionsWithProof} (listed : transactionSet ∈ arrival.2.set)
    (admits : Admits crypto proto arrivals arrival.1 comm) :
    Admits crypto proto arrivals arrival.1 (receiveSet crypto proto comm transactionSet).1 := by
  unfold receiveSet
  split
  · exact admits
  · exact CheckedLoop.run_invariant (Admits crypto proto arrivals arrival.1)
      (fun _ _ member before => receiveTransaction_admits authentic arrived listed member before)
      ⟨admits.epoch, admits.authenticated⟩

theorem receiveMessage_authenticated (authentic : Authentic crypto proto arrival) (arrived : arrival ∈ arrivals)
    (before : ∀ entry ∈ comm.broadcastTransactions, Authenticated crypto proto arrivals entry) :
    ∀ entry ∈ (receiveMessage crypto proto comm arrival).1.broadcastTransactions,
      Authenticated crypto proto arrivals entry := by
  have after : Admits crypto proto arrivals arrival.1 (receiveMessage crypto proto comm arrival).1 :=
    CheckedLoop.run_invariant (Admits crypto proto arrivals arrival.1)
      (fun _ _ listed before => receiveSet_admits authentic arrived listed before) ⟨rfl, before⟩
  exact after.authenticated

theorem receiveFromOtherServer_authenticated (authentic : ∀ arrival ∈ arrivals, Authentic crypto proto arrival)
    (before : ∀ entry ∈ comm.broadcastTransactions, Authenticated crypto proto arrivals entry) :
    ∀ entry ∈ (receiveFromOtherServer crypto proto comm arrivals).1.broadcastTransactions,
      Authenticated crypto proto arrivals entry :=
  CheckedLoop.run_invariant
    (fun state : CommController => ∀ entry ∈ state.broadcastTransactions, Authenticated crypto proto arrivals entry)
    (fun _ arrival arrived before => receiveMessage_authenticated (authentic arrival arrived) arrived before) before

theorem receiveMessage_queued (passed : (receiveMessage crypto proto comm arrival).2 = true)
    {transactionSet : TransactionsWithProof} (listed : transactionSet ∈ arrival.2.set) {transactionRaw : Bytes}
    (member : transactionRaw ∈ transactionSet.transaction) :
    ∃ transaction tid, Reads proto transactionRaw transaction ∧ transaction.epoch = arrival.1 ∧
      { transaction := transaction.setTransactionID tid, transactionSet } ∈
        (receiveMessage crypto proto comm arrival).1.broadcastTransactions := by
  obtain ⟨atSet, early, setPassed, late⟩ :=
    CheckedLoop.run_round Grows Grows.refl Grows.trans receiveSet_grows passed listed
  unfold receiveSet at setPassed late
  split at setPassed
  · cases setPassed
  · rename_i helper verdict verified
    rw [verified] at late
    obtain ⟨atRaw, reached, rawPassed, left⟩ := CheckedLoop.run_round Grows Grows.refl Grows.trans
      (receiveTransaction_grows transactionSet) setPassed member
    have epoch : atRaw.epoch = arrival.1 := reached.epoch.trans early.epoch
    have step := @receiveTransaction_cases crypto proto transactionSet atRaw transactionRaw
    generalize receiveTransaction crypto proto transactionSet atRaw transactionRaw = result at step rawPassed left
    cases step with
    | refused => cases rawPassed
    | @admitted transaction reads same _ tid =>
      exact ⟨transaction, tid, reads, same.trans epoch, late.kept (left.kept (List.mem_append_right _ (.head _)))⟩

theorem receiveFromOtherServer_authentic
    (completed : (receiveFromOtherServer crypto proto comm arrivals).2 = true)
    (authenticated : ∀ entry ∈ (receiveFromOtherServer crypto proto comm arrivals).1.broadcastTransactions,
      Authenticated crypto proto arrivals entry) :
    ∀ arrival ∈ arrivals, Authentic crypto proto arrival := by
  intro arrival arrived transactionSet listed transactionRaw member
  obtain ⟨atMessage, -, passed, left⟩ := CheckedLoop.run_round
    (fun before after : CommController => before.broadcastTransactions ⊆ after.broadcastTransactions)
    (fun _ => List.Subset.refl _) List.Subset.trans receiveMessage_kept completed arrived
  obtain ⟨transaction, tid, reads, epoch, queued⟩ := receiveMessage_queued passed listed member
  have entry := authenticated _ (left queued)
  refine ⟨entry.accepted, entry.epoch.trans epoch, fun other again => ?_⟩
  obtain rfl : transaction = other := by
    have same := Eq.trans (Eq.symm reads) again
    simpa using same
  exact entry.signed

end Admitted

end CommController

/-- A run whose messages are all authentic only admits authenticated transactions; a run that comes to its end
does so under no other condition. -/
theorem remote_admission_iff (crypto : CommCrypto) (proto : CommProto) (epoch : Nat)
    (arrivals : List (Nat × ProxyBroadcast)) :
    let run := CommController.receiveFromOtherServer crypto proto (.new epoch) arrivals
    ((∀ arrival ∈ arrivals, CommController.Authentic crypto proto arrival) →
      ∀ entry ∈ run.1.broadcastTransactions, CommController.Authenticated crypto proto arrivals entry) ∧
    (run.2 = true →
      ((∀ entry ∈ run.1.broadcastTransactions, CommController.Authenticated crypto proto arrivals entry) ↔
        ∀ arrival ∈ arrivals, CommController.Authentic crypto proto arrival)) := by
  have sufficient : (∀ arrival ∈ arrivals, CommController.Authentic crypto proto arrival) →
      ∀ entry ∈ (CommController.receiveFromOtherServer crypto proto (.new epoch) arrivals).1.broadcastTransactions,
        CommController.Authenticated crypto proto arrivals entry := fun authentic =>
    CommController.receiveFromOtherServer_authenticated authentic fun _ member => (by cases member)
  exact ⟨sufficient, fun completed =>
    ⟨CommController.receiveFromOtherServer_authentic completed, sufficient⟩⟩

section Forged

def answeredProto : CommProto := { signedProto with readResponse := fun _ => answerTwo }

theorem remote_admission_iff_honest :
    let run := CommController.receiveFromOtherServer paddedCrypto answeredProto (.new 1)
      [(1, { epoch := 1, set := [batchOf [1, 3]] })]
    run.2 = true ∧ run.1.broadcastTransactions.length = 2 ∧
      ∀ entry ∈ run.1.broadcastTransactions, CommController.Authenticated paddedCrypto answeredProto
        [(1, { epoch := 1, set := [batchOf [1, 3]] })] entry := by
  have completed : (CommController.receiveFromOtherServer paddedCrypto answeredProto (.new 1)
      [(1, { epoch := 1, set := [batchOf [1, 3]] })]).2 = true := by decide +kernel
  refine ⟨completed, by decide +kernel, ?_⟩
  refine ((remote_admission_iff _ _ _ _).2 completed).mpr fun arrival arrived transactionSet listed raw member => ?_
  cases List.mem_singleton.mp arrived
  cases List.mem_singleton.mp listed
  have accepted : CommController.verifyBatchHash paddedCrypto answeredProto ⟨[], false, false⟩ (batchOf [1, 3])
      answerTwo = some (⟨(signedRequest 3).digest, true, false⟩, true) := by
    decide +kernel
  have checked : ∀ raw ∈ (batchOf [1, 3]).transaction, ∃ nonce ∈ [1, 3],
      CommController.Reads answeredProto raw (signedTransaction 1 nonce) := by decide +kernel
  have signed : ∀ nonce ∈ [1, 3], paddedCrypto.userSignHelper.rsaDecrypt
      (answeredProto.payloadToBytes { (signedTransaction 1 nonce).transactionPayload with digest := [] })
      (signedTransaction 1 nonce).transactionPayload.digest = true := by decide +kernel
  refine ⟨⟨_, accepted⟩, rfl, fun transaction reads => ?_⟩
  obtain ⟨nonce, known, mine⟩ := checked raw member
  obtain rfl : signedTransaction 1 nonce = transaction := by
    have same := Eq.trans (Eq.symm mine) reads
    simpa using same
  exact signed nonce known

def forgedSet : TransactionsWithProof :=
  { proof := [], transaction := [[5, 1, 0, 0] ++ List.replicate 32 0] }

theorem forged_transaction_admitted :
    let run := CommController.receiveFromOtherServer paddedCrypto signedProto (.new 1)
      [(1, { epoch := 1, set := [forgedSet] })]
    run.2 = true ∧ ∃ entry ∈ run.1.broadcastTransactions, entry.transactionSet = forgedSet ∧
      ¬ CommController.Accepts paddedCrypto signedProto ⟨[], false, false⟩ forgedSet
        (signedProto.readResponse forgedSet.proof) ∧
      (signedProto.readResponse forgedSet.proof).epoch ≠ entry.transaction.epoch ∧
      ¬ CommController.SignedByUser paddedCrypto signedProto entry.transaction.transactionPayload ∧
      ¬ CommController.Authenticated paddedCrypto signedProto [(1, { epoch := 1, set := [forgedSet] })] entry := by
  have queued : { transaction := { MockTransaction.new with epoch := 1 }, transactionSet := forgedSet } ∈
      (CommController.receiveFromOtherServer paddedCrypto signedProto (.new 1)
        [(1, { epoch := 1, set := [forgedSet] })]).1.broadcastTransactions := by decide +kernel
  have rejected : ¬ CommController.Accepts paddedCrypto signedProto ⟨[], false, false⟩ forgedSet
      (signedProto.readResponse forgedSet.proof) := by
    rintro ⟨after, accepted⟩
    cases accepted
  refine ⟨by decide +kernel, _, queued, rfl, rejected, by decide, ?_, fun entry => rejected entry.accepted⟩
  unfold CommController.SignedByUser
  decide +kernel

end Forged

end Blockchain
