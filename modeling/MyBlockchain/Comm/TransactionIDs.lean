import MyBlockchain.Comm.BatchHash

namespace Blockchain

inductive Admission
  | local_ (responseRaw : Bytes) (transactions : List MockTransaction)
  | remote (transactionSet : TransactionsWithProof)

namespace CommController

variable (crypto : CommCrypto) (proto : CommProto)

/-- A round of the inner loop of `receiveFromLocalServer`; false is a failed CHECK. -/
def receiveLocalTransaction (transactionSet : TransactionsWithProof) (comm : CommController)
    (transaction : MockTransaction) : CommController × Bool :=
  if transaction.epoch = comm.epoch then
    let (_, serialized) := transaction.serializeToString proto.toTransactionProto crypto.sha256
    if serialized then
      let response := proto.readResponse transactionSet.proof
      let (helper, _) := comm.sha256Helper.hash response.signature
      let (helper, _) := helper.hash transaction.transactionPayload.digest
      let (helper, digest, _) := helper.execute crypto.sha256
      let transaction := transaction.setTransactionID (transactionIDOf digest)
      ({ comm with
        sha256Helper := helper
        broadcastTransactions := comm.broadcastTransactions ++ [{ transaction, transactionSet }] }, true)
    else (comm, false)
  else (comm, false)

/-- A round of `receiveFromLocalServer` from its CHECK on the epoch on. The verdict is logged. -/
def receiveFromLocalServer (comm : CommController) (responseRaw : Bytes) (transactions : List MockTransaction) :
    CommController × Bool :=
  let response := proto.readResponse responseRaw
  if response.epoch ≠ comm.epoch then (comm, false)
  else
    let transactionSet := {
      proof := responseRaw
      transaction := transactions.map fun transaction =>
        (transaction.serializeToString proto.toTransactionProto crypto.sha256).1 }
    match CheckedLoop.run (receiveLocalTransaction crypto proto transactionSet) comm transactions with
    | (comm, false) => (comm, false)
    | (comm, true) =>
      match verifyBatchHash crypto proto comm.sha256Helper transactionSet response with
      | none => (comm, false)
      | some (helper, _) => ({ comm with sha256Helper := helper }, true)

def receive (comm : CommController) : Admission → CommController × Bool
  | .local_ responseRaw transactions => receiveFromLocalServer crypto proto comm responseRaw transactions
  | .remote transactionSet => receiveSet crypto proto comm transactionSet

def receiveAll (comm : CommController) (admissions : List Admission) : CommController × Bool :=
  CheckedLoop.run (receive crypto proto) comm admissions

def Broadcast.signed (entry : Broadcast) : Bytes × Bytes :=
  ((proto.readResponse entry.transactionSet.proof).signature, entry.transaction.transactionPayload.digest)

def signedRaw (transactionSet : TransactionsWithProof) (transactionRaw : Bytes) : List (Bytes × Bytes) :=
  match MockTransaction.new.deserializeFromString proto.toTransactionProto transactionRaw with
  | some (transaction, true) =>
    [((proto.readResponse transactionSet.proof).signature, transaction.transactionPayload.digest)]
  | _ => []

def Admission.signed : Admission → List (Bytes × Bytes)
  | .local_ responseRaw transactions => transactions.map fun transaction =>
    ((proto.readResponse responseRaw).signature, transaction.transactionPayload.digest)
  | .remote transactionSet => transactionSet.transaction.flatMap (signedRaw proto transactionSet)

def signedID (signed : Bytes × Bytes) : Nat := transactionIDOf (crypto.sha256 (signed.1 ++ signed.2))

/-- IDs made of signature and digest, none of them 0 and no two the same. -/
structure WellFormedIDs (entries : List Broadcast) : Prop where
  hashed : ∀ entry ∈ entries, entry.transaction.tid = signedID crypto (Broadcast.signed proto entry)
  nonzero : ∀ entry ∈ entries, entry.transaction.tid ≠ 0
  distinct : (entries.map fun entry => entry.transaction.tid).Nodup

/-- The ID that the code makes: the second call of `hash` forgets the signature. -/
def digestID (signed : Bytes × Bytes) : Nat := transactionIDOf (crypto.sha256 signed.2)

/-- What the queue holds, by what went into the IDs. -/
def assigned (comm : CommController) : List ((Bytes × Bytes) × Nat) :=
  comm.broadcastTransactions.map fun entry => (Broadcast.signed proto entry, entry.transaction.tid)

variable {crypto proto}

theorem receiveTransaction_assigned (transactionSet : TransactionsWithProof) (comm : CommController)
    (transactionRaw : Bytes) (passed : (receiveTransaction crypto proto transactionSet comm transactionRaw).2 = true) :
    assigned proto (receiveTransaction crypto proto transactionSet comm transactionRaw).1 =
      assigned proto comm ++ (signedRaw proto transactionSet transactionRaw).map fun signed =>
        (signed, digestID crypto signed) := by
  unfold receiveTransaction at passed ⊢
  unfold signedRaw
  rcases reads : MockTransaction.deserializeFromString proto.toTransactionProto .new transactionRaw with
    _ | ⟨transaction, _ | _⟩
  · simp [reads] at passed
  · simp [reads] at passed
  · by_cases same : transaction.epoch = comm.epoch
    · simp [assigned, same, SHA256Helper.execute, Broadcast.signed, digestID, MockTransaction.setTransactionID]
    · simp [reads, same] at passed

theorem receiveSet_assigned (comm : CommController) (transactionSet : TransactionsWithProof)
    (passed : (receiveSet crypto proto comm transactionSet).2 = true) :
    assigned proto (receiveSet crypto proto comm transactionSet).1 =
      assigned proto comm ++ (Admission.signed proto (.remote transactionSet)).map fun signed =>
        (signed, digestID crypto signed) := by
  unfold receiveSet at passed ⊢
  split at passed
  · cases passed
  · rw [CheckedLoop.run_appends (assigned proto) _ (receiveTransaction_assigned transactionSet) passed,
      Admission.signed, List.map_flatMap]
    rfl

theorem receiveLocalTransaction_assigned (transactionSet : TransactionsWithProof) (comm : CommController)
    (transaction : MockTransaction)
    (passed : (receiveLocalTransaction crypto proto transactionSet comm transaction).2 = true) :
    assigned proto (receiveLocalTransaction crypto proto transactionSet comm transaction).1 =
      assigned proto comm ++
        [(((proto.readResponse transactionSet.proof).signature, transaction.transactionPayload.digest),
          transactionIDOf (crypto.sha256 transaction.transactionPayload.digest))] := by
  unfold receiveLocalTransaction at passed ⊢
  split at passed
  · next same =>
    simp [assigned, same, SHA256Helper.execute, Broadcast.signed, MockTransaction.setTransactionID,
      MockTransaction.serializeToString_eq]
  · cases passed

theorem receiveFromLocalServer_assigned (comm : CommController) (responseRaw : Bytes)
    (transactions : List MockTransaction)
    (passed : (receiveFromLocalServer crypto proto comm responseRaw transactions).2 = true) :
    assigned proto (receiveFromLocalServer crypto proto comm responseRaw transactions).1 =
      assigned proto comm ++ (Admission.signed proto (.local_ responseRaw transactions)).map fun signed =>
        (signed, digestID crypto signed) := by
  unfold receiveFromLocalServer at passed ⊢
  dsimp only at passed ⊢
  split at passed
  · cases passed
  · next same =>
    rw [if_neg same]
    split at passed
    · cases passed
    · next after completed =>
      have looped := CheckedLoop.run_appends (assigned proto) _ (receiveLocalTransaction_assigned _)
        (congrArg Prod.snd completed)
      rw [completed] at looped
      split at passed
      · cases passed
      · next helper verdict verified =>
        refine looped.trans ?_
        rw [Admission.signed, List.map_map]
        exact congrArg (assigned proto comm ++ ·) List.map_eq_flatMap.symm

theorem receiveAll_assigned (comm : CommController) (admissions : List Admission)
    (completed : (receiveAll crypto proto comm admissions).2 = true) :
    assigned proto (receiveAll crypto proto comm admissions).1 =
      assigned proto comm ++ (admissions.flatMap (Admission.signed proto)).map fun signed =>
        (signed, digestID crypto signed) := by
  have each : ∀ state admission, (receive crypto proto state admission).2 = true →
      assigned proto (receive crypto proto state admission).1 =
        assigned proto state ++ (Admission.signed proto admission).map fun signed =>
          (signed, digestID crypto signed) := by
    intro state admission passed
    cases admission with
    | local_ responseRaw transactions => exact receiveFromLocalServer_assigned state responseRaw transactions passed
    | remote transactionSet => exact receiveSet_assigned state transactionSet passed
  rw [List.map_flatMap]
  exact CheckedLoop.run_appends (assigned proto) _ each completed

theorem wellFormedIDs_iff (comm : CommController) :
    WellFormedIDs crypto proto comm.broadcastTransactions ↔
      (∀ entry ∈ assigned proto comm, entry.2 = signedID crypto entry.1) ∧
      (∀ entry ∈ assigned proto comm, entry.2 ≠ 0) ∧
      ((assigned proto comm).map Prod.snd).Nodup := by
  unfold assigned
  rw [List.forall_mem_map, List.forall_mem_map, List.map_map]
  exact ⟨fun ids => ⟨ids.hashed, ids.nonzero, ids.distinct⟩, fun ⟨hashed, nonzero, distinct⟩ =>
    { hashed, nonzero, distinct }⟩
end CommController

/-- The IDs of an epoch are well formed if and only if the first four bytes of the hash of each digest are those
of the hash of its signature and itself, are not all 0, and are no other digest's. -/
theorem transaction_ids_iff (crypto : CommCrypto) (proto : CommProto) (epoch : Nat) (admissions : List Admission)
    (completed : (CommController.receiveAll crypto proto (.new epoch) admissions).2 = true) :
    let signed := admissions.flatMap (CommController.Admission.signed proto)
    CommController.WellFormedIDs crypto proto
        (CommController.receiveAll crypto proto (.new epoch) admissions).1.broadcastTransactions ↔
      (∀ each ∈ signed, CommController.digestID crypto each = CommController.signedID crypto each) ∧
      (∀ each ∈ signed, CommController.digestID crypto each ≠ 0) ∧
      (signed.map (CommController.digestID crypto)).Nodup := by
  intro signed
  have queued := CommController.receiveAll_assigned (.new epoch) admissions completed
  rw [show CommController.assigned proto (.new epoch) = [] from rfl, List.nil_append] at queued
  rw [CommController.wellFormedIDs_iff, queued, List.forall_mem_map, List.forall_mem_map, List.map_map]
  rfl

section SameRequest

theorem transaction_ids_iff_unproved :
    CommController.WellFormedIDs paddedCrypto signedProto
      (CommController.receiveAll paddedCrypto signedProto (.new 1)
        [.remote (batchOf [1]), .remote (batchOf [2])]).1.broadcastTransactions :=
  (transaction_ids_iff paddedCrypto signedProto 1 [.remote (batchOf [1]), .remote (batchOf [2])]
    (by decide +kernel)).mpr (by decide +kernel)

def answerOne (nonce : Nat) : EpochResponse :=
  let response : EpochResponse :=
    { epoch := 1, request := { requestBatchSize := 1, batchHash := (signedRequest 1).digest }, nonce, signature := [] }
  { response with signature := paddedSignature response.message }

/-- The generated code of `signedProto`, where the length of a proof is the nonce of its answer. -/
def noncedProto : CommProto := { signedProto with readResponse := fun proof => answerOne proof.length }

def sameRequest : List Admission :=
  [.local_ [0] [signedTransaction 1 1], .remote { batchOf [1] with proof := [0, 0] }]

theorem same_request_same_id :
    Function.Injective paddedCrypto.sha256 ∧
    (∀ nonce ∈ [1, 2], CommController.Accepts paddedCrypto noncedProto ⟨[], false, false⟩ (batchOf [1]) (answerOne nonce)) ∧
    answerOne 1 ≠ answerOne 2 ∧
    (CommController.receiveAll paddedCrypto noncedProto (.new 1) sameRequest).2 = true ∧
    ¬ CommController.WellFormedIDs paddedCrypto noncedProto
      (CommController.receiveAll paddedCrypto noncedProto (.new 1) sameRequest).1.broadcastTransactions := by
  have verdicts : ∀ nonce ∈ [1, 2], CommController.verifyBatchHash paddedCrypto noncedProto ⟨[], false, false⟩
      (batchOf [1]) (answerOne nonce) = some (⟨(signedRequest 1).digest, true, false⟩, true) := by
    decide +kernel
  refine ⟨fun _ _ same => same, fun nonce known => ⟨_, verdicts nonce known⟩, by decide, by decide +kernel, ?_⟩
  intro ids
  exact absurd ids.distinct (by decide +kernel)

end SameRequest

end Blockchain
