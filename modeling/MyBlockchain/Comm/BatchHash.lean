import MyBlockchain.Comm.CommController

namespace Blockchain

namespace CommController

variable {crypto : CommCrypto} {proto : CommProto} {transactionSet : TransactionsWithProof}
  {response : EpochResponse} {transactions : List MockTransaction}

/-- A signed response is accepted for every batch of its size that ends in the digest it was made for. -/
theorem accepts_iff_last (injective : Function.Injective crypto.sha256) (helper : SHA256Helper)
    (reads : List.Forall₂ (Reads proto) transactionSet.transaction transactions)
    (size : response.request.requestBatchSize = transactions.length) {last : Bytes}
    (batchHash : response.request.batchHash = crypto.sha256 last) (nonempty : transactions ≠ [])
    (signed : crypto.epochServerSignHelper.rsaDecrypt response.message response.signature = true) :
    Accepts crypto proto helper transactionSet response ↔ (digests transactions).getLast? = some last := by
  have length := reads.length_eq
  obtain ⟨final, ends⟩ : ∃ final, (digests transactions).getLast? = some final := by
    refine Option.isSome_iff_exists.mp (List.getLast?_isSome.mpr ?_)
    simpa [digests] using nonempty
  have hashed := hashTransactions_reads helper.reset reads
  rw [SHA256Helper.hashAll_getLast _ ends] at hashed
  have verified : verifyBatchHash crypto proto helper transactionSet response =
      some (⟨final, true, false⟩, decide (crypto.sha256 last = crypto.sha256 final)) := by
    rw [verifyBatchHash, if_neg (by omega), hashed]
    by_cases same : crypto.sha256 last = crypto.sha256 final
    · simp [SHA256Helper.execute, batchHash, same, signed]
    · simp [SHA256Helper.execute, batchHash, same]
  rw [Accepts, verified, ends]
  simp only [Option.some.injEq, Prod.mk.injEq, decide_eq_true_eq]
  constructor
  · rintro ⟨-, -, same⟩
    exact (injective same).symm
  · rintro rfl
    exact ⟨_, rfl, rfl⟩

end CommController

/-- The batch hash tells a batch from another one of its size if and only if they differ in their last digests
whenever they differ. -/
theorem batch_hash_binds_iff {crypto : CommCrypto} {proto : CommProto}
    (injective : Function.Injective crypto.sha256) {start after : SHA256Helper} {items : List UserRequest}
    {first second : List MockTransaction}
    {request : EpochRequest} (made : UserCollector.makeRequest crypto proto start items = some (after, first, request))
    {response : EpochResponse} (answers : response.request = request)
    (signed : crypto.epochServerSignHelper.rsaDecrypt response.message response.signature = true)
    {transactionSet : TransactionsWithProof}
    (reads : List.Forall₂ (CommController.Reads proto) transactionSet.transaction second)
    (length : second.length = first.length) (helper : SHA256Helper) :
    (CommController.Accepts crypto proto helper transactionSet response ↔ digests first = digests second) ↔
      ((digests first).getLast? = (digests second).getLast? → digests first = digests second) := by
  obtain ⟨-, last, ends, requested⟩ := UserCollector.makeRequest_spec made
  have nonempty : second ≠ [] := by
    rintro rfl
    rw [List.eq_nil_of_length_eq_zero length.symm] at ends
    cases ends
  have verdict := CommController.accepts_iff_last injective helper reads
    (by rw [answers, requested, length]) (by rw [answers, requested]) nonempty signed
  rw [verdict, ends]
  constructor
  · exact fun binds same => binds.mp same.symm
  · refine fun binds => ⟨fun same => binds same.symm, fun same => ?_⟩
    rw [← same, ends]

section SameLast

def batchOf (nonces : List Nat) : TransactionsWithProof :=
  { proof := []
    transaction := nonces.map fun nonce =>
      ((signedTransaction 1 nonce).serializeToString signedProto.toTransactionProto paddedCrypto.sha256).1 }

def answerTwo : EpochResponse :=
  let response : EpochResponse :=
    { epoch := 1
      request := { requestBatchSize := 2, batchHash := (signedRequest 3).digest }
      nonce := 2
      signature := [] }
  { response with signature := paddedSignature response.message }

theorem batchOf_reads : ∀ first ∈ [1, 2], List.Forall₂ (CommController.Reads signedProto)
    (batchOf [first, 3]).transaction [signedTransaction 1 first, signedTransaction 1 3] := by
  intro first member
  refine .cons ?_ (.cons (by decide +kernel) .nil)
  revert first
  decide +kernel

theorem request_two : UserCollector.makeRequest paddedCrypto signedProto ⟨[], false, false⟩
    [signedRequest 1, signedRequest 3] =
      some (⟨(signedRequest 3).digest, true, false⟩, [signedTransaction 0 1, signedTransaction 0 3],
        answerTwo.request) := by
  decide +kernel

theorem batch_hash_binds_iff_two :
    ∃ after first, UserCollector.makeRequest paddedCrypto signedProto ⟨[], false, false⟩
        [signedRequest 1, signedRequest 3] = some (after, first, answerTwo.request) ∧
      (CommController.Accepts paddedCrypto signedProto ⟨[], false, false⟩ (batchOf [1, 3]) answerTwo ↔
        digests first = digests [signedTransaction 1 1, signedTransaction 1 3]) := by
  refine ⟨_, _, request_two, ?_⟩
  have binds := batch_hash_binds_iff (fun _ _ same => same) request_two rfl (by decide +kernel)
    (batchOf_reads 1 (by decide)) rfl ⟨[], false, false⟩
  exact binds.mpr fun _ => by decide +kernel

theorem same_last_digest_accepted :
    Function.Injective paddedCrypto.sha256 ∧
    ∃ after first, UserCollector.makeRequest paddedCrypto signedProto ⟨[], false, false⟩
        [signedRequest 1, signedRequest 3] = some (after, first, answerTwo.request) ∧
      paddedCrypto.epochServerSignHelper.rsaDecrypt answerTwo.message answerTwo.signature = true ∧
      (∀ digest ∈ digests first ++ digests [signedTransaction 1 2, signedTransaction 1 3], digest.length = 128) ∧
      List.Forall₂ (CommController.Reads signedProto) (batchOf [2, 3]).transaction
        [signedTransaction 1 2, signedTransaction 1 3] ∧
      ¬ (CommController.Accepts paddedCrypto signedProto ⟨[], false, false⟩ (batchOf [2, 3]) answerTwo ↔
        digests first = digests [signedTransaction 1 2, signedTransaction 1 3]) := by
  refine ⟨fun _ _ same => same, _, _, request_two, by decide +kernel, by decide +kernel,
    batchOf_reads 2 (by decide), fun binds => ?_⟩
  have accepted :
      CommController.verifyBatchHash paddedCrypto signedProto ⟨[], false, false⟩ (batchOf [2, 3]) answerTwo =
      some (⟨(signedRequest 3).digest, true, false⟩, true) := by
    decide +kernel
  have different : digests [signedTransaction 0 1, signedTransaction 0 3] ≠
      digests [signedTransaction 1 2, signedTransaction 1 3] := by
    decide +kernel
  exact different (binds.mp ⟨_, accepted⟩)

end SameLast

end Blockchain
