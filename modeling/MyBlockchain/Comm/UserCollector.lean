import MyBlockchain.Transaction.Codec

namespace Blockchain

structure UserRequest where
  payload : Bytes
  digest : Bytes
  deriving DecidableEq, Repr

structure EpochRequest where
  requestBatchSize : Nat
  batchHash : Bytes
  deriving DecidableEq, Repr

structure EpochResponse where
  epoch : Nat
  request : EpochRequest
  nonce : Nat
  signature : Bytes
  deriving DecidableEq, Repr

/-- A helper with its keys: `rsaDecrypt message signature`. -/
structure CryptoSign where
  rsaDecrypt : Bytes → Bytes → Bool

structure CommCrypto where
  sha256 : Bytes → Bytes
  userSignHelper : CryptoSign
  epochServerSignHelper : CryptoSign

/-- What `ParseFromString` leaves in a message where the code does not look at its result. -/
structure CommProto extends TransactionProto where
  readPayload : Bytes → TransactionPayload
  readResponse : Bytes → EpochResponse

def digests (transactions : List MockTransaction) : List Bytes :=
  transactions.map fun transaction => transaction.transactionPayload.digest

/-- What a loop of one-argument `hash` calls makes of the helper. -/
def SHA256Helper.hashAll (helper : SHA256Helper) (data : List Bytes) : SHA256Helper :=
  data.foldl (fun helper item => (helper.hash item).1) helper

theorem SHA256Helper.hashAll_concat (helper : SHA256Helper) (data : List Bytes) (last : Bytes) :
    helper.hashAll (data ++ [last]) = { fed := last, computed := false, corrupted := false } := by
  simp [hashAll]

theorem SHA256Helper.hashAll_getLast (helper : SHA256Helper) {data : List Bytes} {last : Bytes}
    (ends : data.getLast? = some last) :
    helper.hashAll data = { fed := last, computed := false, corrupted := false } := by
  obtain ⟨before, rfl⟩ := List.getLast?_eq_some_iff.mp ends
  exact helper.hashAll_concat before last

namespace UserCollector

variable (crypto : CommCrypto) (proto : CommProto)

/-- The loop over the dequeued items; `none` is a failed CHECK. -/
def collect : SHA256Helper → List UserRequest → Option (SHA256Helper × List MockTransaction)
  | helper, [] => some (helper, [])
  | helper, userRequest :: rest =>
    if crypto.userSignHelper.rsaDecrypt userRequest.payload userRequest.digest then
      let (helper, hashed) := helper.hash userRequest.digest
      if hashed then
        let transactionPayload := { proto.readPayload userRequest.payload with digest := userRequest.digest }
        (collect helper rest).map fun (helper, transactionList) =>
          (helper, { MockTransaction.new with transactionPayload } :: transactionList)
      else none
    else none

/-- A round up to its request to the epoch server; `none` also where nothing was dequeued. -/
def makeRequest (helper : SHA256Helper) (items : List UserRequest) :
    Option (SHA256Helper × List MockTransaction × EpochRequest) :=
  if items = [] then none
  else
    (collect crypto proto helper items).map fun (helper, transactionList) =>
      let (helper, digest, _) := helper.execute crypto.sha256
      (helper, transactionList, { requestBatchSize := items.length, batchHash := digest })

def handOver (transactionList : List MockTransaction) (responseRaw : Bytes) : List MockTransaction × Bytes :=
  (transactionList.map fun transaction => transaction.setEpoch (proto.readResponse responseRaw).epoch, responseRaw)

variable {crypto : CommCrypto} {proto : CommProto}

theorem collect_spec {helper after : SHA256Helper} {items : List UserRequest}
    {transactionList : List MockTransaction}
    (collected : collect crypto proto helper items = some (after, transactionList)) :
    after = helper.hashAll (digests transactionList) ∧ digests transactionList = items.map UserRequest.digest ∧
      ∀ userRequest ∈ items, crypto.userSignHelper.rsaDecrypt userRequest.payload userRequest.digest = true := by
  induction items generalizing helper transactionList with
  | nil =>
    cases collected
    exact ⟨rfl, rfl, by simp⟩
  | cons userRequest rest ih =>
    rw [collect] at collected
    obtain ⟨signed, collected⟩ := Option.ite_none_right_eq_some.mp collected
    simp only [SHA256Helper.hash_eq, if_true] at collected
    obtain ⟨⟨last, more⟩, others, same⟩ := Option.map_eq_some_iff.mp collected
    cases same
    obtain ⟨state, list, checked⟩ := ih others
    refine ⟨?_, congrArg (userRequest.digest :: ·) list, ?_⟩
    · rw [state]
      simp [digests, SHA256Helper.hashAll]
    · intro other member
      rcases List.mem_cons.mp member with rfl | member
      · exact signed
      · exact checked other member

theorem makeRequest_spec {helper after : SHA256Helper} {items : List UserRequest}
    {transactionList : List MockTransaction} {request : EpochRequest}
    (made : makeRequest crypto proto helper items = some (after, transactionList, request)) :
    digests transactionList = items.map UserRequest.digest ∧
      ∃ last, (digests transactionList).getLast? = some last ∧
        request = { requestBatchSize := transactionList.length, batchHash := crypto.sha256 last } := by
  obtain ⟨nonempty, made⟩ := Option.ite_none_left_eq_some.mp made
  obtain ⟨⟨collected, list⟩, looped, same⟩ := Option.map_eq_some_iff.mp made
  cases same
  obtain ⟨state, digestsOf, -⟩ := collect_spec looped
  have length : transactionList.length = items.length := by
    simpa [digests] using congrArg List.length digestsOf
  have some_ : digests transactionList ≠ [] := by
    rw [digestsOf]
    simpa using nonempty
  obtain ⟨last, ends⟩ := Option.isSome_iff_exists.mp (List.getLast?_isSome.mpr some_)
  refine ⟨digestsOf, last, ends, ?_⟩
  rw [state, SHA256Helper.hashAll_getLast _ ends, length]
  rfl

end UserCollector

end Blockchain
