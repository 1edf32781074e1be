import Mathlib.Data.List.Forall2
import MyBlockchain.Comm.UserCollector
import MyBlockchain.Library.CheckedLoop

namespace Blockchain

structure TransactionsWithProof where
  proof : Bytes
  transaction : List Bytes
  deriving DecidableEq, Repr

structure ProxyBroadcast where
  epoch : Nat
  set : List TransactionsWithProof
  deriving DecidableEq, Repr

structure Broadcast where
  transaction : MockTransaction
  transactionSet : TransactionsWithProof
  deriving DecidableEq, Repr

def decimal (value : Nat) : Bytes := (Nat.toDigits 10 value).map fun digit => UInt8.ofNat digit.toNat

def EpochResponse.message (response : EpochResponse) : Bytes :=
  decimal response.epoch ++ response.request.batchHash ++ decimal response.nonce

def transactionIDOf (digest : Bytes) : Nat :=
  (digest.take 4).foldr (fun byte high => byte.toNat + 256 * high) 0

structure CommController where
  epoch : Nat
  sha256Helper : SHA256Helper
  broadcastTransactions : List Broadcast

namespace CommController

variable (crypto : CommCrypto) (proto : CommProto)

def new (epoch : Nat) : CommController :=
  { epoch, sha256Helper := ⟨[], false, false⟩, broadcastTransactions := [] }

/-- The loop of `verifyBatchHash`, which goes on with what `deserializeFromString` could read; `none` is a
failed CHECK inside it. -/
def hashTransactions : SHA256Helper → List Bytes → Option SHA256Helper
  | helper, [] => some helper
  | helper, transactionRaw :: rest =>
    match MockTransaction.new.deserializeFromString proto.toTransactionProto transactionRaw with
    | none => none
    | some (transaction, _) => hashTransactions (helper.hash transaction.transactionPayload.digest).1 rest

def verifyBatchHash (helper : SHA256Helper) (transactionSet : TransactionsWithProof) (response : EpochResponse) :
    Option (SHA256Helper × Bool) :=
  if transactionSet.transaction.length ≠ response.request.requestBatchSize then some (helper, false)
  else
    (hashTransactions proto helper.reset transactionSet.transaction).map fun helper =>
      let (helper, digest, _) := helper.execute crypto.sha256
      if response.request.batchHash ≠ digest then (helper, false)
      else (helper, crypto.epochServerSignHelper.rsaDecrypt response.message response.signature)

/-- A round of the inner loop of `receiveFromOtherServer`; false is a failed CHECK. -/
def receiveTransaction (transactionSet : TransactionsWithProof) (comm : CommController) (transactionRaw : Bytes) :
    CommController × Bool :=
  match MockTransaction.new.deserializeFromString proto.toTransactionProto transactionRaw with
  | some (transaction, true) =>
    if transaction.epoch = comm.epoch then
      let response := proto.readResponse transactionSet.proof
      let (helper, _) := comm.sha256Helper.hash response.signature
      let (helper, _) := helper.hash transaction.transactionPayload.digest
      let (helper, digest, _) := helper.execute crypto.sha256
      let transaction := transaction.setTransactionID (transactionIDOf digest)
      ({ comm with
        sha256Helper := helper
        broadcastTransactions := comm.broadcastTransactions ++ [{ transaction, transactionSet }] }, true)
    else (comm, false)
  | _ => (comm, false)

/-- A verdict of false is logged, and the loop goes on to the transactions. -/
def receiveSet (comm : CommController) (transactionSet : TransactionsWithProof) : CommController × Bool :=
  match verifyBatchHash crypto proto comm.sha256Helper transactionSet (proto.readResponse transactionSet.proof) with
  | none => (comm, false)
  | some (helper, _) =>
    CheckedLoop.run (receiveTransaction crypto proto transactionSet) { comm with sha256Helper := helper }
      transactionSet.transaction

/-- A message, with the value `epoch` has until the next `wait`. -/
def receiveMessage (comm : CommController) (arrival : Nat × ProxyBroadcast) : CommController × Bool :=
  CheckedLoop.run (receiveSet crypto proto) { comm with epoch := arrival.1 } arrival.2.set

def receiveFromOtherServer (comm : CommController) (arrivals : List (Nat × ProxyBroadcast)) :
    CommController × Bool :=
  CheckedLoop.run (receiveMessage crypto proto) comm arrivals

def Accepts (helper : SHA256Helper) (transactionSet : TransactionsWithProof) (response : EpochResponse) : Prop :=
  ∃ after, verifyBatchHash crypto proto helper transactionSet response = some (after, true)

def Reads (transactionRaw : Bytes) (transaction : MockTransaction) : Prop :=
  MockTransaction.new.deserializeFromString proto.toTransactionProto transactionRaw = some (transaction, true)

variable {crypto : CommCrypto} {proto : CommProto}

instance (transactionRaw : Bytes) (transaction : MockTransaction) :
    Decidable (Reads proto transactionRaw transaction) :=
  inferInstanceAs (Decidable (_ = _))

theorem hashTransactions_reads (helper : SHA256Helper) {raws : List Bytes} {transactions : List MockTransaction}
    (reads : List.Forall₂ (Reads proto) raws transactions) :
    hashTransactions proto helper raws = some (helper.hashAll (digests transactions)) := by
  induction reads generalizing helper with
  | nil => rfl
  | cons first _ ih =>
    rw [hashTransactions, first]
    exact ih _

end CommController

/-! Messages, keys and hashes simple enough to run. -/

def readSigned (bytes : Bytes) : TransactionPayload :=
  let (nonce, rest) := match bytes with
    | 0x18 :: rest => (readVarint64 rest).getD (0, [])
    | _ => (0, bytes)
  let digest := match rest with
    | 0x22 :: rest => ((readVarint64 rest).map fun (size, rest) => rest.take size).getD []
    | _ => []
  { TransactionPayload.default with nonce, digest }

def signedProto : CommProto where
  payloadToBytes payload :=
    (if payload.nonce = 0 then [] else 0x18 :: Varint.encode payload.nonce) ++
      if payload.digest = [] then [] else 0x22 :: Varint.delimited payload.digest
  parsePayload bytes := some (readSigned bytes)
  rwSetToBytes _ := []
  parseRWSet _ := some .empty
  readPayload := readSigned
  -- the only proof read is the empty one
  readResponse _ := { epoch := 0, request := { requestBatchSize := 0, batchHash := [] }, nonce := 0, signature := [] }

def paddedSignature (message : Bytes) : Bytes := message ++ List.replicate (128 - message.length) 0

def paddedSign : CryptoSign := { rsaDecrypt := fun message signature => signature = paddedSignature message }

def paddedCrypto : CommCrypto :=
  { sha256 := fun bytes => bytes, userSignHelper := paddedSign, epochServerSignHelper := paddedSign }

def signedRequest (nonce : Nat) : UserRequest :=
  let payload := signedProto.payloadToBytes { TransactionPayload.default with nonce }
  { payload, digest := paddedSignature payload }

def signedTransaction (epoch nonce : Nat) : MockTransaction :=
  let transactionPayload := { TransactionPayload.default with nonce, digest := (signedRequest nonce).digest }
  { MockTransaction.new with epoch, transactionPayload }

end Blockchain
