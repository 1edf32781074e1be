import Mathlib.Logic.Function.Basic
import MyBlockchain.Library.PriorityQueue
import MyBlockchain.Transaction.Codec

namespace Blockchain

open Varint

/-- The cryptographic code behind the storage, and the numbers of the enumeration `TransactionResult`. -/
structure BlockCrypto where
  sha256 : Bytes → Bytes
  merkleRoot : List Bytes → Bytes
  rsaEncrypt : Bytes → Bytes
  rsaDecrypt : Bytes → Bytes → Bool
  resultByte : TransactionResult → UInt8

structure BlockHeader where
  number : Nat
  previousHash : Bytes
  dataHash : Bytes
  deriving DecidableEq, Repr

structure Block where
  header : BlockHeader
  data : List Bytes
  metadata : List Bytes
  deriving DecidableEq, Repr

namespace Block

def new : Block := { header := { number := 0, previousHash := [], dataHash := [] }, data := [], metadata := [] }

/-- `SerializeAsString` of a message whose only field is `repeated bytes`, with number 1. -/
def serializeAsString (entries : List Bytes) : Bytes := entries.flatMap fun entry => 0x0A :: delimited entry

end Block

/-- `transactionQueue` holds the queue's elements in no order; `blockNum` and `files` are what the files
`block_num.txt` and `<number>.bin` hold. -/
structure BlockStorageToFile where
  transactionQueue : List Ref
  blockNum : Nat
  files : Nat → Option Block

namespace BlockStorageToFile

variable (crypto : BlockCrypto)

def initFunc (storage : BlockStorageToFile) : BlockStorageToFile := { storage with blockNum := 0 }

def insertBlock (storage : BlockStorageToFile) (block : Block) : BlockStorageToFile :=
  { storage with files := Function.update storage.files block.header.number (some block) }

def loadBlock (storage : BlockStorageToFile) (block : Block) : Option Block :=
  storage.files block.header.number

def getLatestSavedEpoch (storage : BlockStorageToFile) : Nat := storage.blockNum

def updateLatestSavedEpoch (storage : BlockStorageToFile) (epoch : Nat) : BlockStorageToFile :=
  { storage with blockNum := epoch }

/-- `hash`, `append` and `execute` on the two parts of a block. What the helper held before does not matter
(`dataHash_eq`), so that each use may start with a new one. -/
def dataHash (helper : SHA256Helper) (block : Block) : Bytes × Bool :=
  let (helper, hashed) := helper.hash (Block.serializeAsString block.data)
  if hashed then
    let (helper, appended) := helper.append (Block.serializeAsString block.metadata)
    if appended then (helper.execute crypto.sha256).2 else ([], false)
  else ([], false)

def leafDigests (data : List Bytes) : List Bytes :=
  data.map fun entry => (SHA256Helper.hashTo crypto.sha256 ⟨[], false, false⟩ entry).2.1

/-- `none` is a block that is not there or does not pass a check; the parameter is a `uint32_t`. -/
def deserializeBlock (storage : BlockStorageToFile) (epoch : Nat) (checksum : Bool) : Option Block :=
  match storage.loadBlock { Block.new with header := { Block.new.header with number := epoch % 2 ^ 32 } } with
  | none => none
  | some block =>
    let (hashResult, hashed) := dataHash crypto ⟨[], false, false⟩ block
    if !hashed then none
    else if hashResult ≠ block.header.dataHash then none
    else if checksum then
      let root := crypto.merkleRoot (leafDigests crypto block.data)
      match block.metadata with
      | blkSignature :: _ :: _ => if crypto.rsaDecrypt root blkSignature then some block else none
      | _ => none
    else some block

def addPendingTransaction (storage : BlockStorageToFile) (transaction : Ref) : BlockStorageToFile :=
  { storage with transactionQueue := storage.transactionQueue ++ [transaction] }

theorem foldl_addPendingTransaction (storage : BlockStorageToFile) (refs : List Ref) :
    refs.foldl addPendingTransaction storage =
      { storage with transactionQueue := storage.transactionQueue ++ refs } := by
  induction refs generalizing storage with
  | nil => simp
  | cons r rest ih => simp [ih, addPendingTransaction]

/-- The transactions in the order in which the queue gives them up: largest id first. -/
def popAll (heap : Heap) (transactionQueue : List Ref) : List Ref :=
  PriorityQueue.drain (fun r => (heap r).tid) transactionQueue.length transactionQueue

/-- The second component is false where a `CHECK` on `serializeToString` fails. -/
def serializeAll (proto : TransactionProto) (transactions : List MockTransaction) : List Bytes × Bool :=
  let serialized := transactions.map (MockTransaction.serializeToString proto crypto.sha256)
  (serialized.map Prod.fst, serialized.all Prod.snd)

/-- Metadata: one result a transaction, an empty Merkle root, the signature of the block. -/
def generateBlockBody (proto : TransactionProto) (heap : Heap) (storage : BlockStorageToFile) (block : Block) :
    Option (BlockStorageToFile × Block) :=
  let transactions := (popAll heap storage.transactionQueue).map heap
  let (serialized, checked) := serializeAll crypto proto transactions
  if checked then
    let trMetadata := transactions.map fun transaction => crypto.resultByte transaction.transactionResult
    let data := block.data ++ serialized
    let blkSignature := crypto.rsaEncrypt (crypto.merkleRoot (leafDigests crypto data))
    some ({ storage with transactionQueue := [] },
      { block with data, metadata := block.metadata ++ [trMetadata, [], blkSignature] })
  else none

/-- `none` is a failed CHECK on the block before, or a failed hash. -/
def generateBlockHeader (storage : BlockStorageToFile) (block : Block) : Option Block :=
  let (hashResult, hashed) := dataHash crypto ⟨[], false, false⟩ block
  if !hashed then none
  else
    let lastEpoch := storage.getLatestSavedEpoch
    let header := { block.header with dataHash := hashResult, number := lastEpoch + 1 }
    if 0 < lastEpoch then
      (storage.deserializeBlock crypto lastEpoch false).map fun previous =>
        { block with header := { header with previousHash := previous.header.dataHash } }
    else some { block with header }

def appendBlock (storage : BlockStorageToFile) (block : Block) : BlockStorageToFile :=
  (storage.insertBlock block).updateLatestSavedEpoch block.header.number

def generateBlock (proto : TransactionProto) (heap : Heap) (storage : BlockStorageToFile) :
    Option (BlockStorageToFile × Block) :=
  match storage.generateBlockBody crypto proto heap Block.new with
  | none => none
  | some (storage, block) =>
    (storage.generateBlockHeader crypto block).map fun block => (storage.appendBlock block, block)

@[simp] theorem dataHash_eq (helper : SHA256Helper) (block : Block) :
    dataHash crypto helper block =
      (crypto.sha256 (Block.serializeAsString block.data ++ Block.serializeAsString block.metadata), true) := by
  simp [dataHash, SHA256Helper.append_running, SHA256Helper.execute]

@[simp] theorem serializeAll_eq (proto : TransactionProto) (transactions : List MockTransaction) :
    serializeAll crypto proto transactions =
      (transactions.map fun t => (t.serializeToString proto crypto.sha256).1, true) := by
  simp [serializeAll, MockTransaction.serializeToString_eq, Function.comp_def]

theorem popAll_perm (heap : Heap) (queue : List Ref) : (popAll heap queue).Perm queue :=
  PriorityQueue.drain_perm (Nat.le_refl _)

theorem popAll_eq_of_perm {heap : Heap} {first second : List Ref} (perm : first.Perm second)
    (distinct : ∀ r ∈ first, ∀ s ∈ first, (heap r).tid = (heap s).tid → r = s) :
    popAll heap first = popAll heap second :=
  PriorityQueue.drain_eq_of_perm perm distinct

theorem generateBlockBody_eq (proto : TransactionProto) (heap : Heap) (storage : BlockStorageToFile)
    (block : Block) :
    ∃ blkSignature, storage.generateBlockBody crypto proto heap block =
      some ({ storage with transactionQueue := [] },
        { block with
          data := block.data ++ (popAll heap storage.transactionQueue).map fun r =>
            ((heap r).serializeToString proto crypto.sha256).1
          metadata := block.metadata ++ [(popAll heap storage.transactionQueue).map fun r =>
            crypto.resultByte (heap r).transactionResult, [], blkSignature] }) := by
  refine ⟨crypto.rsaEncrypt (crypto.merkleRoot (leafDigests crypto (block.data ++
    (popAll heap storage.transactionQueue).map fun r =>
      ((heap r).serializeToString proto crypto.sha256).1))), ?_⟩
  simp [generateBlockBody, Function.comp_def]

def pendingData (proto : TransactionProto) (heap : Heap) (transactionQueue : List Ref) : List Bytes :=
  (popAll heap transactionQueue).map fun r => ((heap r).serializeToString proto crypto.sha256).1

def pendingResults (heap : Heap) (transactionQueue : List Ref) : Bytes :=
  (popAll heap transactionQueue).map fun r => crypto.resultByte (heap r).transactionResult

def newBody (proto : TransactionProto) (heap : Heap) (transactionQueue : List Ref) : Block :=
  let data := pendingData crypto proto heap transactionQueue
  { Block.new with
    data
    metadata := [pendingResults crypto heap transactionQueue, [],
      crypto.rsaEncrypt (crypto.merkleRoot (leafDigests crypto data))] }

theorem generateBlockBody_new (proto : TransactionProto) (heap : Heap) (storage : BlockStorageToFile) :
    storage.generateBlockBody crypto proto heap Block.new =
      some ({ storage with transactionQueue := [] }, newBody crypto proto heap storage.transactionQueue) := by
  simp [generateBlockBody, newBody, pendingData, pendingResults, Block.new, Function.comp_def]

theorem pendingData_length (proto : TransactionProto) (heap : Heap) (transactionQueue : List Ref) :
    (pendingData crypto proto heap transactionQueue).length = transactionQueue.length := by
  rw [pendingData, List.length_map, (popAll_perm heap transactionQueue).length_eq]

theorem generateBlock_spec {crypto : BlockCrypto} {proto : TransactionProto} {heap : Heap}
    {storage next : BlockStorageToFile} {block : Block}
    (generated : storage.generateBlock crypto proto heap = some (next, block)) :
    block.header.number = storage.blockNum + 1 ∧
    block.data = (popAll heap storage.transactionQueue).map
      (fun r => ((heap r).serializeToString proto crypto.sha256).1) ∧
    next = { transactionQueue := [], blockNum := storage.blockNum + 1,
             files := Function.update storage.files (storage.blockNum + 1) (some block) } := by
  obtain ⟨signature, body⟩ := generateBlockBody_eq crypto proto heap storage Block.new
  rw [generateBlock, body] at generated
  obtain ⟨made, header, same⟩ := Option.map_eq_some_iff.mp generated
  cases same
  simp only [generateBlockHeader, dataHash_eq, Bool.not_true, Bool.false_eq_true, if_false, getLatestSavedEpoch]
    at header
  split at header
  · obtain ⟨previous, -, rfl⟩ := Option.map_eq_some_iff.mp header
    exact ⟨rfl, by simp [Block.new], rfl⟩
  · cases header
    exact ⟨rfl, by simp [Block.new], rfl⟩

end BlockStorageToFile

/-! Code generation and cryptography simple enough to run. -/

def counterProto : TransactionProto where
  payloadToBytes payload := payload.header ++ payload.payload
  parsePayload _ := none
  rwSetToBytes _ := []
  parseRWSet _ := none

def counterCrypto : BlockCrypto where
  sha256 bytes := bytes
  merkleRoot digests := digests.flatten
  rsaEncrypt root := root
  rsaDecrypt root signature := root = signature
  resultByte result := match result with | .PENDING => 0 | .COMMIT => 1 | .ABORT => 2 | .ABORT_NO_RETRY => 3

end Blockchain
