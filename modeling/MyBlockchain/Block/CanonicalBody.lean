import MyBlockchain.Block.RootBinding
import MyBlockchain.Block.StoredChain

namespace Blockchain

namespace BlockStorageToFile

open MerkleTree

variable {crypto : BlockCrypto} {proto : TransactionProto} {heap : Heap} {storage after : BlockStorageToFile}
  {block body : Block} {refs : List Ref}

/-- The while loop of `generateBlockBody`, which fills the data and the first metadata entry together. -/
def fillBody (crypto : BlockCrypto) (proto : TransactionProto) (heap : Heap) :
    Nat → List Ref → List Bytes → Bytes → Option (List Ref × List Bytes × Bytes)
  | 0, transactionQueue, data, trMetadata => some (transactionQueue, data, trMetadata)
  | rounds + 1, transactionQueue, data, trMetadata =>
    match PriorityQueue.top (fun r => (heap r).tid) transactionQueue with
    | none => some (transactionQueue, data, trMetadata)
    | some transaction =>
      let (serialized, checked) := (heap transaction).serializeToString proto crypto.sha256
      if checked then
        fillBody crypto proto heap rounds (transactionQueue.erase transaction) (data ++ [serialized])
          (trMetadata ++ [crypto.resultByte (heap transaction).transactionResult])
      else none

/-- `generateBlockBody` step by step; `none` is a failed CHECK. -/
def generateCheckedBody (crypto : BlockCrypto) (proto : TransactionProto) (heap : Heap)
    (storage : BlockStorageToFile) (block : Block) : Option (BlockStorageToFile × Block) :=
  match fillBody crypto proto heap storage.transactionQueue.length storage.transactionQueue block.data [] with
  | none => none
  | some (transactionQueue, data, trMetadata) =>
    (blockRoot crypto data).map fun (root, _) =>
      ({ storage with transactionQueue },
        { block with data, metadata := block.metadata ++ [trMetadata, [], crypto.rsaEncrypt root] })

def addAll (storage : BlockStorageToFile) (refs : List Ref) : BlockStorageToFile :=
  refs.foldl addPendingTransaction storage

theorem addAll_queue (storage : BlockStorageToFile) (refs : List Ref) :
    (storage.addAll refs).transactionQueue = storage.transactionQueue ++ refs := by
  rw [addAll, foldl_addPendingTransaction]

theorem fillBody_eq (rounds : Nat) (transactionQueue : List Ref) (enough : transactionQueue.length ≤ rounds)
    (data : List Bytes) (trMetadata : Bytes) :
    fillBody crypto proto heap rounds transactionQueue data trMetadata =
      some ([], data ++ (PriorityQueue.drain (fun r => (heap r).tid) rounds transactionQueue).map fun r =>
          ((heap r).serializeToString proto crypto.sha256).1,
        trMetadata ++ (PriorityQueue.drain (fun r => (heap r).tid) rounds transactionQueue).map fun r =>
          crypto.resultByte (heap r).transactionResult) := by
  induction rounds generalizing transactionQueue data trMetadata with
  | zero =>
    rw [List.length_eq_zero_iff.mp (Nat.le_zero.mp enough)]
    simp [fillBody, PriorityQueue.drain]
  | succ rounds ih =>
    unfold fillBody PriorityQueue.drain
    cases popped : PriorityQueue.top (fun r => (heap r).tid) transactionQueue with
    | none =>
      rw [PriorityQueue.top_eq_none_iff.mp popped]
      simp
    | some transaction =>
      have shorter : (transactionQueue.erase transaction).length ≤ rounds := by
        rw [List.length_erase_of_mem (PriorityQueue.top_spec popped).1]
        omega
      dsimp only
      rw [MockTransaction.serializeToString_eq, if_pos rfl, ih _ shorter]
      simp [MockTransaction.serializeToString_eq]

theorem generateCheckedBody_spec
    (returned : generateCheckedBody crypto proto heap storage block = some (after, body)) :
    after = { storage with transactionQueue := [] } ∧
    body.data = block.data ++ (popAll heap storage.transactionQueue).map (fun r =>
      ((heap r).serializeToString proto crypto.sha256).1) ∧
    ∃ root pairs, blockRoot crypto body.data = some (root, pairs) ∧
      body = { block with
        data := body.data
        metadata := block.metadata ++ [(popAll heap storage.transactionQueue).map fun r =>
          crypto.resultByte (heap r).transactionResult, [], crypto.rsaEncrypt root] } := by
  unfold generateCheckedBody at returned
  rw [fillBody_eq _ _ (Nat.le_refl _)] at returned
  obtain ⟨⟨root, pairs⟩, computed, same⟩ := Option.map_eq_some_iff.mp returned
  cases same
  exact ⟨rfl, rfl, root, pairs, computed, rfl⟩

theorem generateCheckedBody_eq
    (returned : generateCheckedBody crypto proto heap storage block = some (after, body)) :
    generateBlockBody (withMerkleTree crypto) proto heap storage block = some (after, body) := by
  obtain ⟨rfl, data, root, pairs, computed, same⟩ := generateCheckedBody_spec returned
  have signed := merkleRoot_eq computed
  rw [data] at signed same
  rw [same]
  have digests : ∀ entries, leafDigests (withMerkleTree crypto) entries = leafDigests crypto entries := fun _ => rfl
  simp only [generateBlockBody, serializeAll_eq, if_true, List.map_map, digests]
  rw [← signed]
  rfl

/-- The CHECKs pass for every queue of 1 to 2^18 transactions. -/
theorem generateCheckedBody_returns (length : ∀ bytes, (crypto.sha256 bytes).length = hashLength)
    (pending : storage.transactionQueue ≠ []) (few : storage.transactionQueue.length ≤ 2 ^ rootHeight) :
    ∃ after body, generateCheckedBody crypto proto heap storage Block.new = some (after, body) := by
  obtain ⟨root, pairs, computed⟩ := pendingData_root length proto heap pending few
  unfold generateCheckedBody
  rw [fillBody_eq _ _ (Nat.le_refl _)]
  have data : Block.new.data ++ (PriorityQueue.drain (fun r => (heap r).tid) storage.transactionQueue.length
      storage.transactionQueue).map (fun r => ((heap r).serializeToString proto crypto.sha256).1) =
      pendingData crypto proto heap storage.transactionQueue := rfl
  dsimp only
  rw [data, computed]
  exact ⟨_, _, rfl⟩

/-- Distinct IDs leave no choice to the queue: the largest comes first. -/
theorem popAll_decreasing (distinct : (refs.map fun r => (heap r).tid).Nodup) :
    (popAll heap refs).Pairwise fun r s => (heap s).tid < (heap r).tid := by
  have sorted : (popAll heap refs).Pairwise fun r s => (heap s).tid ≤ (heap r).tid :=
    PriorityQueue.drain_sorted _ _
  have apart : (popAll heap refs).Pairwise fun r s => (heap r).tid ≠ (heap s).tid :=
    List.pairwise_map.mp (((popAll_perm heap refs).map _).nodup_iff.mpr distinct)
  exact (sorted.and apart).imp fun both => Nat.lt_of_le_of_ne both.1 both.2.symm

/-- The body of a block is this list of transactions: their serializations, and one result byte for each. -/
structure Lists (crypto : BlockCrypto) (proto : TransactionProto) (heap : Heap) (block : Block)
    (order : List Ref) : Prop where
  data : block.data = order.map fun r => ((heap r).serializeToString proto crypto.sha256).1
  results : block.metadata.head? = some (order.map fun r => crypto.resultByte (heap r).transactionResult)

end BlockStorageToFile

open BlockStorageToFile in
/-- The body lists the pending transactions from the largest ID to the smallest, in whatever order they came. -/
theorem block_body_canonical (crypto : BlockCrypto) (proto : TransactionProto) (heap : Heap)
    (storage after : BlockStorageToFile) (empty : storage.transactionQueue = []) (refs : List Ref)
    (distinct : (refs.map fun r => (heap r).tid).Nodup) (block : Block)
    (returned : generateCheckedBody crypto proto heap (storage.addAll refs) Block.new = some (after, block)) :
    after.transactionQueue = [] ∧
    (∃ order : List Ref, order.Perm refs ∧ (order.Pairwise fun r s => (heap s).tid < (heap r).tid) ∧
      Lists crypto proto heap block order) ∧
    ∀ (other otherAfter : BlockStorageToFile) (others : List Ref) (otherBlock : Block),
      other.transactionQueue = [] → others.Perm refs →
      generateCheckedBody crypto proto heap (other.addAll others) Block.new = some (otherAfter, otherBlock) →
      otherBlock.data = block.data ∧ otherBlock.metadata.head? = block.metadata.head? := by
  have lists : ∀ {storage after : BlockStorageToFile} {refs : List Ref} {block : Block},
      storage.transactionQueue = [] →
      generateCheckedBody crypto proto heap (storage.addAll refs) Block.new = some (after, block) →
      after.transactionQueue = [] ∧ Lists crypto proto heap block (popAll heap refs) := by
    intro storage after refs block empty returned
    obtain ⟨rfl, data, root, pairs, -, same⟩ := generateCheckedBody_spec returned
    rw [addAll_queue, empty, List.nil_append] at data same
    refine ⟨rfl, data, ?_⟩
    rw [same]
    rfl
  have distinctRefs : ∀ r ∈ refs, ∀ s ∈ refs, (heap r).tid = (heap s).tid → r = s :=
    fun r first s second => List.inj_on_of_nodup_map distinct first second
  obtain ⟨emptied, body⟩ := lists empty returned
  refine ⟨emptied, ⟨popAll heap refs, popAll_perm heap refs, popAll_decreasing distinct, body⟩, ?_⟩
  intro other otherAfter others otherBlock otherEmpty perm otherReturned
  obtain ⟨-, otherBody⟩ := lists otherEmpty otherReturned
  have same : popAll heap refs = popAll heap others := popAll_eq_of_perm perm.symm distinctRefs
  rw [otherBody.data, body.data, otherBody.results, body.results, same]
  exact ⟨rfl, rfl⟩

def numberedHeap : Heap := fun r => { MockTransaction.new with tid := r }

theorem block_body_canonical_two : ∃ after block,
    BlockStorageToFile.generateCheckedBody lengthCrypto counterProto numberedHeap (emptyStorage.addAll [1, 2])
      Block.new = some (after, block) ∧
    ∃ order : List Ref, order.Perm [1, 2] ∧ (order.Pairwise fun r s => s < r) ∧
      BlockStorageToFile.Lists lengthCrypto counterProto numberedHeap block order := by
  obtain ⟨after, block, returned⟩ := @BlockStorageToFile.generateCheckedBody_returns lengthCrypto counterProto
    numberedHeap (emptyStorage.addAll [1, 2]) lengthHash_length (by decide) (by decide)
  obtain ⟨-, body, -⟩ := block_body_canonical lengthCrypto counterProto numberedHeap emptyStorage after rfl [1, 2]
    (by decide) block returned
  exact ⟨after, block, returned, body⟩

end Blockchain
