import MyBlockchain.Block.HashChain

namespace Blockchain

structure PendingBlock where
  heap : Heap
  first : Ref
  others : List Ref

namespace BlockStorageToFile

variable (crypto : BlockCrypto) (proto : TransactionProto)

def addPending (storage : BlockStorageToFile) (pending : PendingBlock) : BlockStorageToFile :=
  (pending.first :: pending.others).foldl addPendingTransaction storage

/-- Calls of `generateBlock`, each after its transactions were added; `none` is a run that a failed CHECK ends. -/
def generateBlocks : BlockStorageToFile → List PendingBlock → Option BlockStorageToFile
  | storage, [] => some storage
  | storage, pending :: rest =>
    match (storage.addPending pending).generateBlock crypto proto pending.heap with
    | none => none
    | some (storage, _) => generateBlocks storage rest

/-- The counter is `n`, and blocks 1 to `n` are there, read back and linked. -/
structure StoredChain (storage : BlockStorageToFile) (n : Nat) : Prop where
  latest : storage.getLatestSavedEpoch = n
  accepted : ∀ k, 1 ≤ k → k ≤ n → ∃ block, storage.files k = some block ∧ block.header.number = k ∧
    storage.deserializeBlock crypto k false = some block
  linked : ∀ k, 2 ≤ k → k ≤ n → ∀ block previous, storage.files k = some block →
    storage.files (k - 1) = some previous → block.header.previousHash = previous.header.dataHash

/-- The same without the function that reads a block back. -/
structure SavedChain (storage : BlockStorageToFile) (n : Nat) : Prop where
  latest : storage.blockNum = n
  saved : ∀ k, 1 ≤ k → k ≤ n → ∃ block, storage.files k = some block ∧ block.header.number = k ∧
    PassesDataHash crypto block
  linked : ∀ k, 2 ≤ k → k ≤ n → ∀ block previous, storage.files k = some block →
    storage.files (k - 1) = some previous → block.header.previousHash = previous.header.dataHash

variable {crypto proto}

theorem deserializeBlock_eq_some (storage : BlockStorageToFile) (epoch : Nat) (block : Block) :
    storage.deserializeBlock crypto epoch false = some block ↔
      storage.files (epoch % 2 ^ 32) = some block ∧ PassesDataHash crypto block := by
  unfold deserializeBlock loadBlock
  dsimp only
  cases storage.files (epoch % 2 ^ 32) with
  | none => simp
  | some found =>
    simp only [PassesDataHash, dataHash_eq, Prod.mk.injEq, Option.some.injEq]
    constructor
    · intro accepted
      split at accepted
      · next failed => cases failed
      · split at accepted
        · cases accepted
        · next same =>
          cases accepted
          exact ⟨rfl, not_not.mp same, trivial⟩
    · rintro ⟨rfl, same, -⟩
      simp [same]

theorem addPending_eq (storage : BlockStorageToFile) (pending : PendingBlock) :
    storage.addPending pending =
      { storage with transactionQueue := storage.transactionQueue ++ (pending.first :: pending.others) } :=
  foldl_addPendingTransaction storage (pending.first :: pending.others)

theorem generateBlockHeader_eq (storage : BlockStorageToFile) (block : Block) :
    storage.generateBlockHeader crypto block =
      let header := { block.header with
        dataHash := (dataHash crypto ⟨[], false, false⟩ block).1
        number := storage.blockNum + 1 }
      if 0 < storage.blockNum then
        (storage.deserializeBlock crypto storage.blockNum false).map fun previous =>
          { block with header := { header with previousHash := previous.header.dataHash } }
      else some { block with header } := by
  simp [generateBlockHeader, getLatestSavedEpoch]

theorem SavedChain.append {storage : BlockStorageToFile} {n : Nat} (chain : SavedChain crypto storage n)
    {block : Block} (passes : PassesDataHash crypto block) (number : block.header.number = n + 1)
    (link : ∀ previous, 0 < n → storage.files n = some previous →
      block.header.previousHash = previous.header.dataHash) (transactionQueue : List Ref) :
    SavedChain crypto ({ storage with transactionQueue }.appendBlock block) (n + 1) := by
  have last : ({ storage with transactionQueue }.appendBlock block).files (n + 1) = some block := by
    simp [appendBlock, insertBlock, updateLatestSavedEpoch, number]
  have others (k : Nat) (older : k ≠ n + 1) :
      ({ storage with transactionQueue }.appendBlock block).files k = storage.files k := by
    simp [appendBlock, insertBlock, updateLatestSavedEpoch, number, older]
  refine { latest := number, saved := ?_, linked := ?_ }
  · intro k low high
    by_cases new : k = n + 1
    · subst new
      exact ⟨block, last, number, passes⟩
    · rw [others k new]
      exact chain.saved k low (by omega)
  · intro k low high this previous there before
    rw [others (k - 1) (by omega)] at before
    by_cases new : k = n + 1
    · subst new
      cases last.symm.trans there
      exact link previous (by omega) before
    · rw [others k new] at there
      exact chain.linked k low (by omega) this previous there before

/-- `generateBlock` finds the last block as long as its number is a `uint32_t`. -/
theorem SavedChain.step (proto : TransactionProto) {storage : BlockStorageToFile} {n : Nat}
    (chain : SavedChain crypto storage n) (small : n < 2 ^ 32) (heap : Heap) :
    ∃ next block, storage.generateBlock crypto proto heap = some (next, block) ∧
      SavedChain crypto next (n + 1) ∧ next.files 0 = storage.files 0 := by
  obtain rfl : storage.blockNum = n := chain.latest
  have made : ∃ block, { storage with transactionQueue := [] }.generateBlockHeader crypto
        (newBody crypto proto heap storage.transactionQueue) = some block ∧
      PassesDataHash crypto block ∧ block.header.number = storage.blockNum + 1 ∧
      ∀ previous, 0 < storage.blockNum → storage.files storage.blockNum = some previous →
        block.header.previousHash = previous.header.dataHash := by
    rw [generateBlockHeader_eq]
    dsimp only
    by_cases first : 0 < storage.blockNum
    · obtain ⟨previous, there, -, passes⟩ := chain.saved storage.blockNum first (Nat.le_refl _)
      have found : { storage with transactionQueue := [] }.deserializeBlock crypto storage.blockNum false =
          some previous := by
        rw [deserializeBlock_eq_some, Nat.mod_eq_of_lt small]
        exact ⟨there, passes⟩
      rw [if_pos first, found]
      refine ⟨_, rfl, by simp [PassesDataHash], rfl, fun previous' _ there' => ?_⟩
      cases there.symm.trans there'
      rfl
    · rw [if_neg first]
      exact ⟨_, rfl, by simp [PassesDataHash], rfl, fun _ positive => absurd positive first⟩
  obtain ⟨block, header, passes, number, link⟩ := made
  refine ⟨{ storage with transactionQueue := [] }.appendBlock block, block, ?_, chain.append passes number link [], ?_⟩
  · rw [generateBlock, generateBlockBody_new]
    simp only [header, Option.map_some]
  · simp [appendBlock, insertBlock, updateLatestSavedEpoch, number]

theorem SavedChain.addPending {storage : BlockStorageToFile} {n : Nat} (chain : SavedChain crypto storage n)
    (pending : PendingBlock) : SavedChain crypto (storage.addPending pending) n := by
  rw [addPending_eq]
  exact ⟨chain.latest, chain.saved, chain.linked⟩

theorem SavedChain.run (proto : TransactionProto) {storage : BlockStorageToFile} {n : Nat}
    (chain : SavedChain crypto storage n)
    (requests : List PendingBlock) (small : n + requests.length ≤ 2 ^ 32) :
    ∃ final, generateBlocks crypto proto storage requests = some final ∧
      SavedChain crypto final (n + requests.length) ∧ final.files 0 = storage.files 0 := by
  induction requests generalizing storage n with
  | nil => exact ⟨storage, rfl, chain, rfl⟩
  | cons pending rest ih =>
    rw [List.length_cons] at small
    obtain ⟨next, block, made, onward, zero⟩ := (chain.addPending pending).step proto (by omega) pending.heap
    obtain ⟨final, completed, saved, zero'⟩ := ih onward (by omega)
    refine ⟨final, ?_, ?_, ?_⟩
    · rw [generateBlocks, made]
      exact completed
    · rwa [List.length_cons, Nat.add_comm rest.length, ← Nat.add_assoc]
    · rw [zero', zero, addPending_eq]

theorem SavedChain.stored {storage : BlockStorageToFile} {n : Nat} (chain : SavedChain crypto storage n)
    (small : n < 2 ^ 32) : StoredChain crypto storage n where
  latest := chain.latest
  accepted k low high := by
    obtain ⟨block, there, number, passes⟩ := chain.saved k low high
    refine ⟨block, there, number, ?_⟩
    rw [deserializeBlock_eq_some, Nat.mod_eq_of_lt (Nat.lt_of_le_of_lt high small)]
    exact ⟨there, passes⟩
  linked := chain.linked

theorem initFunc_saved (crypto : BlockCrypto) (storage : BlockStorageToFile) :
    SavedChain crypto storage.initFunc 0 where
  latest := rfl
  saved k low high := by omega
  linked k low high := by omega

theorem generateBlocks_append (storage : BlockStorageToFile) (first second : List PendingBlock) :
    generateBlocks crypto proto storage (first ++ second) =
      (generateBlocks crypto proto storage first).bind fun middle => generateBlocks crypto proto middle second := by
  induction first generalizing storage with
  | nil => rfl
  | cons pending rest ih =>
    simp only [List.cons_append, generateBlocks]
    split
    · rfl
    · exact ih _

/-- No block is written to file 0, where block 2^32 is looked for. -/
theorem generateBlock_zero {storage next : BlockStorageToFile} {block : Block} {heap : Heap}
    (made : storage.generateBlock crypto proto heap = some (next, block)) : next.files 0 = storage.files 0 := by
  obtain ⟨-, -, rfl⟩ := generateBlock_spec made
  show Function.update storage.files (storage.blockNum + 1) (some block) 0 = storage.files 0
  exact Function.update_of_ne (by omega) _ _

theorem generateBlocks_zero {storage final : BlockStorageToFile} {requests : List PendingBlock}
    (completed : generateBlocks crypto proto storage requests = some final) : final.files 0 = storage.files 0 := by
  induction requests generalizing storage with
  | nil =>
    cases completed
    rfl
  | cons pending rest ih =>
    unfold generateBlocks at completed
    split at completed
    · cases completed
    · next made =>
      rw [ih completed, generateBlock_zero made, addPending_eq]

theorem StoredChain.short {storage final : BlockStorageToFile} {requests : List PendingBlock}
    (unused : storage.files 0 = none) (completed : generateBlocks crypto proto storage.initFunc requests = some final)
    (chain : StoredChain crypto final requests.length) : requests.length < 2 ^ 32 := by
  by_contra many
  obtain ⟨block, -, -, accepted⟩ := chain.accepted (2 ^ 32) (by omega) (by omega)
  rw [deserializeBlock_eq_some, Nat.mod_self, generateBlocks_zero completed] at accepted
  cases unused.symm.trans accepted.1

theorem SavedChain.full {storage : BlockStorageToFile} (chain : SavedChain crypto storage (2 ^ 32))
    (unused : storage.files 0 = none) (heap : Heap) : storage.generateBlock crypto proto heap = none := by
  have missing : { storage with transactionQueue := [] }.deserializeBlock crypto (2 ^ 32) false = none := by
    cases found : { storage with transactionQueue := [] }.deserializeBlock crypto (2 ^ 32) false with
    | none => rfl
    | some block =>
      rw [deserializeBlock_eq_some, Nat.mod_self] at found
      cases unused.symm.trans found.1
  rw [generateBlock, generateBlockBody_new]
  simp only [generateBlockHeader_eq, chain.latest, Nat.two_pow_pos, if_true, Option.map_eq_none_iff]
  exact missing

end BlockStorageToFile

open BlockStorageToFile in
/-- Every call of a run succeeds and leaves the chain as long as there are fewer than 2^32 blocks, and no longer. -/
theorem stored_chain_iff (crypto : BlockCrypto) (proto : TransactionProto) (storage : BlockStorageToFile)
    (requests : List PendingBlock) :
    (requests.length < 2 ^ 32 → ∃ final, generateBlocks crypto proto storage.initFunc requests = some final ∧
      StoredChain crypto final requests.length) ∧
    (storage.files 0 = none → (∃ final, generateBlocks crypto proto storage.initFunc requests = some final ∧
      StoredChain crypto final requests.length) → requests.length < 2 ^ 32) := by
  constructor
  · intro small
    obtain ⟨final, completed, chain, -⟩ :=
      (initFunc_saved crypto storage).run proto requests (by omega)
    rw [Nat.zero_add] at chain
    exact ⟨final, completed, chain.stored small⟩
  · rintro unused ⟨final, completed, chain⟩
    exact chain.short unused completed

def newPending : PendingBlock := { heap := fun _ => MockTransaction.new, first := 0, others := [] }

def emptyStorage : BlockStorageToFile := { transactionQueue := [], blockNum := 0, files := fun _ => none }

open BlockStorageToFile in
/-- After 2^32 blocks the last one is not read back, and the next one is not generated. -/
theorem last_block_not_found :
    (¬ ∃ final, generateBlocks counterCrypto counterProto emptyStorage.initFunc (List.replicate (2 ^ 32) newPending) =
        some final ∧ StoredChain counterCrypto final (2 ^ 32)) ∧
      generateBlocks counterCrypto counterProto emptyStorage.initFunc
        (List.replicate (2 ^ 32) newPending ++ [newPending]) = none := by
  have size : (List.replicate (2 ^ 32) newPending).length = 2 ^ 32 := List.length_replicate
  generalize List.replicate (2 ^ 32) newPending = requests at size
  constructor
  · rintro ⟨final, completed, chain⟩
    rw [← size] at chain
    exact absurd (chain.short rfl completed) (by omega)
  · obtain ⟨final, completed, chain, zero⟩ :=
      (initFunc_saved counterCrypto emptyStorage).run counterProto requests (by omega)
    rw [size, Nat.zero_add] at chain
    rw [generateBlocks_append, completed, Option.bind_some, generateBlocks,
      (chain.addPending newPending).full (by rw [addPending_eq]; exact zero)]

end Blockchain
