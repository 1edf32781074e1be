import MyBlockchain.Block.StoredChain

namespace Blockchain

namespace BlockStorageToFile

variable {crypto : BlockCrypto} {proto : TransactionProto}

theorem deserializeBlock_checksum {storage : BlockStorageToFile} {epoch : Nat} {block : Block}
    {first second : Bytes} {rest : List Bytes} (there : storage.files (epoch % 2 ^ 32) = some block)
    (passes : PassesDataHash crypto block) (metadata : block.metadata = first :: second :: rest) :
    storage.deserializeBlock crypto epoch true =
      if crypto.rsaDecrypt (crypto.merkleRoot (leafDigests crypto block.data)) first then some block else none := by
  have hashed : dataHash crypto ⟨[], false, false⟩ block = (block.header.dataHash, true) := passes
  unfold deserializeBlock loadBlock
  simp only [there, hashed, metadata]
  simp

theorem generateBlock_block {storage next : BlockStorageToFile} {heap : Heap} {block : Block}
    (generated : storage.generateBlock crypto proto heap = some (next, block)) :
    block.data = pendingData crypto proto heap storage.transactionQueue ∧
    block.metadata = [pendingResults crypto heap storage.transactionQueue, [],
      crypto.rsaEncrypt (crypto.merkleRoot (leafDigests crypto
        (pendingData crypto proto heap storage.transactionQueue)))] ∧
    PassesDataHash crypto block ∧ next.files (storage.blockNum + 1) = some block := by
  obtain ⟨number, -, disk⟩ := generateBlock_spec generated
  have stored : next.files (storage.blockNum + 1) = some block := by
    rw [disk]
    exact Function.update_self _ _ _
  rw [generateBlock, generateBlockBody_new] at generated
  obtain ⟨made, header, same⟩ := Option.map_eq_some_iff.mp generated
  cases same
  rw [generateBlockHeader_eq] at header
  dsimp only at header
  split at header
  · obtain ⟨previous, -, rfl⟩ := Option.map_eq_some_iff.mp header
    exact ⟨rfl, rfl, by simp [PassesDataHash], stored⟩
  · cases header
    exact ⟨rfl, rfl, by simp [PassesDataHash], stored⟩

end BlockStorageToFile

open BlockStorageToFile in
/-- A generated block is accepted with its checksum only when the string of its results is the user's signature of
its root: that is the entry of the metadata, and the key, that the verifier uses. -/
theorem checksum_accepts_iff {crypto : BlockCrypto} (userEncrypt : Bytes → Bytes)
    (verifies : ∀ message signature, crypto.rsaDecrypt message signature = true ↔ signature = userEncrypt message)
    (proto : TransactionProto) (storage : BlockStorageToFile) (pending : PendingBlock)
    {next : BlockStorageToFile} {block : Block}
    (generated : (storage.addPending pending).generateBlock crypto proto pending.heap = some (next, block))
    (number : block.header.number < 2 ^ 32) :
    next.deserializeBlock crypto block.header.number true = some block ↔
      pendingResults crypto pending.heap (storage.addPending pending).transactionQueue =
        userEncrypt (crypto.merkleRoot (leafDigests crypto
          (pendingData crypto proto pending.heap (storage.addPending pending).transactionQueue))) := by
  obtain ⟨data, metadata, passes, stored⟩ := generateBlock_block generated
  have header := (generateBlock_spec generated).1
  have there : next.files (block.header.number % 2 ^ 32) = some block := by
    rw [Nat.mod_eq_of_lt number, header]
    exact stored
  rw [deserializeBlock_checksum there passes metadata, data, ← verifies]
  constructor
  · intro accepted
    split at accepted
    · next signed => exact signed
    · cases accepted
  · intro signed
    rw [if_pos signed]

def twoKeyCrypto : BlockCrypto :=
  { counterCrypto with
    rsaEncrypt := fun message => 1 :: message
    rsaDecrypt := fun message signature => signature = 2 :: message }

theorem checksum_accepts_iff_new :
    ∃ next block, (emptyStorage.addPending newPending).generateBlock twoKeyCrypto counterProto newPending.heap =
        some (next, block) ∧
      (next.deserializeBlock twoKeyCrypto block.header.number true = some block ↔
        BlockStorageToFile.pendingResults twoKeyCrypto newPending.heap
            (emptyStorage.addPending newPending).transactionQueue =
          2 :: twoKeyCrypto.merkleRoot (BlockStorageToFile.leafDigests twoKeyCrypto
            (BlockStorageToFile.pendingData twoKeyCrypto counterProto newPending.heap
              (emptyStorage.addPending newPending).transactionQueue))) :=
  ⟨_, _, rfl, checksum_accepts_iff (fun message => 2 :: message) (by simp [twoKeyCrypto]) counterProto
    emptyStorage newPending rfl (by decide)⟩

theorem generated_block_rejected :
    (∀ message signature, twoKeyCrypto.rsaDecrypt message signature = true ↔ signature = 2 :: message) ∧
    (∀ message, twoKeyCrypto.rsaEncrypt message ≠ 2 :: message) ∧
    ∃ next block, (emptyStorage.addPending newPending).generateBlock twoKeyCrypto counterProto newPending.heap =
        some (next, block) ∧
      next.deserializeBlock twoKeyCrypto block.header.number true = none :=
  ⟨by simp [twoKeyCrypto], by simp [twoKeyCrypto], _, _, rfl, rfl⟩

end Blockchain
