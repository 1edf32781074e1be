import MyBlockchain.Block.DataHash

namespace Blockchain

namespace BlockStorageToFile

variable (crypto : BlockCrypto)

def PassesDataHash (block : Block) : Prop :=
  dataHash crypto ⟨[], false, false⟩ block = (block.header.dataHash, true)

/-- Blocks `number`, `number + 1` and so on, each with the `previous_hash` that `generateBlockHeader` takes
from the one before. -/
def ChainFrom : Nat → Option Block → List Block → Prop
  | _, _, [] => True
  | number, previous, block :: rest =>
    block.header.number = number ∧ PassesDataHash crypto block ∧
      (∀ before ∈ previous, block.header.previousHash = before.header.dataHash) ∧
      ChainFrom (number + 1) (some block) rest

def ValidChain (blocks : List Block) : Prop := ChainFrom crypto 1 none blocks

def blockAfter (number : Nat) (previousHash : Bytes) (data : List Bytes) : Block :=
  { header := { number, previousHash, dataHash := dataHashOf crypto data [] }, data, metadata := [] }

def emptyBlocks : Nat → Nat → Bytes → List Block
  | 0, _, _ => []
  | count + 1, number, previousHash =>
    blockAfter crypto number previousHash [] :: emptyBlocks count (number + 1) (dataHashOf crypto [] [])

def chainWith (data : List Bytes) (more : Nat) : List Block :=
  blockAfter crypto 1 [] data :: emptyBlocks crypto more 2 (dataHashOf crypto data [])

variable {crypto}

theorem blockAfter_passes (number : Nat) (previousHash : Bytes) (data : List Bytes) :
    PassesDataHash crypto (blockAfter crypto number previousHash data) := by
  simp [PassesDataHash, blockAfter, dataHashOf]

theorem emptyBlocks_chain (count number : Nat) (previous : Block) :
    ChainFrom crypto number (some previous) (emptyBlocks crypto count number previous.header.dataHash) := by
  induction count generalizing number previous with
  | zero => trivial
  | succ count ih =>
    refine ⟨rfl, blockAfter_passes _ _ _, fun before member => ?_, ih _ _⟩
    cases member
    rfl

theorem chainWith_valid (data : List Bytes) (more : Nat) : ValidChain crypto (chainWith crypto data more) :=
  ⟨rfl, blockAfter_passes _ _ _, fun _ member => (by cases member),
    emptyBlocks_chain more 2 (blockAfter crypto 1 [] data)⟩

theorem emptyBlocks_length (count number : Nat) (previousHash : Bytes) :
    (emptyBlocks crypto count number previousHash).length = count := by
  induction count generalizing number previousHash with
  | zero => rfl
  | succ count ih => simp [emptyBlocks, ih]

theorem ChainFrom.two {number : Nat} {first second : Block}
    (chain : ChainFrom crypto number none [first, second]) : second.header.previousHash = first.header.dataHash := by
  obtain ⟨-, -, -, -, -, link, -⟩ := chain
  exact link first rfl

end BlockStorageToFile

def LastBlockBinds (crypto : BlockCrypto) (length : Nat) : Prop :=
  ∀ first second : List Block, first.length = length → second.length = length →
    BlockStorageToFile.ValidChain crypto first → BlockStorageToFile.ValidChain crypto second →
    first.getLast? = second.getLast? →
      first.map (fun block => block.header.dataHash) = second.map fun block => block.header.dataHash

theorem last_block_binds_iff {crypto : BlockCrypto} (injective : Function.Injective crypto.sha256) (length : Nat) :
    LastBlockBinds crypto length ↔ length ≤ 2 := by
  constructor
  · intro binds
    by_contra long
    obtain ⟨more, rfl⟩ : ∃ more, length = more + 2 + 1 := ⟨length - 3, by omega⟩
    have same := binds (BlockStorageToFile.chainWith crypto [[1]] (more + 2))
      (BlockStorageToFile.chainWith crypto [[2]] (more + 2))
      (by simp [BlockStorageToFile.chainWith, BlockStorageToFile.emptyBlocks_length])
      (by simp [BlockStorageToFile.chainWith, BlockStorageToFile.emptyBlocks_length])
      (BlockStorageToFile.chainWith_valid _ _) (BlockStorageToFile.chainWith_valid _ _)
      -- from the second empty block on nothing is left of the first hash
      (by simp only [BlockStorageToFile.chainWith, BlockStorageToFile.emptyBlocks, List.getLast?_cons_cons])
    have heads : BlockStorageToFile.dataHashOf crypto [[1]] [] = BlockStorageToFile.dataHashOf crypto [[2]] [] :=
      (List.cons.inj same).1
    rw [BlockStorageToFile.dataHashOf_inj injective] at heads
    exact absurd heads (by decide)
  · intro short first second size other valid otherValid last
    match first, second, size, other with
    | [], [], _, _ => rfl
    | [block], [block'], _, _ =>
      obtain rfl : block = block' := by simpa using last
      rfl
    | [block, last₁], [block', last₂], _, _ =>
      obtain rfl : last₁ = last₂ := by simpa using last
      have link : block.header.dataHash = block'.header.dataHash :=
        (BlockStorageToFile.ChainFrom.two valid).symm.trans (BlockStorageToFile.ChainFrom.two otherValid)
      simp [link]
    | _ :: _ :: _ :: _, _, size, _ =>
      simp only [List.length_cons] at size
      omega

theorem last_block_binds_iff_two : LastBlockBinds counterCrypto 2 :=
  (last_block_binds_iff (fun _ _ same => same) 2).mpr (Nat.le_refl 2)

theorem changed_first_block :
    Function.Injective counterCrypto.sha256 ∧
    ∃ first second : List Block, first.length = 3 ∧ second.length = 3 ∧
      BlockStorageToFile.ValidChain counterCrypto first ∧ BlockStorageToFile.ValidChain counterCrypto second ∧
      first.getLast? = second.getLast? ∧
      first.map (fun block => block.header.dataHash) ≠ second.map fun block => block.header.dataHash :=
  ⟨fun _ _ same => same, BlockStorageToFile.chainWith counterCrypto [[1]] 2,
    BlockStorageToFile.chainWith counterCrypto [[2]] 2, rfl, rfl, BlockStorageToFile.chainWith_valid _ _,
    BlockStorageToFile.chainWith_valid _ _, rfl, by decide⟩

end Blockchain
