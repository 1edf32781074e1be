import MyBlockchain.Block.BlockStorageToFile
import MyBlockchain.Library.HashTree
import MyBlockchain.Library.Pyramid

namespace Blockchain

/-- `mt_t`, each level a list of hashes; `hashed` is a ghost, the strings that `mt_hash` was called on. -/
structure MerkleTree where
  elems : Nat
  level : Nat → List Bytes
  hashed : List Bytes

namespace MerkleTree

def hashLength : Nat := 32
def treeLevels : Nat := 20
def alMaxElems : Nat := 524288

def isPowerOfTwo (v : Nat) : Bool := v ≠ 0 && v &&& (v - 1) = 0

-- In what follows `none` is an error code or a failed assert: the caller's CHECK or the assert ends the program.

def alAdd (list : List Bytes) (hash : Bytes) : Option (List Bytes) :=
  if alMaxElems ≤ list.length then none
  else if isPowerOfTwo list.length && alMaxElems < list.length * 2 then none
  else some (list ++ [hash])

def alUpdate (list : List Bytes) (hash : Bytes) (offset : Nat) : Option (List Bytes) :=
  if alMaxElems ≤ list.length then none
  else if offset < list.length then some (list.set offset hash)
  else none

def alAddOrUpdate (list : List Bytes) (hash : Bytes) (offset : Nat) : Option (List Bytes) :=
  if alMaxElems ≤ list.length then none
  else if list.length < offset then none
  else if offset = list.length then alAdd list hash
  else alUpdate list hash offset

def alGet (list : List Bytes) (offset : Nat) : Option Bytes :=
  if alMaxElems ≤ list.length then none else list[offset]?

def create : MerkleTree := { elems := 0, level := fun _ => [], hashed := [] }

def right (offset : Nat) : Bool := offset &&& 1 = 1

def initHash (tag : Bytes) : Bytes := tag ++ List.replicate (hashLength - tag.length) 0

variable (sha256 : Bytes → Bytes)

/-- The loop of `mt_add`, with the rounds that `l < TREE_LEVELS` leaves. -/
def climb : Nat → MerkleTree → Nat → Nat → Bytes → Option (MerkleTree × Nat × Nat × Bytes)
  | 0, mt, q, l, messageDigest => some (mt, q, l, messageDigest)
  | rounds + 1, mt, q, l, messageDigest =>
    if q = 0 then some (mt, q, l, messageDigest)
    else if right q then
      match alGet (mt.level l) (q - 1) with
      | none => none
      | some left =>
        let hashed := mt.hashed ++ [left ++ messageDigest]
        let messageDigest := sha256 (left ++ messageDigest)
        match alAddOrUpdate (mt.level (l + 1)) messageDigest (q >>> 1) with
        | none => none
        | some next =>
          climb rounds { mt with level := Function.update mt.level (l + 1) next, hashed } (q >>> 1) (l + 1)
            messageDigest
    else climb rounds mt (q >>> 1) (l + 1) messageDigest

def add (mt : MerkleTree) (tag : Bytes) : Option MerkleTree :=
  if hashLength < tag.length then none
  else
    let messageDigest := initHash tag
    match alAdd (mt.level 0) messageDigest with
    | none => none
    | some leaves =>
      let mt := { mt with level := Function.update mt.level 0 leaves, elems := mt.elems + 1 }
      if mt.elems = 1 then some mt
      else
        match climb sha256 treeLevels mt (mt.elems - 1) 0 messageDigest with
        | none => none
        | some (mt, q, l, messageDigest) => if alGet (mt.level l) q = some messageDigest then some mt else none

def hasNextLevelExceptRoot (mt : MerkleTree) (curLvl : Nat) : Bool :=
  curLvl + 1 < treeLevels - 1 && 0 < (mt.level (curLvl + 1)).length

def rootLevel (mt : MerkleTree) : Nat → Nat → Nat
  | 0, l => l
  | rounds + 1, l => if mt.hasNextLevelExceptRoot l then rootLevel mt rounds (l + 1) else l

def getRoot (mt : MerkleTree) : Option Bytes := alGet (mt.level (mt.rootLevel treeLevels 0)) 0

variable {sha256}

theorem climb_leaves {rounds q l : Nat} {mt : MerkleTree} {digest : Bytes}
    {result : MerkleTree × Nat × Nat × Bytes} (climbed : climb sha256 rounds mt q l digest = some result) :
    result.1.level 0 = mt.level 0 := by
  induction rounds generalizing mt q l digest with
  | zero =>
    cases climbed
    rfl
  | succ rounds ih =>
    unfold climb at climbed
    split at climbed
    · cases climbed
      rfl
    · split at climbed
      · split at climbed
        · cases climbed
        · dsimp only at climbed
          split at climbed
          · cases climbed
          · rw [ih climbed]
            dsimp only
            rw [Function.update_of_ne (Nat.succ_ne_zero l).symm]
      · exact ih climbed

theorem add_leaf {mt after : MerkleTree} {tag : Bytes} (added : add sha256 mt tag = some after) :
    after.level 0 ≠ [] := by
  unfold add at added
  split at added
  · cases added
  · dsimp only at added
    split at added
    · cases added
    · next leaves appended =>
      have leaf : leaves ≠ [] := by
        unfold alAdd at appended
        split at appended
        · cases appended
        · split at appended
          · cases appended
          · cases appended
            simp
      split at added
      · cases added
        dsimp only
        rwa [Function.update_self]
      · split at added
        · cases added
        · next climbed =>
          split at added
          · cases added
            have same := climb_leaves climbed
            dsimp only at same
            rw [same, Function.update_self]
            exact leaf
          · cases added

theorem foldlM_leaf {digests : List Bytes} {mt : MerkleTree} (nonempty : digests ≠ [])
    (added : digests.foldlM (add sha256) create = some mt) : mt.level 0 ≠ [] := by
  obtain ⟨before, last, rfl⟩ : ∃ before last, digests = before ++ [last] :=
    ⟨_, _, (List.dropLast_append_getLast nonempty).symm⟩
  rw [List.foldlM_append] at added
  obtain ⟨middle, -, added⟩ := Option.bind_eq_some_iff.mp added
  simp only [List.foldlM_cons, List.foldlM_nil] at added
  obtain ⟨after, added, same⟩ := Option.bind_eq_some_iff.mp added
  cases same
  exact add_leaf added

end MerkleTree

/-- What `generateBlockBody` and `deserializeBlock` do with the entries of a block: the root, and the strings that
`mt_hash` was called on. -/
def BlockStorageToFile.blockRoot (crypto : BlockCrypto) (data : List Bytes) : Option (Bytes × List Bytes) :=
  match (leafDigests crypto data).foldlM (MerkleTree.add crypto.sha256) MerkleTree.create with
  | none => none
  | some mt => mt.getRoot.map fun root => (root, mt.hashed)

end Blockchain
