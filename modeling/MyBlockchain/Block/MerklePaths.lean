import MyBlockchain.Block.MerkleRoot

namespace Blockchain

inductive MtError
  | success
  | outOfMemory
  | illegalParam
  | illegalState
  | rootMismatch
  | unspecified
  deriving DecidableEq, Repr

namespace MerkleTree

def alUpdateIfExists (list : List Bytes) (hash : Bytes) (offset : Nat) : Option (List Bytes) :=
  if alMaxElems ≤ list.length then none
  else if list.length ≤ offset then some list
  else some (list.set offset hash)

/-- The neighbor is on the level of the place or moved up from a lower one, and `some none` is a place without one. -/
def findRightNeighbor (mt : MerkleTree) : Nat → Nat → Option (Option Bytes)
  | 0, offset => if offset < (mt.level 0).length then (alGet (mt.level 0) offset).map some else some none
  | l + 1, offset =>
    if offset < (mt.level (l + 1)).length then (alGet (mt.level (l + 1)) offset).map some
    else findRightNeighbor mt l (offset <<< 1)

variable (sha256 : Bytes → Bytes)

/-- One round of the loops of `mt_verify` and `mt_update`: the digest of the place above, and what was hashed. -/
def pathStep (mt : MerkleTree) (q l : Nat) (messageDigest : Bytes) : Option (Bytes × List Bytes) :=
  if right q then
    match alGet (mt.level l) (q - 1) with
    | none => none
    | some left => some (sha256 (left ++ messageDigest), [left ++ messageDigest])
  else
    match mt.findRightNeighbor l (q + 1) with
    | none => none
    | some none => some (messageDigest, [])
    | some (some right) => some (sha256 (messageDigest ++ right), [messageDigest ++ right])

def verifyLoop (mt : MerkleTree) : Nat → Nat → Nat → Bytes → List Bytes → Option (Nat × Nat × Bytes × List Bytes)
  | 0, q, l, messageDigest, hashed => some (q, l, messageDigest, hashed)
  | rounds + 1, q, l, messageDigest, hashed =>
    if mt.hasNextLevelExceptRoot l then
      match pathStep sha256 mt q l messageDigest with
      | none => none
      | some (messageDigest, more) => verifyLoop mt rounds (q >>> 1) (l + 1) messageDigest (hashed ++ more)
    else some (q, l, messageDigest, hashed)

/-- `mt_verify`, with the strings that it hashed; the last comparison reads through a null pointer where the level
has no such place. -/
def verify (mt : MerkleTree) (tag : Bytes) (offset : Nat) : Option (MtError × List Bytes) :=
  if hashLength < tag.length ∨ mt.elems ≤ offset then some (.illegalParam, [])
  else
    match verifyLoop sha256 mt treeLevels offset 0 (initHash tag) [] with
    | none => none
    | some (q, l, messageDigest, hashed) =>
      match alGet (mt.level l) q with
      | none => none
      | some stored => some (if messageDigest = stored then .success else .rootMismatch, hashed)

def updateLoop : Nat → MerkleTree → Nat → Nat → Bytes → Option (MerkleTree × Nat × Nat × Bytes)
  | 0, mt, q, l, messageDigest => some (mt, q, l, messageDigest)
  | rounds + 1, mt, q, l, messageDigest =>
    if mt.hasNextLevelExceptRoot l then
      match pathStep sha256 mt q l messageDigest with
      | none => none
      | some (messageDigest, hashed) =>
        match alUpdateIfExists (mt.level (l + 1)) messageDigest (q >>> 1) with
        | none => none
        | some next =>
          updateLoop rounds { mt with level := Function.update mt.level (l + 1) next, hashed := mt.hashed ++ hashed }
            (q >>> 1) (l + 1) messageDigest
    else some (mt, q, l, messageDigest)

def update (mt : MerkleTree) (tag : Bytes) (offset : Nat) : Option (MerkleTree × MtError) :=
  if hashLength < tag.length ∨ mt.elems ≤ offset then some (mt, .illegalParam)
  else
    let messageDigest := initHash tag
    match alUpdate (mt.level 0) messageDigest offset with
    | none => none
    | some leaves =>
      match updateLoop sha256 treeLevels { mt with level := Function.update mt.level 0 leaves } offset 0 messageDigest with
      | none => none
      | some (mt, q, l, messageDigest) =>
        if alGet (mt.level l) q = some messageDigest then some (mt, .success) else none

variable {sha256} {leaves : List Bytes} {tag : Bytes} {mt : MerkleTree} {offset : Nat}

theorem leafOf_set (inside : offset < leaves.length) (tag : Bytes) :
    leafOf (leaves.set offset tag) = Function.update (leafOf leaves) offset (some tag) := by
  funext index
  unfold leafOf
  rw [List.getElem?_set]
  by_cases here : offset = index
  · rw [if_pos here, if_pos (here ▸ inside), ← here, Function.update_self]
  · rw [if_neg here, Function.update_of_ne (Ne.symm here)]

theorem node_set (inside : offset < leaves.length) {l i : Nat} (off : offset / 2 ^ l ≠ i) :
    Pyramid.node (pairHash sha256) (leafOf (leaves.set offset tag)) l i =
      Pyramid.node (pairHash sha256) (leafOf leaves) l i := by
  rw [leafOf_set inside, Pyramid.node_update _ off]

theorem joined_set (inside : offset < leaves.length) {l i : Nat} (off : offset / 2 ^ l ≠ i) :
    Pyramid.joined (pairHash sha256) (leafOf (leaves.set offset tag)) l i =
      Pyramid.joined (pairHash sha256) (leafOf leaves) l i := by
  rw [leafOf_set inside, Pyramid.joined_update _ off]

theorem joined_set_isSome (leaves : List Bytes) (offset : Nat) (tag : Bytes) (l i : Nat) :
    (Pyramid.joined (pairHash sha256) (leafOf (leaves.set offset tag)) l i).isSome =
      (Pyramid.joined (pairHash sha256) (leafOf leaves) l i).isSome := by
  apply Pyramid.joined_isSome_congr
  intro index
  rw [Bool.eq_iff_iff, leafOf_isSome, leafOf_isSome, List.length_set]

structure Holds (sha256 : Bytes → Bytes) (leaves : List Bytes) (l : Nat) (mt : MerkleTree) : Prop where
  level : ∀ l' ≤ l, ∀ i, (mt.level l')[i]? = Pyramid.joined (pairHash sha256) (leafOf leaves) l' i
  few : leaves.length < alMaxElems

theorem Holds.room {l l' : Nat} (holds : Holds sha256 leaves l mt) (lower : l' ≤ l) :
    (mt.level l').length < alMaxElems :=
  Nat.lt_of_le_of_lt (level_length (holds.level l' lower)) holds.few

theorem Holds.found {l i : Nat} (holds : Holds sha256 leaves l mt) (inside : i < (mt.level l).length) :
    alGet (mt.level l) i = Pyramid.node (pairHash sha256) (leafOf leaves) l i := by
  have there : (Pyramid.joined (pairHash sha256) (leafOf leaves) l i).isSome := by
    rw [← holds.level l (Nat.le_refl l)]
    simpa using inside
  rw [alGet_eq _ (holds.room (Nat.le_refl l)), holds.level l (Nat.le_refl l), Pyramid.joined_eq_node there]

theorem findRightNeighbor_eq {l : Nat} (holds : Holds sha256 leaves l mt) (i : Nat) :
    mt.findRightNeighbor l i = some (Pyramid.node (pairHash sha256) (leafOf leaves) l i) := by
  have found {l' j : Nat} (holds : Holds sha256 leaves l' mt) (inside : j < (mt.level l').length) :
      (alGet (mt.level l') j).map some = some (Pyramid.node (pairHash sha256) (leafOf leaves) l' j) := by
    have there : (alGet (mt.level l') j).isSome := by
      rw [alGet_eq _ (holds.room (Nat.le_refl l'))]
      simpa using inside
    obtain ⟨digest, same⟩ := Option.isSome_iff_exists.mp there
    rw [← holds.found inside, same]
    rfl
  induction l generalizing i with
  | zero =>
    unfold findRightNeighbor
    split
    · next inside => exact found holds inside
    · next outside =>
      have free := holds.level 0 (Nat.le_refl 0) i
      rw [List.getElem?_eq_none (Nat.le_of_not_lt outside)] at free
      rw [Pyramid.node]
      exact congrArg some free
  | succ l ih =>
    unfold findRightNeighbor
    split
    · next inside => exact found holds inside
    · next outside =>
      have free := holds.level (l + 1) (Nat.le_refl _) i
      rw [List.getElem?_eq_none (Nat.le_of_not_lt outside)] at free
      have below : Holds sha256 leaves l mt := ⟨fun l' lower => holds.level l' (by omega), holds.few⟩
      rw [ih below, Nat.shiftLeft_eq, Nat.pow_one, Nat.mul_comm, Pyramid.node_of_not_joined free.symm]

/-- One round goes one level up the pyramid of the leaf that is set, and hashes the pair there is to hash. `others` are
the leaves that the levels of the tree still stand for: they differ at most on the path. -/
theorem pathStep_eq {others : List Bytes} {l q : Nat} {digest : Bytes} (holds : Holds sha256 others l mt)
    (same : ∀ i, i ≠ q → Pyramid.node (pairHash sha256) (leafOf others) l i =
      Pyramid.node (pairHash sha256) (leafOf leaves) l i)
    (size : others.length = leaves.length)
    (node : Pyramid.node (pairHash sha256) (leafOf leaves) l q = some digest) :
    ∃ above hashed, pathStep sha256 mt q l digest = some (above, hashed) ∧
      Pyramid.node (pairHash sha256) (leafOf leaves) (l + 1) (q / 2) = some above ∧
      ∀ left right, Pyramid.node (pairHash sha256) (leafOf leaves) l (2 * (q / 2)) = some left →
        Pyramid.node (pairHash sha256) (leafOf leaves) l (2 * (q / 2) + 1) = some right → left ++ right ∈ hashed := by
  unfold pathStep
  by_cases odd : q % 2 = 1
  · rw [if_pos (by simpa [right, Nat.and_one_is_mod] using odd)]
    have place : q = 2 * (q / 2) + 1 := by omega
    have there : (Pyramid.node (pairHash sha256) (leafOf others) l (q - 1 + 1)).isSome := by
      rw [Nat.sub_add_cancel (by omega), node_there, size, ← node_there, node]
      rfl
    have stored : (Pyramid.joined (pairHash sha256) (leafOf others) l (q - 1)).isSome :=
      Pyramid.joined_isSome (leafOf_dense others) there
    have inside : q - 1 < (mt.level l).length := by
      rw [← holds.level l (Nat.le_refl l)] at stored
      simpa using stored
    obtain ⟨left, found⟩ := Option.isSome_iff_exists.mp stored
    rw [Pyramid.joined_eq_node stored] at found
    rw [holds.found inside, found]
    rw [same (q - 1) (by omega), show q - 1 = 2 * (q / 2) by omega] at found
    rw [place] at node
    refine ⟨_, _, rfl, Pyramid.node_pair found node, fun first second one two => ?_⟩
    rw [found] at one
    rw [node] at two
    rw [← Option.some.inj one, ← Option.some.inj two]
    exact List.mem_singleton_self _
  · rw [if_neg (by simpa [right, Nat.and_one_is_mod] using odd), findRightNeighbor_eq holds]
    have place : q = 2 * (q / 2) := by omega
    have neighbor := same (q + 1) (Nat.succ_ne_self q)
    rw [neighbor]
    rw [show q + 1 = 2 * (q / 2) + 1 by omega]
    rw [place] at node
    cases second : Pyramid.node (pairHash sha256) (leafOf leaves) l (2 * (q / 2) + 1) with
    | none =>
      refine ⟨_, _, rfl, ?_, fun _ _ _ two => by cases two⟩
      rw [Pyramid.node_single second, node]
    | some right =>
      refine ⟨_, _, rfl, Pyramid.node_pair node second, fun first last one two => ?_⟩
      rw [node] at one
      rw [← Option.some.inj one, ← Option.some.inj two]
      exact List.mem_singleton_self _

end MerkleTree

end Blockchain
