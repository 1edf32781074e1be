import MyBlockchain.Block.MerkleRoot

namespace Blockchain

namespace MerkleTree

variable {sha256 : Bytes → Bytes} {data : List Bytes}

def treeOf (data : List Bytes) : Nat → Nat → Option (HashTree UInt8) :=
  Pyramid.node HashTree.node fun index => (data[index]?).map HashTree.leaf

theorem treeOf_digest (data : List Bytes) (l i : Nat) :
    (treeOf data l i).map (HashTree.digest sha256) =
      Pyramid.node (pairHash sha256) (leafOf (data.map sha256)) l i := by
  have respects (a b : HashTree UInt8) :
      (HashTree.node a b).digest sha256 = pairHash sha256 (a.digest sha256) (b.digest sha256) := rfl
  unfold treeOf
  rw [Pyramid.node_map (HashTree.digest sha256) respects]
  congr 1
  funext index
  rw [leafOf, List.getElem?_map, Option.map_map]
  rfl

theorem treeOf_entries (few : data.length ≤ 2 ^ rootHeight) {tree : HashTree UInt8}
    (root : treeOf data rootHeight 0 = some tree) : tree.entries = data := by
  have whole := Pyramid.node_append data rootHeight 0
  have mapped : (treeOf data rootHeight 0).map HashTree.entries =
      Pyramid.node (· ++ ·) (fun i => (data[i]?).map ([·])) rootHeight 0 := by
    have respects (a b : HashTree UInt8) : (HashTree.node a b).entries = a.entries ++ b.entries := rfl
    unfold treeOf
    rw [Pyramid.node_map HashTree.entries respects]
    congr 1
    funext index
    rw [Option.map_map]
    rfl
  rw [← mapped, root, Nat.mul_zero, List.drop_zero, List.take_of_length_le few] at whole
  split at whole
  · exact Option.some.inj whole
  · cases whole

theorem treeOf_pairs {mt : MerkleTree} (represents : Represents sha256 (data.map sha256) mt) {l i : Nat}
    {tree : HashTree UInt8} (place : treeOf data l i = some tree) : tree.pairs sha256 ⊆ mt.hashed := by
  induction l generalizing i tree with
  | zero =>
    obtain ⟨entry, -, rfl⟩ := Option.map_eq_some_iff.mp place
    exact List.nil_subset _
  | succ l ih =>
    have digests (j : Nat) : (treeOf data l j).map (HashTree.digest sha256) =
        Pyramid.node (pairHash sha256) (leafOf (data.map sha256)) l j :=
      treeOf_digest data l j
    cases first : treeOf data l (2 * i) with
    | none =>
      unfold treeOf at place first
      simp only [Pyramid.node, first] at place
      cases place
    | some left =>
      cases second : treeOf data l (2 * i + 1) with
      | none =>
        unfold treeOf at place second
        rw [Pyramid.node_single second] at place
        exact ih place
      | some right =>
        have joined : treeOf data (l + 1) i = some (HashTree.node left right) := by
          unfold treeOf at first second ⊢
          exact Pyramid.node_pair first second
        obtain rfl : HashTree.node left right = tree := Option.some.inj (joined.symm.trans place)
        have one := digests (2 * i)
        have two := digests (2 * i + 1)
        rw [first] at one
        rw [second] at two
        intro pair member
        rcases List.mem_cons.mp member with rfl | member
        · exact represents.pairs l i _ _ one.symm two.symm
        · rcases List.mem_append.mp member with member | member
          · exact ih first member
          · exact ih second member

end MerkleTree

namespace BlockStorageToFile

open MerkleTree

variable {crypto : BlockCrypto} {data : List Bytes}

theorem leafDigests_eq (crypto : BlockCrypto) (data : List Bytes) :
    leafDigests crypto data = data.map crypto.sha256 := by
  simp [leafDigests]

theorem blockRoot_spec (length : ∀ bytes, (crypto.sha256 bytes).length = hashLength)
    (few : data.length ≤ 2 ^ rootHeight) (entry : data ≠ []) :
    ∃ root pairs, blockRoot crypto data = some (root, pairs) ∧ ∃ tree : HashTree UInt8, tree.entries = data ∧
      tree.digest crypto.sha256 = root ∧ tree.pairs crypto.sha256 ⊆ pairs := by
  have room : (data.map crypto.sha256).length < alMaxElems := by
    rw [List.length_map]
    exact Nat.lt_of_le_of_lt few (by decide)
  have lengths : ∀ digest ∈ data.map crypto.sha256, digest.length = hashLength := by
    intro digest member
    obtain ⟨bytes, -, rfl⟩ := List.mem_map.mp member
    exact length bytes
  obtain ⟨mt, added, represents⟩ := foldlM_eq (data.map crypto.sha256) lengths room
  have root := getRoot_eq represents (by simpa using entry) room
  rw [← treeOf_digest] at root
  have there : (treeOf data rootHeight 0).isSome := by
    have node : (Pyramid.node (pairHash crypto.sha256) (leafOf (data.map crypto.sha256)) rootHeight 0).isSome := by
      rw [node_there, Nat.mul_zero, List.length_map]
      exact List.length_pos_iff.mpr entry
    rw [← treeOf_digest, Option.isSome_map] at node
    exact node
  obtain ⟨tree, found⟩ := Option.isSome_iff_exists.mp there
  refine ⟨tree.digest crypto.sha256, mt.hashed, ?_, tree, treeOf_entries few found, rfl, treeOf_pairs represents found⟩
  unfold blockRoot
  rw [leafDigests_eq, added]
  simp [root, found]

/-- `mt_get_root` does not see the entries after the first 2^18, though `mt_add` takes almost twice as many. -/
theorem blockRoot_take (length : ∀ bytes, (crypto.sha256 bytes).length = hashLength)
    (many : 2 ^ rootHeight < data.length) (room : data.length < alMaxElems) :
    (blockRoot crypto data).map Prod.fst = (blockRoot crypto (data.take (2 ^ rootHeight))).map Prod.fst := by
  have root (entries : List Bytes) (entry : entries ≠ []) (few : entries.length < alMaxElems) :
      (blockRoot crypto entries).map Prod.fst =
        Pyramid.node (pairHash crypto.sha256) (leafOf (entries.map crypto.sha256)) rootHeight 0 := by
    have lengths : ∀ digest ∈ entries.map crypto.sha256, digest.length = hashLength := by
      intro digest member
      obtain ⟨bytes, -, rfl⟩ := List.mem_map.mp member
      exact length bytes
    obtain ⟨mt, added, represents⟩ := foldlM_eq (entries.map crypto.sha256) lengths (by simpa using few)
    unfold blockRoot
    rw [leafDigests_eq, added, ← getRoot_eq represents (by simpa using entry) (by simpa using few)]
    simp [Function.comp_def]
  have size : (data.take (2 ^ rootHeight)).length = 2 ^ rootHeight := List.length_take_of_le (Nat.le_of_lt many)
  rw [root data (List.ne_nil_of_length_pos (by omega)) room,
    root _ (List.ne_nil_of_length_pos (by rw [size]; exact Nat.two_pow_pos _)) (by omega)]
  apply Pyramid.node_congr
  intro i inside
  rw [Nat.mul_one] at inside
  rw [leafOf, leafOf, List.getElem?_map, List.getElem?_map, List.getElem?_take_of_lt inside]

theorem blockRoot_nil (crypto : BlockCrypto) : blockRoot crypto [] = none := rfl

/-- The cryptographic code with the tree of this repository. -/
def withMerkleTree (crypto : BlockCrypto) : BlockCrypto :=
  { crypto with
    merkleRoot := fun digests =>
      ((digests.foldlM (add crypto.sha256) create).bind getRoot).getD [] }

theorem merkleRoot_eq {root : Bytes} {pairs : List Bytes} (computed : blockRoot crypto data = some (root, pairs)) :
    (withMerkleTree crypto).merkleRoot (leafDigests crypto data) = root := by
  unfold blockRoot at computed
  unfold withMerkleTree
  cases added : (leafDigests crypto data).foldlM (add crypto.sha256) create with
  | none =>
    rw [added] at computed
    cases computed
  | some mt =>
    rw [added] at computed
    obtain ⟨digest, got, same⟩ := Option.map_eq_some_iff.mp computed
    cases same
    simp [added, got]

theorem pendingData_root (length : ∀ bytes, (crypto.sha256 bytes).length = hashLength) (proto : TransactionProto)
    (heap : Heap) {transactionQueue : List Ref} (pending : transactionQueue ≠ [])
    (few : transactionQueue.length ≤ 2 ^ rootHeight) :
    ∃ root pairs, blockRoot crypto (pendingData crypto proto heap transactionQueue) = some (root, pairs) := by
  have size := pendingData_length crypto proto heap transactionQueue
  have entry : pendingData crypto proto heap transactionQueue ≠ [] := by
    apply List.ne_nil_of_length_pos
    rw [size]
    exact List.length_pos_iff.mpr pending
  obtain ⟨root, pairs, computed, -⟩ := blockRoot_spec length (by rw [size]; exact few) entry
  exact ⟨root, pairs, computed⟩

theorem newBody_signs (length : ∀ bytes, (crypto.sha256 bytes).length = hashLength) (proto : TransactionProto)
    (heap : Heap) {transactionQueue : List Ref} (pending : transactionQueue ≠ [])
    (few : transactionQueue.length ≤ 2 ^ rootHeight) :
    ∃ root pairs, blockRoot crypto (newBody (withMerkleTree crypto) proto heap transactionQueue).data =
        some (root, pairs) ∧
      (newBody (withMerkleTree crypto) proto heap transactionQueue).metadata =
        [pendingResults crypto heap transactionQueue, [], crypto.rsaEncrypt root] := by
  obtain ⟨root, pairs, computed⟩ := pendingData_root length proto heap pending few
  refine ⟨root, pairs, computed, ?_⟩
  rw [← merkleRoot_eq computed]
  rfl

end BlockStorageToFile

def lengthHash (bytes : Bytes) : Bytes :=
  (UInt8.ofNat bytes.length :: bytes ++ List.replicate MerkleTree.hashLength 0).take MerkleTree.hashLength

theorem lengthHash_length (bytes : Bytes) : (lengthHash bytes).length = MerkleTree.hashLength := by
  rw [lengthHash, List.length_take, List.length_append, List.length_replicate]
  omega

def lengthCrypto : BlockCrypto := { counterCrypto with sha256 := lengthHash }

open BlockStorageToFile in
/-- One root for two blocks: the same entries, two strings with one hash, or an entry that is itself a pair of
digests of the other block's tree. -/
theorem block_root_binds {crypto : BlockCrypto}
    (length : ∀ bytes, (crypto.sha256 bytes).length = MerkleTree.hashLength) {data other : List Bytes}
    (few : data.length ≤ 2 ^ 18) (fewOther : other.length ≤ 2 ^ 18) {root : Bytes} {pairs pairs' : List Bytes}
    (computed : blockRoot crypto data = some (root, pairs))
    (computedOther : blockRoot crypto other = some (root, pairs')) :
    data = other ∨
    (∃ first ∈ data ++ pairs, ∃ second ∈ other ++ pairs', first ≠ second ∧ crypto.sha256 first = crypto.sha256 second) ∨
    (∃ entry ∈ data, entry ∈ pairs') ∨ (∃ entry ∈ other, entry ∈ pairs) := by
  have entry : data ≠ [] := by
    rintro rfl
    rw [blockRoot_nil] at computed
    cases computed
  have entryOther : other ≠ [] := by
    rintro rfl
    rw [blockRoot_nil] at computedOther
    cases computedOther
  obtain ⟨digest, hashed, is, tree, rfl, rfl, inside⟩ := blockRoot_spec length few entry
  obtain ⟨digest', hashed', is', tree', rfl, rfl, inside'⟩ := blockRoot_spec length fewOther entryOther
  cases is.symm.trans computed
  obtain ⟨same, rfl⟩ := Prod.mk.inj (Option.some.inj (is'.symm.trans computedOther))
  rcases HashTree.digest_binds length same.symm with equal | collide | confused | confused
  · exact .inl (congrArg HashTree.entries equal)
  · obtain ⟨first, member, second, member', differ, hash⟩ := collide
    refine .inr (.inl ⟨first, ?_, second, ?_, differ, hash⟩)
    · exact (List.mem_append.mp member).elim (List.mem_append_left _)
        fun pair => List.mem_append_right _ (inside pair)
    · exact (List.mem_append.mp member').elim (List.mem_append_left _)
        fun pair => List.mem_append_right _ (inside' pair)
  · obtain ⟨string, member, pair⟩ := confused
    exact .inr (.inr (.inl ⟨string, member, inside' pair⟩))
  · obtain ⟨string, member, pair⟩ := confused
    exact .inr (.inr (.inr ⟨string, member, inside pair⟩))

def pairEntry : Bytes := lengthHash [1] ++ lengthHash [2]

theorem block_root_binds_pair :
    ([pairEntry] : List Bytes) = [[1], [2]] ∨
    (∃ first ∈ [pairEntry] ++ [], ∃ second ∈ [[1], [2]] ++ [pairEntry], first ≠ second ∧
      lengthCrypto.sha256 first = lengthCrypto.sha256 second) ∨
    (∃ entry ∈ [pairEntry], entry ∈ [pairEntry]) ∨ (∃ entry ∈ ([[1], [2]] : List Bytes), entry ∈ ([] : List Bytes)) :=
  block_root_binds lengthHash_length (by decide) (by decide)
    (show BlockStorageToFile.blockRoot lengthCrypto [pairEntry] = some (lengthHash pairEntry, []) by decide +kernel)
    (show BlockStorageToFile.blockRoot lengthCrypto [[1], [2]] = some (lengthHash pairEntry, [pairEntry]) by
      decide +kernel)

/-- Two blocks with one root, though no two of the strings hashed for them have the same hash. -/
theorem pair_entry_same_root :
    (∀ bytes, (lengthCrypto.sha256 bytes).length = MerkleTree.hashLength) ∧
    ∃ root pairs pairs',
      BlockStorageToFile.blockRoot lengthCrypto [pairEntry] = some (root, pairs) ∧
      BlockStorageToFile.blockRoot lengthCrypto [[1], [2]] = some (root, pairs') ∧
      [pairEntry] ≠ [[1], [2]] ∧
      ∀ first ∈ [pairEntry] ++ pairs ++ [[1], [2]] ++ pairs', ∀ second ∈ [pairEntry] ++ pairs ++ [[1], [2]] ++ pairs',
        lengthCrypto.sha256 first = lengthCrypto.sha256 second → first = second :=
  ⟨lengthHash_length, lengthHash pairEntry, [], [pairEntry], by decide +kernel, by decide +kernel, by decide,
    by decide +kernel⟩

end Blockchain
