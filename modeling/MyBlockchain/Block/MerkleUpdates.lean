import MyBlockchain.Block.MerklePaths

namespace Blockchain

namespace MerkleTree

def merkleRoot (sha256 : Bytes → Bytes) (leaves : List Bytes) : Option Bytes :=
  Pyramid.node (pairHash sha256) (leafOf leaves) rootHeight 0

variable {sha256 : Bytes → Bytes} {leaves : List Bytes} {tag : Bytes} {mt : MerkleTree} {offset : Nat}

theorem level_top {l : Nat} (upper : ∀ i, (mt.level (l + 1))[i]? = Pyramid.joined (pairHash sha256) (leafOf leaves) (l + 1) i)
    (done : ¬ mt.hasNextLevelExceptRoot l = true) (limit : l ≤ rootHeight) (few : leaves.length ≤ 2 ^ rootHeight) :
    leaves.length ≤ 2 ^ l := by
  by_cases top : l = rootHeight
  · rwa [top]
  · by_contra more
    have right : (Pyramid.node (pairHash sha256) (leafOf leaves) l 1).isSome := by
      rw [node_there, Nat.mul_one]
      exact Nat.lt_of_not_le more
    have left : (Pyramid.node (pairHash sha256) (leafOf leaves) l 0).isSome :=
      Pyramid.node_dense (leafOf_dense leaves) (Nat.zero_le 1) right
    obtain ⟨first, found⟩ := Option.isSome_iff_exists.mp left
    obtain ⟨second, found'⟩ := Option.isSome_iff_exists.mp right
    have joined := upper 0
    rw [Pyramid.joined_pair found found'] at joined
    have filled : 0 < (mt.level (l + 1)).length := by
      obtain ⟨inside, -⟩ := List.getElem?_eq_some_iff.mp joined
      exact inside
    have height : rootHeight + 1 = treeLevels - 1 := rfl
    exact done (by simp [hasNextLevelExceptRoot, filled, show l + 1 < treeLevels - 1 by omega])

theorem rootLevel_top (represents : Represents sha256 leaves mt) (leaf : leaves ≠ [])
    (few : leaves.length ≤ 2 ^ rootHeight) :
    leaves.length ≤ 2 ^ mt.rootLevel treeLevels 0 ∧ mt.rootLevel treeLevels 0 ≤ rootHeight ∧
      mt.level (mt.rootLevel treeLevels 0) ≠ [] := by
  have same : mt.level 0 = leaves := List.ext_getElem? (represents.level 0)
  obtain ⟨filled, limit, last⟩ := rootLevel_spec mt treeLevels 0 (by decide) (by decide) (same ▸ leaf)
  have height : rootHeight + 1 = treeLevels - 1 := rfl
  refine ⟨level_top (represents.level _) ?_ (by omega) few, by omega, filled⟩
  intro more
  have parts : mt.rootLevel treeLevels 0 + 1 < treeLevels - 1 ∧
      0 < (mt.level (mt.rootLevel treeLevels 0 + 1)).length := by
    simpa [hasNextLevelExceptRoot] using more
  rw [last parts.1] at parts
  exact Nat.lt_irrefl 0 parts.2

theorem merkleRoot_top {l : Nat} (few : leaves.length ≤ 2 ^ l) (lower : l ≤ rootHeight) :
    merkleRoot sha256 leaves = Pyramid.node (pairHash sha256) (leafOf leaves) l 0 := by
  have alone : Pyramid.node (pairHash sha256) (leafOf leaves) l 1 = none := by
    apply node_free
    rwa [Nat.mul_one]
  obtain ⟨more, height⟩ : ∃ more, rootHeight = l + more := ⟨rootHeight - l, by omega⟩
  rw [merkleRoot, height, Pyramid.node_top alone (leafOf_dense leaves)]

theorem Represents.holds (represents : Represents sha256 leaves mt) (few : leaves.length ≤ 2 ^ rootHeight) (l : Nat) :
    Holds sha256 leaves l mt :=
  ⟨fun l' _ => represents.level l', Nat.lt_of_le_of_lt few (by decide)⟩

theorem path_shift (offset l : Nat) : (offset / 2 ^ l) >>> 1 = offset / 2 ^ (l + 1) := by
  rw [Nat.shiftRight_eq_div_pow, Nat.pow_one, half_power]

theorem verifyLoop_eq (represents : Represents sha256 leaves mt) (few : leaves.length ≤ 2 ^ rootHeight)
    (inside : offset < leaves.length) {rounds l : Nat} {digest : Bytes} (hashed : List Bytes)
    (node : Pyramid.node (pairHash sha256) (leafOf (leaves.set offset tag)) l (offset / 2 ^ l) = some digest) :
    ∃ digest' hashed', verifyLoop sha256 mt rounds (offset / 2 ^ l) l digest hashed =
        some (offset / 2 ^ mt.rootLevel rounds l, mt.rootLevel rounds l, digest', hashed') ∧ hashed ⊆ hashed' ∧
      Pyramid.node (pairHash sha256) (leafOf (leaves.set offset tag)) (mt.rootLevel rounds l)
        (offset / 2 ^ mt.rootLevel rounds l) = some digest' ∧
      ∀ l', l ≤ l' → l' < mt.rootLevel rounds l → ∀ left right,
        Pyramid.node (pairHash sha256) (leafOf (leaves.set offset tag)) l' (2 * (offset / 2 ^ (l' + 1))) = some left →
        Pyramid.node (pairHash sha256) (leafOf (leaves.set offset tag)) l' (2 * (offset / 2 ^ (l' + 1)) + 1) =
          some right → left ++ right ∈ hashed' := by
  induction rounds generalizing l digest hashed with
  | zero =>
    exact ⟨digest, hashed, rfl, List.Subset.refl _, node, fun l' least below => absurd below (Nat.not_lt.mpr least)⟩
  | succ rounds ih =>
    unfold verifyLoop rootLevel
    by_cases more : mt.hasNextLevelExceptRoot l = true
    · obtain ⟨above, pairs, stepped, node', hashes⟩ := pathStep_eq (represents.holds few l)
        (fun i off => (node_set inside (Ne.symm off)).symm) (List.length_set).symm node
      rw [← half_power] at node' hashes
      obtain ⟨digest', hashed', looped, sub, top, later⟩ := ih (hashed ++ pairs) node'
      rw [if_pos more, if_pos more, stepped]
      dsimp only
      rw [path_shift]
      refine ⟨digest', hashed', looped, fun string member => sub (List.mem_append_left _ member), top, ?_⟩
      intro l' least below left right one two
      by_cases first : l' = l
      · rw [first] at one two
        exact sub (List.mem_append_right _ (hashes left right one two))
      · exact later l' (by omega) below left right one two
    · rw [if_neg more, if_neg more]
      exact ⟨digest, hashed, rfl, List.Subset.refl _, node, fun l' least below => absurd below (Nat.not_lt.mpr least)⟩

theorem initHash_length (tag : Bytes) (short : tag.length ≤ hashLength) : (initHash tag).length = hashLength := by
  rw [initHash, List.length_append, List.length_replicate]
  omega

theorem verify_eq (represents : Represents sha256 leaves mt) (few : leaves.length ≤ 2 ^ rootHeight)
    (inside : offset < leaves.length) (short : tag.length ≤ hashLength) :
    ∃ hashed, verify sha256 mt tag offset = some (
        if merkleRoot sha256 (leaves.set offset (initHash tag)) = merkleRoot sha256 leaves then .success
        else .rootMismatch, hashed) ∧
      ∀ l < rootHeight, ∀ left right,
        Pyramid.node (pairHash sha256) (leafOf (leaves.set offset (initHash tag))) l (2 * (offset / 2 ^ (l + 1))) =
          some left →
        Pyramid.node (pairHash sha256) (leafOf (leaves.set offset (initHash tag))) l (2 * (offset / 2 ^ (l + 1)) + 1) =
          some right → left ++ right ∈ hashed := by
  have leaf : leaves ≠ [] := List.ne_nil_of_length_pos (by omega)
  obtain ⟨reaches, height, filled⟩ := rootLevel_top represents leaf few
  have start : Pyramid.node (pairHash sha256) (leafOf (leaves.set offset (initHash tag))) 0 (offset / 2 ^ 0) =
      some (initHash tag) := by
    rw [Nat.pow_zero, Nat.div_one, Pyramid.node, leafOf_set inside, Function.update_self]
  obtain ⟨digest, hashed, looped, -, top, pairs⟩ :=
    @verifyLoop_eq _ _ _ _ _ represents few inside treeLevels 0 _ [] start
  rw [Nat.pow_zero, Nat.div_one] at looped
  generalize mt.rootLevel treeLevels 0 = L at *
  have place : offset / 2 ^ L = 0 := Nat.div_eq_of_lt (by omega)
  rw [place] at looped top
  have root := @merkleRoot_top sha256 leaves L reaches height
  have root' := @merkleRoot_top sha256 (leaves.set offset (initHash tag)) L (by rwa [List.length_set]) height
  have stored := (represents.holds few L).found (List.length_pos_iff.mpr filled)
  have there : (Pyramid.node (pairHash sha256) (leafOf leaves) L 0).isSome := by
    rw [node_there, Nat.mul_zero]
    omega
  obtain ⟨old, found⟩ := Option.isSome_iff_exists.mp there
  refine ⟨hashed, ?_, ?_⟩
  · have legal : ¬ (hashLength < tag.length ∨ mt.elems ≤ offset) := by
      rw [represents.elems]
      omega
    unfold verify
    rw [if_neg legal, looped]
    dsimp only
    rw [stored, found, root, root', found, top]
    simp only [Option.some.injEq]
  · intro l lower left right one two
    by_cases below : l < L
    · exact pairs l (Nat.zero_le l) below left right one two
    · -- from the top on there is no pair
      have wide : 2 ^ L ≤ 2 ^ l := Nat.pow_le_pow_right (Nat.succ_pos 1) (Nat.le_of_not_lt below)
      have far : 2 ^ l * 1 ≤ 2 ^ l * (2 * (offset / 2 ^ (l + 1)) + 1) := Nat.mul_le_mul_left _ (by omega)
      rw [node_free (by rw [List.length_set]; omega)] at two
      cases two

/-- In the loop of `mt_update`: the levels up to `l` are those of the leaves with the new one. -/
structure Updating (sha256 : Bytes → Bytes) (leaves : List Bytes) (offset : Nat) (tag : Bytes) (l : Nat)
    (mt : MerkleTree) (digest : Bytes) : Prop where
  elems : mt.elems = leaves.length
  node : Pyramid.node (pairHash sha256) (leafOf (leaves.set offset tag)) l (offset / 2 ^ l) = some digest
  below : ∀ l' ≤ l, ∀ i, (mt.level l')[i]? = Pyramid.joined (pairHash sha256) (leafOf (leaves.set offset tag)) l' i
  above : ∀ l', l < l' → ∀ i, (mt.level l')[i]? = Pyramid.joined (pairHash sha256) (leafOf leaves) l' i
  pairsBelow : ∀ l' < l, ∀ i left right,
    Pyramid.node (pairHash sha256) (leafOf (leaves.set offset tag)) l' (2 * i) = some left →
    Pyramid.node (pairHash sha256) (leafOf (leaves.set offset tag)) l' (2 * i + 1) = some right →
    left ++ right ∈ mt.hashed
  pairs : ∀ l' i left right, Pyramid.node (pairHash sha256) (leafOf leaves) l' (2 * i) = some left →
    Pyramid.node (pairHash sha256) (leafOf leaves) l' (2 * i + 1) = some right → left ++ right ∈ mt.hashed

theorem alUpdateIfExists_eq {list : List Bytes} (hash : Bytes) (place : Nat) (room : list.length < alMaxElems) :
    ∃ next, alUpdateIfExists list hash place = some next ∧
      ∀ i, next[i]? = if i = place ∧ i < list.length then some hash else list[i]? := by
  unfold alUpdateIfExists
  rw [if_neg (Nat.not_le.mpr room)]
  split
  · next beyond =>
    refine ⟨list, rfl, fun i => ?_⟩
    rw [if_neg fun both : i = place ∧ i < list.length => Nat.not_lt.mpr beyond (both.1 ▸ both.2)]
  · next within =>
    refine ⟨list.set place hash, rfl, fun i => ?_⟩
    rw [List.getElem?_set]
    by_cases here : place = i
    · rw [if_pos here, if_pos (by omega), if_pos ⟨here.symm, by omega⟩]
    · rw [if_neg here, if_neg fun both : i = place ∧ i < list.length => here both.1.symm]

theorem Updating.step (inside : offset < leaves.length) (few : leaves.length ≤ 2 ^ rootHeight) {l : Nat}
    {digest : Bytes} (updating : Updating sha256 leaves offset tag l mt digest) :
    ∃ above hashed next, pathStep sha256 mt (offset / 2 ^ l) l digest = some (above, hashed) ∧
      alUpdateIfExists (mt.level (l + 1)) above (offset / 2 ^ (l + 1)) = some next ∧
      next.length = (mt.level (l + 1)).length ∧
      Updating sha256 leaves offset tag (l + 1)
        { mt with level := Function.update mt.level (l + 1) next, hashed := mt.hashed ++ hashed } above := by
  have half := half_power offset l
  have holds : Holds sha256 (leaves.set offset tag) l mt :=
    ⟨updating.below, by rw [List.length_set]; exact Nat.lt_of_le_of_lt few (by decide)⟩
  obtain ⟨above, hashed, stepped, node, hashes⟩ := pathStep_eq holds (fun _ _ => rfl) rfl updating.node
  rw [← half] at node hashes
  have upper := updating.above (l + 1) (Nat.lt_succ_self l)
  have room : (mt.level (l + 1)).length < alMaxElems :=
    Nat.lt_of_le_of_lt (Nat.le_trans (level_length upper) few) (by decide)
  obtain ⟨next, written, content⟩ := alUpdateIfExists_eq above (offset / 2 ^ (l + 1)) room
  have length : next.length = (mt.level (l + 1)).length := by
    unfold alUpdateIfExists at written
    rw [if_neg (Nat.not_le.mpr room)] at written
    split at written
    · rw [Option.some.inj written]
    · rw [← Option.some.inj written, List.length_set]
  refine ⟨above, hashed, next, stepped, written, length, ?_⟩
  constructor
  case elems => exact updating.elems
  case node => exact node
  case below =>
    intro l' lower i
    by_cases new : l' = l + 1
    · subst new
      show (Function.update mt.level (l + 1) next (l + 1))[i]? = _
      rw [Function.update_self, content]
      by_cases here : i = offset / 2 ^ (l + 1)
      · have presence := @joined_set_isSome sha256 leaves offset tag (l + 1) i
        rw [← upper i] at presence
        by_cases stored : i < (mt.level (l + 1)).length
        · have there : (Pyramid.joined (pairHash sha256) (leafOf (leaves.set offset tag)) (l + 1) i).isSome := by
            rw [presence]
            simpa using stored
          rw [if_pos ⟨here, stored⟩, Pyramid.joined_eq_node there, here, node]
        · rw [List.getElem?_eq_none (Nat.le_of_not_lt stored)] at presence ⊢
          rw [if_neg fun both => stored both.2]
          exact (Option.not_isSome_iff_eq_none.mp (by rw [presence]; exact Bool.false_ne_true)).symm
      · rw [if_neg fun both => here both.1, upper, joined_set inside (Ne.symm here)]
    · show (Function.update mt.level (l + 1) next l')[i]? = _
      rw [Function.update_of_ne new]
      exact updating.below l' (by omega) i
  case above =>
    intro l' higher i
    show (Function.update mt.level (l + 1) next l')[i]? = _
    rw [Function.update_of_ne (by omega)]
    exact updating.above l' (by omega) i
  case pairsBelow =>
    intro l' lower i left right one two
    by_cases new : l' = l
    · subst new
      by_cases here : i = offset / 2 ^ (l' + 1)
      · rw [here] at one two
        exact List.mem_append_right _ (hashes left right one two)
      · refine List.mem_append_left _ (updating.pairs l' i left right ?_ ?_)
        · rwa [node_set inside (by omega)] at one
        · rwa [node_set inside (by omega)] at two
    · exact List.mem_append_left _ (updating.pairsBelow l' (by omega) i left right one two)
  case pairs => exact fun l' i left right one two => List.mem_append_left _ (updating.pairs l' i left right one two)

theorem Updating.loop (inside : offset < leaves.length) (few : leaves.length ≤ 2 ^ rootHeight) {rounds l : Nat}
    {digest : Bytes} (updating : Updating sha256 leaves offset tag l mt digest) (limit : l ≤ rootHeight)
    (enough : rootHeight ≤ l + rounds) (filled : mt.level l ≠ []) :
    ∃ mt' l' digest', updateLoop sha256 rounds mt (offset / 2 ^ l) l digest =
        some (mt', offset / 2 ^ l', l', digest') ∧
      Updating sha256 leaves offset tag l' mt' digest' ∧ leaves.length ≤ 2 ^ l' ∧ mt'.level l' ≠ [] := by
  have height : rootHeight + 1 = treeLevels - 1 := rfl
  induction rounds generalizing l mt digest with
  | zero =>
    obtain rfl : l = rootHeight := by omega
    exact ⟨mt, rootHeight, digest, rfl, updating, few, filled⟩
  | succ rounds ih =>
    unfold updateLoop
    by_cases more : mt.hasNextLevelExceptRoot l = true
    · have parts : l + 1 < treeLevels - 1 ∧ 0 < (mt.level (l + 1)).length := by
        simpa [hasNextLevelExceptRoot] using more
      obtain ⟨above, hashed, next, stepped, written, length, onward⟩ := updating.step inside few
      have filled' : Function.update mt.level (l + 1) next (l + 1) ≠ [] := by
        rw [Function.update_self]
        exact List.ne_nil_of_length_pos (by omega)
      obtain ⟨mt', l', digest', looped, rest⟩ := ih onward (by omega) (by omega) filled'
      rw [if_pos more, stepped]
      dsimp only
      rw [path_shift, written]
      exact ⟨mt', l', digest', looped, rest⟩
    · rw [if_neg more]
      exact ⟨mt, l, digest, rfl, updating,
        level_top (updating.above (l + 1) (Nat.lt_succ_self l)) more limit few, filled⟩

theorem Updating.start (represents : Represents sha256 leaves mt) (inside : offset < leaves.length) (tag : Bytes) :
    Updating sha256 leaves offset tag 0
      { mt with level := Function.update mt.level 0 ((mt.level 0).set offset tag) } tag where
  elems := represents.elems
  node := by rw [Nat.pow_zero, Nat.div_one, Pyramid.node, leafOf_set inside, Function.update_self]
  below l' lower i := by
    have same : mt.level 0 = leaves := List.ext_getElem? (represents.level 0)
    obtain rfl : l' = 0 := Nat.le_zero.mp lower
    show (Function.update mt.level 0 ((mt.level 0).set offset tag) 0)[i]? = _
    rw [Function.update_self, same]
    rfl
  above l' higher i := by
    show (Function.update mt.level 0 ((mt.level 0).set offset tag) l')[i]? = _
    rw [Function.update_of_ne (by omega)]
    exact represents.level l' i
  pairsBelow l' lower := absurd lower (Nat.not_lt_zero l')
  pairs := represents.pairs

theorem Updating.finish {l : Nat} {digest : Bytes} (updating : Updating sha256 leaves offset tag l mt digest)
    (top : leaves.length ≤ 2 ^ l) : Represents sha256 (leaves.set offset tag) mt := by
  have alone (l' : Nat) (higher : l ≤ l') (i : Nat) (list : List Bytes) (size : list.length = leaves.length) :
      Pyramid.node (pairHash sha256) (leafOf list) l' (2 * i + 1) = none := by
    apply node_free
    have grows : 2 ^ l ≤ 2 ^ l' := Nat.pow_le_pow_right (Nat.succ_pos 1) higher
    have wide : 2 ^ l' * 1 ≤ 2 ^ l' * (2 * i + 1) := Nat.mul_le_mul_left _ (by omega)
    omega
  refine { elems := by rw [updating.elems, List.length_set], level := ?_, pairs := ?_ }
  · intro l' i
    by_cases lower : l' ≤ l
    · exact updating.below l' lower i
    · obtain ⟨m, rfl⟩ : ∃ m, l' = m + 1 := ⟨l' - 1, by omega⟩
      rw [updating.above (m + 1) (by omega), Pyramid.joined_single (alone m (by omega) i leaves rfl),
        Pyramid.joined_single (alone m (by omega) i _ List.length_set)]
  · intro l' i left right one two
    by_cases lower : l' < l
    · exact updating.pairsBelow l' lower i left right one two
    · rw [alone l' (by omega) i _ List.length_set] at two
      cases two

/-- `mt_update` leaves the tree that would have been built with the new leaf. -/
theorem update_eq (represents : Represents sha256 leaves mt) (few : leaves.length ≤ 2 ^ rootHeight)
    (inside : offset < leaves.length) (short : tag.length ≤ hashLength) :
    ∃ mt', update sha256 mt tag offset = some (mt', .success) ∧
      Represents sha256 (leaves.set offset (initHash tag)) mt' := by
  have same : mt.level 0 = leaves := List.ext_getElem? (represents.level 0)
  have room : (mt.level 0).length < alMaxElems := by
    rw [same]
    exact Nat.lt_of_le_of_lt few (by decide)
  have legal : ¬ (hashLength < tag.length ∨ mt.elems ≤ offset) := by
    rw [represents.elems]
    omega
  have written : alUpdate (mt.level 0) (initHash tag) offset = some ((mt.level 0).set offset (initHash tag)) := by
    unfold alUpdate
    rw [if_neg (Nat.not_le.mpr room), if_pos (by rwa [same])]
  have filled : Function.update mt.level 0 ((mt.level 0).set offset (initHash tag)) 0 ≠ [] := by
    rw [Function.update_self, same]
    apply List.ne_nil_of_length_pos
    rw [List.length_set]
    omega
  obtain ⟨mt', l, digest, looped, updating, top, stored⟩ :=
    @Updating.loop _ _ _ _ _ inside few treeLevels 0 _ (.start represents inside (initHash tag)) (Nat.zero_le _)
      (by decide) filled
  rw [Nat.pow_zero, Nat.div_one] at looped
  have place : offset / 2 ^ l = 0 := Nat.div_eq_of_lt (by omega)
  have node := updating.node
  rw [place] at looped node
  have represents' := updating.finish top
  have found := (represents'.holds (by rwa [List.length_set]) l).found (List.length_pos_iff.mpr stored)
  refine ⟨mt', ?_, represents'⟩
  unfold update
  rw [if_neg legal]
  dsimp only
  rw [written]
  dsimp only
  rw [looped]
  dsimp only
  rw [if_pos (found.trans node)]

end MerkleTree

end Blockchain
