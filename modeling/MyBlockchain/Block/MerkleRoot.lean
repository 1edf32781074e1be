import Mathlib.Data.List.Induction
import MyBlockchain.Block.MerkleTree

namespace Blockchain

namespace MerkleTree

variable (sha256 : Bytes → Bytes)

def pairHash (left right : Bytes) : Bytes := sha256 (left ++ right)

def leafOf (leaves : List Bytes) (index : Nat) : Option Bytes := leaves[index]?

/-- The tree of some leaves: a level holds the places that are joined, and every pair of the pyramid was hashed. -/
structure Represents (leaves : List Bytes) (mt : MerkleTree) : Prop where
  elems : mt.elems = leaves.length
  level : ∀ l i, (mt.level l)[i]? = Pyramid.joined (pairHash sha256) (leafOf leaves) l i
  pairs : ∀ l i left right, Pyramid.node (pairHash sha256) (leafOf leaves) l (2 * i) = some left →
    Pyramid.node (pairHash sha256) (leafOf leaves) l (2 * i + 1) = some right → left ++ right ∈ mt.hashed

/-- In the loop of `mt_add`: the levels up to `l` are those of the longer list, and the digest is that of the new
leaf's place on level `l`. -/
structure Climbing (leaves : List Bytes) (tag : Bytes) (l : Nat) (mt : MerkleTree) (digest : Bytes) : Prop where
  elems : mt.elems = leaves.length + 1
  node : Pyramid.node (pairHash sha256) (leafOf (leaves ++ [tag])) l (leaves.length / 2 ^ l) = some digest
  below : ∀ l' ≤ l, ∀ i, (mt.level l')[i]? = Pyramid.joined (pairHash sha256) (leafOf (leaves ++ [tag])) l' i
  above : ∀ l', l < l' → ∀ i, (mt.level l')[i]? = Pyramid.joined (pairHash sha256) (leafOf leaves) l' i
  pairsBelow : ∀ l' < l, ∀ i left right,
    Pyramid.node (pairHash sha256) (leafOf (leaves ++ [tag])) l' (2 * i) = some left →
    Pyramid.node (pairHash sha256) (leafOf (leaves ++ [tag])) l' (2 * i + 1) = some right → left ++ right ∈ mt.hashed
  pairs : ∀ l' i left right, Pyramid.node (pairHash sha256) (leafOf leaves) l' (2 * i) = some left →
    Pyramid.node (pairHash sha256) (leafOf leaves) l' (2 * i + 1) = some right → left ++ right ∈ mt.hashed
  placed : leaves.length / 2 ^ l = 0 → (mt.level l)[0]? = some digest

variable {sha256} {leaves : List Bytes} {tag : Bytes} {mt : MerkleTree}

theorem leafOf_isSome (leaves : List Bytes) (index : Nat) :
    (leafOf leaves index).isSome ↔ index < leaves.length := by
  simp [leafOf]

theorem leafOf_dense (leaves : List Bytes) : Pyramid.Dense (leafOf leaves) := by
  intro i j before there
  rw [leafOf_isSome] at there ⊢
  exact Nat.lt_of_le_of_lt before there

theorem leafOf_append (leaves : List Bytes) (tag : Bytes) :
    leafOf (leaves ++ [tag]) = Function.update (leafOf leaves) leaves.length (some tag) := by
  funext index
  unfold leafOf
  by_cases last : index = leaves.length
  · subst last
    rw [Function.update_self, List.getElem?_concat_length]
  · rw [Function.update_of_ne last]
    by_cases inside : index < leaves.length
    · exact List.getElem?_append_left inside
    · have beyond : (leaves ++ [tag]).length ≤ index := by
        rw [List.length_append, List.length_singleton]
        omega
      rw [List.getElem?_eq_none beyond, List.getElem?_eq_none (Nat.le_of_not_lt inside)]

theorem node_there {join : Bytes → Bytes → Bytes} {l i : Nat} :
    (Pyramid.node join (leafOf leaves) l i).isSome ↔ 2 ^ l * i < leaves.length := by
  rw [Pyramid.node_isSome, leafOf_isSome]

theorem node_free {join : Bytes → Bytes → Bytes} {l i : Nat} (outside : leaves.length ≤ 2 ^ l * i) :
    Pyramid.node join (leafOf leaves) l i = none := by
  rw [← Option.not_isSome_iff_eq_none, node_there]
  exact Nat.not_lt.mpr outside

theorem level_length {level : List Bytes} {join : Bytes → Bytes → Bytes} {l : Nat}
    (content : ∀ i, level[i]? = Pyramid.joined join (leafOf leaves) l i) : level.length ≤ leaves.length := by
  by_contra longer
  have there : (level[leaves.length]?).isSome := by simp; omega
  rw [content] at there
  rw [Pyramid.joined_eq_node there, node_there] at there
  have one : 1 * leaves.length ≤ 2 ^ l * leaves.length := Nat.mul_le_mul_right _ Nat.one_le_two_pow
  omega

theorem isPowerOfTwo_room {v : Nat} (power : isPowerOfTwo v = true) (room : v < alMaxElems) :
    v * 2 ≤ alMaxElems := by
  have parts : v ≠ 0 ∧ v &&& (v - 1) = 0 := by simpa [isPowerOfTwo] using power
  obtain ⟨k, rfl⟩ := (Nat.and_sub_one_eq_zero_iff_isPowerOfTwo parts.1).mp parts.2
  have limit : alMaxElems = 2 ^ 19 := rfl
  rw [limit] at room ⊢
  have below : k < 19 := (Nat.pow_lt_pow_iff_right (Nat.lt_succ_self 1)).mp room
  calc 2 ^ k * 2 = 2 ^ (k + 1) := (Nat.pow_succ ..).symm
    _ ≤ 2 ^ 19 := Nat.pow_le_pow_right (Nat.succ_pos 1) below

theorem alAdd_eq {list : List Bytes} (hash : Bytes) (room : list.length < alMaxElems) :
    alAdd list hash = some (list ++ [hash]) := by
  unfold alAdd
  rw [if_neg (Nat.not_le.mpr room), if_neg]
  rintro both
  have parts : isPowerOfTwo list.length = true ∧ alMaxElems < list.length * 2 := by simpa using both
  exact absurd (isPowerOfTwo_room parts.1 room) (Nat.not_le.mpr parts.2)

theorem alGet_eq {list : List Bytes} (offset : Nat) (room : list.length < alMaxElems) :
    alGet list offset = list[offset]? := if_neg (Nat.not_le.mpr room)

theorem alAddOrUpdate_eq {list : List Bytes} {offset : Nat} (hash : Bytes) (room : list.length < alMaxElems)
    (reached : offset ≤ list.length) :
    ∃ next, alAddOrUpdate list hash offset = some next ∧
      ∀ i, next[i]? = if i = offset then some hash else list[i]? := by
  unfold alAddOrUpdate
  rw [if_neg (Nat.not_le.mpr room), if_neg (Nat.not_lt.mpr reached)]
  split
  · next last =>
    refine ⟨list ++ [hash], alAdd_eq hash room, fun i => ?_⟩
    subst last
    split
    · next same => rw [same, List.getElem?_concat_length]
    · next other =>
      by_cases inside : i < list.length
      · exact List.getElem?_append_left inside
      · rw [List.getElem?_eq_none (by simp; omega), List.getElem?_eq_none (by omega)]
  · next inner =>
    have inside : offset < list.length := by omega
    refine ⟨list.set offset hash, ?_, fun i => ?_⟩
    · unfold alUpdate
      rw [if_neg (Nat.not_le.mpr room), if_pos inside]
    · rw [List.getElem?_set]
      split
      · next same => rw [if_pos same.symm]
      · next other => rw [if_neg (Ne.symm other)]

theorem Climbing.room {l : Nat} {digest : Bytes} (climbing : Climbing sha256 leaves tag l mt digest) (l' : Nat) :
    (mt.level l').length ≤ leaves.length + 1 := by
  by_cases reached : l' ≤ l
  · have bound := level_length (climbing.below l' reached)
    rwa [List.length_append, List.length_singleton] at bound
  · exact Nat.le_succ_of_le (level_length (climbing.above l' (Nat.lt_of_not_le reached)))

theorem joined_append {join : Bytes → Bytes → Bytes} {l i : Nat} (off : leaves.length / 2 ^ l ≠ i) :
    Pyramid.joined join (leafOf (leaves ++ [tag])) l i = Pyramid.joined join (leafOf leaves) l i := by
  rw [leafOf_append, Pyramid.joined_update _ off]

theorem node_append {join : Bytes → Bytes → Bytes} {l i : Nat} (off : leaves.length / 2 ^ l ≠ i) :
    Pyramid.node join (leafOf (leaves ++ [tag])) l i = Pyramid.node join (leafOf leaves) l i := by
  rw [leafOf_append, Pyramid.node_update _ off]

theorem half_power (n l : Nat) : n / 2 ^ (l + 1) = n / 2 ^ l / 2 := by
  rw [Nat.pow_succ, Nat.div_div_eq_div_mul]

theorem Climbing.even {l : Nat} {digest : Bytes} (climbing : Climbing sha256 leaves tag l mt digest)
    (left : leaves.length / 2 ^ l % 2 = 0) (going : leaves.length / 2 ^ l ≠ 0) :
    Climbing sha256 leaves tag (l + 1) mt digest := by
  have half := half_power leaves.length l
  generalize place : leaves.length / 2 ^ l = q at left going half
  have beyond : leaves.length + 1 ≤ 2 ^ l * (q + 1) := by
    have := Nat.lt_mul_div_succ leaves.length (Nat.two_pow_pos l)
    rwa [place] at this
  have pair : 2 * (leaves.length / 2 ^ (l + 1)) + 1 = q + 1 := by omega
  have alone : Pyramid.node (pairHash sha256) (leafOf (leaves ++ [tag])) l
      (2 * (leaves.length / 2 ^ (l + 1)) + 1) = none := by
    apply node_free
    rw [pair, List.length_append, List.length_singleton]
    exact beyond
  have aloneBefore : Pyramid.node (pairHash sha256) (leafOf leaves) l
      (2 * (leaves.length / 2 ^ (l + 1)) + 1) = none := by
    apply node_free
    rw [pair]
    omega
  refine { climbing with
    node := ?node, below := ?below, above := ?above, pairsBelow := ?pairsBelow, placed := ?placed }
  case node =>
    rw [Pyramid.node_single alone, show 2 * (leaves.length / 2 ^ (l + 1)) = leaves.length / 2 ^ l by omega]
    exact climbing.node
  case below =>
    intro l' reached i
    by_cases new : l' = l + 1
    · subst new
      rw [climbing.above (l + 1) (Nat.lt_succ_self l)]
      by_cases last : leaves.length / 2 ^ (l + 1) = i
      · subst last
        rw [Pyramid.joined_single alone, Pyramid.joined_single aloneBefore]
      · exact (joined_append last).symm
    · exact climbing.below l' (by omega) i
  case above =>
    exact fun l' higher => climbing.above l' (by omega)
  case pairsBelow =>
    intro l' lower i first second there there'
    by_cases new : l' = l
    · subst new
      by_cases last : leaves.length / 2 ^ (l' + 1) = i
      · subst last
        rw [alone] at there'
        cases there'
      · refine climbing.pairs l' i first second ?_ ?_
        · rwa [node_append (by omega)] at there
        · rwa [node_append (by omega)] at there'
    · exact climbing.pairsBelow l' (by omega) i first second there there'
  case placed =>
    intro top
    omega

theorem Climbing.partner {l : Nat} {digest : Bytes} (climbing : Climbing sha256 leaves tag l mt digest)
    (room : leaves.length + 1 < alMaxElems) (right : leaves.length / 2 ^ l % 2 = 1) :
    ∃ left, alGet (mt.level l) (leaves.length / 2 ^ l - 1) = some left ∧
      Pyramid.node (pairHash sha256) (leafOf (leaves ++ [tag])) l (2 * (leaves.length / 2 ^ (l + 1))) =
        some left := by
  have half := half_power leaves.length l
  have partner : leaves.length / 2 ^ l - 1 = 2 * (leaves.length / 2 ^ (l + 1)) := by omega
  have there := climbing.node
  rw [show leaves.length / 2 ^ l = 2 * (leaves.length / 2 ^ (l + 1)) + 1 by omega] at there
  have stored : (Pyramid.joined (pairHash sha256) (leafOf (leaves ++ [tag])) l
      (2 * (leaves.length / 2 ^ (l + 1)))).isSome :=
    Pyramid.joined_isSome (leafOf_dense _) (by rw [there]; rfl)
  obtain ⟨left, found⟩ := Option.isSome_iff_exists.mp stored
  refine ⟨left, ?_, (Pyramid.joined_eq_node stored).symm.trans found⟩
  rw [alGet_eq _ (Nat.lt_of_le_of_lt (climbing.room l) room), climbing.below l (Nat.le_refl l), partner, found]

theorem Climbing.reached {l : Nat} {digest : Bytes} (climbing : Climbing sha256 leaves tag l mt digest)
    (right : leaves.length / 2 ^ l % 2 = 1) :
    leaves.length / 2 ^ (l + 1) ≤ (mt.level (l + 1)).length := by
  by_contra short
  obtain ⟨k, same⟩ : ∃ k, leaves.length / 2 ^ (l + 1) = k + 1 := ⟨leaves.length / 2 ^ (l + 1) - 1, by omega⟩
  have before : (Pyramid.node (pairHash sha256) (leafOf leaves) (l + 1) (k + 1)).isSome ∨
      leaves.length = 2 ^ (l + 1) * (k + 1) := by
    rw [node_there, ← same]
    exact (Nat.lt_or_eq_of_le (Nat.mul_div_le ..)).imp_right Eq.symm
  have missing := climbing.above (l + 1) (Nat.lt_succ_self l) k
  rw [List.getElem?_eq_none (by omega)] at missing
  rcases before with whole | exact
  · have present := Pyramid.joined_isSome (leafOf_dense leaves) whole
    rw [← missing] at present
    cases present
  · rw [Nat.pow_succ, Nat.mul_assoc] at exact
    rw [exact, Nat.mul_div_cancel_left _ (Nat.two_pow_pos l)] at right
    omega

theorem Climbing.join {l : Nat} {left digest : Bytes} {next : List Bytes}
    (climbing : Climbing sha256 leaves tag l mt digest) (right : leaves.length / 2 ^ l % 2 = 1)
    (found : Pyramid.node (pairHash sha256) (leafOf (leaves ++ [tag])) l (2 * (leaves.length / 2 ^ (l + 1))) =
      some left)
    (content : ∀ i, next[i]? =
      if i = leaves.length / 2 ^ (l + 1) then some (sha256 (left ++ digest)) else (mt.level (l + 1))[i]?) :
    Climbing sha256 leaves tag (l + 1)
      { mt with level := Function.update mt.level (l + 1) next, hashed := mt.hashed ++ [left ++ digest] }
      (sha256 (left ++ digest)) := by
  have half := half_power leaves.length l
  have there := climbing.node
  rw [show leaves.length / 2 ^ l = 2 * (leaves.length / 2 ^ (l + 1)) + 1 by omega] at there
  constructor
  case elems => exact climbing.elems
  case node => exact Pyramid.node_pair found there
  case below =>
    intro l' lower i
    by_cases new : l' = l + 1
    · subst new
      show (Function.update mt.level (l + 1) next (l + 1))[i]? = _
      rw [Function.update_self, content]
      split
      · next last =>
        rw [last, Pyramid.joined_pair found there]
        rfl
      · next other =>
        rw [climbing.above (l + 1) (Nat.lt_succ_self l), joined_append (Ne.symm other)]
    · show (Function.update mt.level (l + 1) next l')[i]? = _
      rw [Function.update_of_ne new]
      exact climbing.below l' (by omega) i
  case above =>
    intro l' higher i
    show (Function.update mt.level (l + 1) next l')[i]? = _
    rw [Function.update_of_ne (by omega)]
    exact climbing.above l' (by omega) i
  case pairsBelow =>
    intro l' lower i first second one two
    by_cases new : l' = l
    · subst new
      by_cases last : leaves.length / 2 ^ (l' + 1) = i
      · subst last
        obtain rfl : left = first := Option.some.inj (found.symm.trans one)
        obtain rfl : digest = second := Option.some.inj (there.symm.trans two)
        exact List.mem_append_right _ (List.mem_singleton_self _)
      · refine List.mem_append_left _ (climbing.pairs l' i first second ?_ ?_)
        · rwa [node_append (by omega)] at one
        · rwa [node_append (by omega)] at two
    · exact List.mem_append_left _ (climbing.pairsBelow l' (by omega) i first second one two)
  case pairs =>
    exact fun l' i first second one two => List.mem_append_left _ (climbing.pairs l' i first second one two)
  case placed =>
    intro top
    show (Function.update mt.level (l + 1) next (l + 1))[0]? = _
    rw [Function.update_self, content, top]
    rfl

theorem Climbing.odd {l : Nat} {digest : Bytes} (climbing : Climbing sha256 leaves tag l mt digest)
    (room : leaves.length + 1 < alMaxElems) (right : leaves.length / 2 ^ l % 2 = 1) :
    ∃ left next, alGet (mt.level l) (leaves.length / 2 ^ l - 1) = some left ∧
      alAddOrUpdate (mt.level (l + 1)) (sha256 (left ++ digest)) (leaves.length / 2 ^ (l + 1)) = some next ∧
      Climbing sha256 leaves tag (l + 1)
        { mt with level := Function.update mt.level (l + 1) next, hashed := mt.hashed ++ [left ++ digest] }
        (sha256 (left ++ digest)) := by
  obtain ⟨left, got, found⟩ := climbing.partner room right
  obtain ⟨next, written, content⟩ := alAddOrUpdate_eq (sha256 (left ++ digest))
    (Nat.lt_of_le_of_lt (climbing.room (l + 1)) room) (climbing.reached right)
  exact ⟨left, next, got, written, climbing.join right found content⟩

/-- The loop comes to the top of the tree. -/
theorem climb_eq {rounds l : Nat} {digest : Bytes} (climbing : Climbing sha256 leaves tag l mt digest)
    (room : leaves.length + 1 < alMaxElems) (enough : leaves.length < 2 ^ (l + rounds)) :
    ∃ mt' l' digest', climb sha256 rounds mt (leaves.length / 2 ^ l) l digest = some (mt', 0, l', digest') ∧
      leaves.length / 2 ^ l' = 0 ∧ Climbing sha256 leaves tag l' mt' digest' := by
  induction rounds generalizing l mt digest with
  | zero =>
    have top : leaves.length / 2 ^ l = 0 := Nat.div_eq_of_lt enough
    exact ⟨mt, l, digest, by rw [top]; rfl, top, climbing⟩
  | succ rounds ih =>
    by_cases top : leaves.length / 2 ^ l = 0
    · exact ⟨mt, l, digest, by rw [top]; rfl, top, climbing⟩
    · have shift : (leaves.length / 2 ^ l) >>> 1 = leaves.length / 2 ^ (l + 1) := by
        rw [Nat.shiftRight_eq_div_pow, Nat.pow_one, half_power]
      have enough' : leaves.length < 2 ^ (l + 1 + rounds) := by rwa [Nat.add_assoc, Nat.add_comm 1]
      rw [climb, if_neg top, shift]
      by_cases odd : leaves.length / 2 ^ l % 2 = 1
      · obtain ⟨left, next, got, written, onward⟩ := climbing.odd room odd
        rw [if_pos (by simpa [right, Nat.and_one_is_mod] using odd), got]
        simp only [written]
        exact ih onward enough'
      · rw [if_neg (by simpa [right, Nat.and_one_is_mod] using odd)]
        exact ih (climbing.even (by omega) top) enough'

theorem Climbing.start (represents : Represents sha256 leaves mt) (tag : Bytes) :
    Climbing sha256 leaves tag 0
      { mt with level := Function.update mt.level 0 (mt.level 0 ++ [tag]), elems := mt.elems + 1 } tag := by
  have content : ∀ i, (mt.level 0 ++ [tag])[i]? = leafOf (leaves ++ [tag]) i := by
    intro i
    have same : mt.level 0 = leaves := List.ext_getElem? (represents.level 0)
    rw [same]
    rfl
  refine {
    elems := congrArg (· + 1) represents.elems, node := ?node, below := ?below, above := ?above
    pairsBelow := ?pairsBelow, pairs := represents.pairs, placed := ?placed }
  case node =>
    rw [Nat.pow_zero, Nat.div_one]
    exact List.getElem?_concat_length
  case below =>
    intro l' lower i
    obtain rfl : l' = 0 := Nat.le_zero.mp lower
    show (Function.update mt.level 0 (mt.level 0 ++ [tag]) 0)[i]? = _
    rw [Function.update_self]
    exact content i
  case above =>
    intro l' higher i
    show (Function.update mt.level 0 (mt.level 0 ++ [tag]) l')[i]? = _
    rw [Function.update_of_ne (by omega)]
    exact represents.level l' i
  case pairsBelow =>
    intro l' lower
    omega
  case placed =>
    intro top
    rw [Nat.pow_zero, Nat.div_one] at top
    show (Function.update mt.level 0 (mt.level 0 ++ [tag]) 0)[0]? = _
    rw [Function.update_self, content, List.eq_nil_of_length_eq_zero top]
    rfl

theorem Climbing.finish {l : Nat} {digest : Bytes} (climbing : Climbing sha256 leaves tag l mt digest)
    (top : leaves.length / 2 ^ l = 0) : Represents sha256 (leaves ++ [tag]) mt := by
  have short : leaves.length < 2 ^ l := (Nat.div_eq_zero_iff_lt (Nat.two_pow_pos l)).mp top
  -- from the top level on the pyramid has one place, without a partner
  have alone (l' : Nat) (higher : l ≤ l') (i : Nat) (list : List Bytes) (size : list.length ≤ leaves.length + 1) :
      Pyramid.node (pairHash sha256) (leafOf list) l' (2 * i + 1) = none := by
    apply node_free
    have grows : 2 ^ l ≤ 2 ^ l' := Nat.pow_le_pow_right (Nat.succ_pos 1) higher
    have wide : 2 ^ l' * 1 ≤ 2 ^ l' * (2 * i + 1) := Nat.mul_le_mul_left _ (by omega)
    omega
  have size : (leaves ++ [tag]).length ≤ leaves.length + 1 := by simp
  refine { elems := by rw [climbing.elems, List.length_append, List.length_singleton], level := ?_, pairs := ?_ }
  · intro l' i
    by_cases lower : l' ≤ l
    · exact climbing.below l' lower i
    · obtain ⟨m, rfl⟩ : ∃ m, l' = m + 1 := ⟨l' - 1, by omega⟩
      rw [climbing.above (m + 1) (by omega), Pyramid.joined_single (alone m (by omega) i _ (Nat.le_succ _)),
        Pyramid.joined_single (alone m (by omega) i _ size)]
  · intro l' i first second one two
    by_cases lower : l' < l
    · exact climbing.pairsBelow l' lower i first second one two
    · rw [alone l' (by omega) i _ size] at two
      cases two

theorem add_eq (represents : Represents sha256 leaves mt) (length : tag.length = hashLength)
    (room : leaves.length + 1 < alMaxElems) :
    ∃ mt', add sha256 mt tag = some mt' ∧ Represents sha256 (leaves ++ [tag]) mt' := by
  have start := Climbing.start represents tag
  have init : initHash tag = tag := by rw [initHash, length, Nat.sub_self, List.replicate_zero, List.append_nil]
  have first : (mt.level 0).length < alMaxElems := by
    have bound := level_length (represents.level 0)
    omega
  unfold add
  rw [if_neg (by omega), init]
  dsimp only
  rw [alAdd_eq tag first]
  dsimp only
  rw [represents.elems] at start ⊢
  by_cases one : leaves.length + 1 = 1
  · rw [if_pos one]
    exact ⟨_, rfl, start.finish (by rw [Nat.pow_zero, Nat.div_one]; omega)⟩
  · rw [if_neg one]
    have limit : leaves.length < 2 ^ (0 + treeLevels) := Nat.lt_trans (by omega : _ < alMaxElems) (by decide)
    obtain ⟨mt', l, digest, climbed, top, climbing⟩ := climb_eq start room limit
    rw [Nat.pow_zero, Nat.div_one] at climbed
    rw [Nat.add_sub_cancel, climbed]
    dsimp only
    rw [alGet_eq _ (Nat.lt_of_le_of_lt (climbing.room l) room), if_pos (climbing.placed top)]
    exact ⟨mt', rfl, climbing.finish top⟩

theorem create_represents : Represents sha256 [] create where
  elems := rfl
  level l i := by
    symm
    apply Option.not_isSome_iff_eq_none.mp
    intro there
    rw [Pyramid.joined_eq_node there, node_there] at there
    exact Nat.not_lt_zero _ there
  pairs l i left right one := by
    rw [node_free (Nat.zero_le _)] at one
    cases one

theorem foldlM_eq (digests : List Bytes) (lengths : ∀ digest ∈ digests, digest.length = hashLength)
    (room : digests.length < alMaxElems) :
    ∃ mt, digests.foldlM (add sha256) create = some mt ∧ Represents sha256 digests mt := by
  induction digests using List.reverseRecOn with
  | nil => exact ⟨create, rfl, create_represents⟩
  | append_singleton digests digest ih =>
    rw [List.length_append, List.length_singleton] at room
    obtain ⟨mt, added, represents⟩ := ih (fun d member => lengths d (List.mem_append_left _ member)) (by omega)
    obtain ⟨mt', last, represents'⟩ := add_eq represents (lengths digest (by simp)) room
    refine ⟨mt', ?_, represents'⟩
    rw [List.foldlM_append, added]
    simp [last]

theorem rootLevel_spec (mt : MerkleTree) (rounds l : Nat) (below : l < treeLevels - 1)
    (enough : treeLevels - 1 ≤ l + rounds) (filled : mt.level l ≠ []) :
    mt.level (mt.rootLevel rounds l) ≠ [] ∧ mt.rootLevel rounds l < treeLevels - 1 ∧
      (mt.rootLevel rounds l + 1 < treeLevels - 1 → mt.level (mt.rootLevel rounds l + 1) = []) := by
  induction rounds generalizing l with
  | zero => omega
  | succ rounds ih =>
    unfold rootLevel
    split
    · next more =>
      have parts : l + 1 < treeLevels - 1 ∧ 0 < (mt.level (l + 1)).length := by
        simpa [hasNextLevelExceptRoot] using more
      exact ih (l + 1) parts.1 (by omega) (List.ne_nil_of_length_pos parts.2)
    · next done =>
      refine ⟨filled, below, fun inside => ?_⟩
      by_contra further
      exact done (by simp [hasNextLevelExceptRoot, inside, List.length_pos_iff.mpr further])

/-- The level below the root's: `mt_get_root` never looks at the last one. -/
def rootHeight : Nat := treeLevels - 2

theorem getRoot_eq (represents : Represents sha256 leaves mt) (leaf : leaves ≠ [])
    (room : leaves.length < alMaxElems) :
    mt.getRoot = Pyramid.node (pairHash sha256) (leafOf leaves) rootHeight 0 := by
  have same : mt.level 0 = leaves := List.ext_getElem? (represents.level 0)
  obtain ⟨filled, limit, last⟩ := rootLevel_spec mt treeLevels 0 (by decide) (by decide) (same ▸ leaf)
  unfold getRoot
  generalize mt.rootLevel treeLevels 0 = l at filled limit last ⊢
  rw [alGet_eq _ (Nat.lt_of_le_of_lt (level_length (represents.level l)) room), represents.level]
  have stored : (Pyramid.joined (pairHash sha256) (leafOf leaves) l 0).isSome := by
    rw [← represents.level]
    simp [List.length_pos_iff.mpr filled]
  rw [Pyramid.joined_eq_node stored]
  rw [Pyramid.joined_eq_node stored] at stored
  by_cases top : l = rootHeight
  · rw [top]
  · have inside : l + 1 < treeLevels - 1 := by
      have height : rootHeight = treeLevels - 2 := rfl
      omega
    have free : Pyramid.node (pairHash sha256) (leafOf leaves) l 1 = none := by
      have nothing := represents.level (l + 1) 0
      rw [last inside] at nothing
      cases second : Pyramid.node (pairHash sha256) (leafOf leaves) l 1 with
      | none => rfl
      | some digest =>
        obtain ⟨first, found⟩ := Option.isSome_iff_exists.mp stored
        rw [Pyramid.joined_pair found second] at nothing
        cases nothing
    obtain ⟨more, height⟩ : ∃ more, rootHeight = l + more := ⟨rootHeight - l, by
      have height : rootHeight = treeLevels - 2 := rfl
      omega⟩
    rw [height, Pyramid.node_top free (leafOf_dense leaves)]

end MerkleTree

end Blockchain
