import MyBlockchain.Block.MerkleUpdates

namespace Blockchain

inductive TreeCall
  | add (tag : Bytes)
  | update (tag : Bytes) (offset : Nat)
  | verify (tag : Bytes) (offset : Nat)
  | getRoot

namespace TreeCall

open MerkleTree

variable (sha256 : Bytes → Bytes)

def onTree (mt : MerkleTree) : TreeCall → Option (MerkleTree × MtError × Option Bytes)
  | add tag =>
    if hashLength < tag.length then some (mt, .illegalParam, none)
    else (MerkleTree.add sha256 mt tag).map fun mt => (mt, .success, none)
  | update tag offset => (MerkleTree.update sha256 mt tag offset).map fun (mt, code) => (mt, code, none)
  | verify tag offset => (MerkleTree.verify sha256 mt tag offset).map fun (code, _) => (mt, code, none)
  | getRoot => mt.getRoot.map fun root => (mt, .success, some root)

def onLeaves (leaves : List Bytes) : TreeCall → Option (List Bytes × MtError × Option Bytes)
  | add tag =>
    if hashLength < tag.length then some (leaves, .illegalParam, none)
    else some (leaves ++ [initHash tag], .success, none)
  | update tag offset =>
    if hashLength < tag.length ∨ leaves.length ≤ offset then some (leaves, .illegalParam, none)
    else some (leaves.set offset (initHash tag), .success, none)
  | verify tag offset =>
    if hashLength < tag.length ∨ leaves.length ≤ offset then some (leaves, .illegalParam, none)
    else if merkleRoot sha256 (leaves.set offset (initHash tag)) = merkleRoot sha256 leaves then
      some (leaves, .success, none)
    else some (leaves, .rootMismatch, none)
  | getRoot => (merkleRoot sha256 leaves).map fun root => (leaves, .success, some root)

/-- A list of calls, up to the first one that ends the program. -/
def runTree : MerkleTree → List TreeCall → Option (MerkleTree × List (MtError × Option Bytes))
  | mt, [] => some (mt, [])
  | mt, next :: calls => do
    let (mt, answer) ← onTree sha256 mt next
    let (mt, later) ← runTree mt calls
    return (mt, answer :: later)

def runLeaves : List Bytes → List TreeCall → Option (List Bytes × List (MtError × Option Bytes))
  | leaves, [] => some (leaves, [])
  | leaves, next :: calls => do
    let (leaves, answer) ← onLeaves sha256 leaves next
    let (leaves, later) ← runLeaves leaves calls
    return (leaves, answer :: later)

def adds : TreeCall → Nat
  | add _ => 1
  | update .. | verify .. | getRoot => 0

end TreeCall

namespace MerkleTree

variable {sha256 : Bytes → Bytes} {leaves : List Bytes} {mt : MerkleTree}

theorem initHash_initHash {tag : Bytes} (short : tag.length ≤ hashLength) : initHash (initHash tag) = initHash tag := by
  have length := initHash_length tag short
  rw [initHash, length, Nat.sub_self, List.replicate_zero, List.append_nil]

theorem add_initHash {tag : Bytes} (short : tag.length ≤ hashLength) (mt : MerkleTree) :
    add sha256 mt tag = add sha256 mt (initHash tag) := by
  have length := initHash_length tag short
  unfold add
  rw [if_neg (Nat.not_lt.mpr short), if_neg (by omega), initHash_initHash short]

theorem getRoot_calls (represents : Represents sha256 leaves mt) (few : leaves.length ≤ 2 ^ rootHeight) :
    mt.getRoot = merkleRoot sha256 leaves := by
  by_cases leaf : leaves = []
  · have same : mt.level 0 = leaves := List.ext_getElem? (represents.level 0)
    have none : merkleRoot sha256 leaves = none := node_free (by rw [leaf]; exact Nat.zero_le _)
    have empty (l : Nat) : mt.level l = [] := by
      apply List.eq_nil_of_length_eq_zero
      have bound := level_length (represents.level l)
      rw [leaf] at bound
      exact Nat.le_zero.mp bound
    rw [none, getRoot, empty]
    rfl
  · exact getRoot_eq represents leaf (Nat.lt_of_le_of_lt few (by decide))

/-- Only `mt_get_root` on an empty tree has no answer: the code copies a root from `NULL` there. -/
theorem onLeaves_eq_none_iff (next : TreeCall) :
    TreeCall.onLeaves sha256 leaves next = none ↔ next = .getRoot ∧ leaves = [] := by
  cases next with
  | add tag =>
    simp only [TreeCall.onLeaves]
    split <;> simp
  | update tag offset =>
    simp only [TreeCall.onLeaves]
    split <;> simp
  | verify tag offset =>
    simp only [TreeCall.onLeaves]
    split
    · simp
    · split <;> simp
  | getRoot =>
    rw [TreeCall.onLeaves, Option.map_eq_none_iff, merkleRoot, ← Option.not_isSome_iff_eq_none, node_there]
    simp

theorem onLeaves_leaves {next : TreeCall} {leaves' : List Bytes} {answer : MtError × Option Bytes}
    (called : TreeCall.onLeaves sha256 leaves next = some (leaves', answer)) :
    leaves' = [] ↔ leaves = [] ∧ ∀ tag, next = .add tag → hashLength < tag.length := by
  cases next with
  | add tag =>
    simp only [TreeCall.onLeaves] at called
    split at called
    · rename_i long
      cases called
      exact (and_iff_left fun other same => (TreeCall.add.inj same) ▸ long).symm
    · rename_i short
      cases called
      exact iff_of_false (by simp) fun both => short (both.2 tag rfl)
  | update tag offset =>
    simp only [TreeCall.onLeaves] at called
    split at called
    · cases called
      simp
    · cases called
      simp
  | verify tag offset =>
    simp only [TreeCall.onLeaves] at called
    split at called
    · cases called
      simp
    · split at called <;> cases called <;> simp
  | getRoot =>
    obtain ⟨root, -, same⟩ := Option.map_eq_some_iff.mp called
    cases same
    simp

theorem runLeaves_eq_none_iff (calls : List TreeCall) :
    TreeCall.runLeaves sha256 leaves calls = none ↔
      leaves = [] ∧ ∃ front rest, calls = front ++ .getRoot :: rest ∧
        ∀ tag, .add tag ∈ front → hashLength < tag.length := by
  induction calls generalizing leaves with
  | nil => simp [TreeCall.runLeaves]
  | cons next calls ih =>
    rw [TreeCall.runLeaves]
    cases called : TreeCall.onLeaves sha256 leaves next with
    | none =>
      obtain ⟨rfl, empty⟩ := (onLeaves_eq_none_iff next).mp called
      exact iff_of_true rfl ⟨empty, [], calls, rfl, fun tag member => by cases member⟩
    | some result =>
      obtain ⟨leaves', answer⟩ := result
      have later : (TreeCall.runLeaves sha256 leaves' calls >>= fun result =>
          (pure (result.1, answer :: result.2) : Option _)) = none ↔ TreeCall.runLeaves sha256 leaves' calls = none := by
        cases TreeCall.runLeaves sha256 leaves' calls <;> simp
      refine later.trans ?_
      rw [ih, onLeaves_leaves called, and_assoc]
      refine and_congr_right fun empty => ?_
      constructor
      · rintro ⟨long, front, rest, rfl, all⟩
        refine ⟨next :: front, rest, rfl, fun tag member => ?_⟩
        rcases List.mem_cons.mp member with same | member
        · exact long tag same.symm
        · exact all tag member
      · rintro ⟨front, rest, same, all⟩
        cases front with
        | nil =>
          obtain ⟨rfl, -⟩ := List.cons.inj same
          rw [(onLeaves_eq_none_iff .getRoot).mpr ⟨rfl, empty⟩] at called
          cases called
        | cons first front =>
          obtain ⟨rfl, tail⟩ := List.cons.inj same
          exact ⟨fun tag first => all tag (first ▸ .head _), front, rest, tail, fun tag member => all tag (.tail _ member)⟩

theorem call_represents (represents : Represents sha256 leaves mt) (next : TreeCall)
    (few : leaves.length + next.adds ≤ 2 ^ rootHeight) :
    match TreeCall.onLeaves sha256 leaves next with
    | none => TreeCall.onTree sha256 mt next = none
    | some (leaves', answer) => ∃ mt', TreeCall.onTree sha256 mt next = some (mt', answer) ∧
        Represents sha256 leaves' mt' ∧ leaves'.length ≤ leaves.length + next.adds := by
  have elems := represents.elems
  cases next with
  | add tag =>
    simp only [TreeCall.onLeaves, TreeCall.onTree]
    by_cases long : hashLength < tag.length
    · rw [if_pos long, if_pos long]
      exact ⟨mt, rfl, represents, Nat.le_succ _⟩
    · rw [if_neg long, if_neg long]
      have short : tag.length ≤ hashLength := Nat.le_of_not_lt long
      have limit : 2 ^ rootHeight < alMaxElems := by decide
      have room : leaves.length + 1 < alMaxElems := by
        simp only [TreeCall.adds] at few
        omega
      obtain ⟨mt', added, represents'⟩ := add_eq represents (initHash_length tag short) room
      rw [add_initHash short, added]
      exact ⟨mt', rfl, represents', Nat.le_of_eq List.length_append⟩
  | update tag offset =>
    simp only [TreeCall.onLeaves, TreeCall.onTree]
    by_cases illegal : hashLength < tag.length ∨ leaves.length ≤ offset
    · rw [if_pos illegal, update, if_pos (by rwa [elems])]
      exact ⟨mt, rfl, represents, Nat.le_refl _⟩
    · rw [if_neg illegal]
      obtain ⟨mt', updated, represents'⟩ := @update_eq _ _ tag _ offset represents few (by omega) (by omega)
      rw [updated]
      exact ⟨mt', rfl, represents', Nat.le_of_eq List.length_set⟩
  | verify tag offset =>
    simp only [TreeCall.onLeaves, TreeCall.onTree]
    by_cases illegal : hashLength < tag.length ∨ leaves.length ≤ offset
    · rw [if_pos illegal, verify, if_pos (by rwa [elems])]
      exact ⟨mt, rfl, represents, Nat.le_refl _⟩
    · rw [if_neg illegal]
      obtain ⟨hashed, verified, -⟩ := @verify_eq _ _ tag _ offset represents few (by omega) (by omega)
      rw [verified]
      by_cases same : merkleRoot sha256 (leaves.set offset (initHash tag)) = merkleRoot sha256 leaves
      · rw [if_pos same, if_pos same]
        exact ⟨mt, rfl, represents, Nat.le_refl _⟩
      · rw [if_neg same, if_neg same]
        exact ⟨mt, rfl, represents, Nat.le_refl _⟩
  | getRoot =>
    simp only [TreeCall.onLeaves, TreeCall.onTree]
    rw [getRoot_calls represents few]
    cases merkleRoot sha256 leaves with
    | none => rfl
    | some root => exact ⟨mt, rfl, represents, Nat.le_refl _⟩

theorem run_represents (represents : Represents sha256 leaves mt) (calls : List TreeCall)
    (few : leaves.length + (calls.map TreeCall.adds).sum ≤ 2 ^ rootHeight) :
    match TreeCall.runLeaves sha256 leaves calls with
    | none => TreeCall.runTree sha256 mt calls = none
    | some (leaves', answers) => ∃ mt', TreeCall.runTree sha256 mt calls = some (mt', answers) ∧
        Represents sha256 leaves' mt' ∧ leaves'.length ≤ leaves.length + (calls.map TreeCall.adds).sum := by
  induction calls generalizing leaves mt with
  | nil => exact ⟨mt, rfl, represents, Nat.le_refl _⟩
  | cons next calls ih =>
    rw [List.map_cons, List.sum_cons] at few ⊢
    have one := call_represents represents next (by omega)
    unfold TreeCall.runLeaves TreeCall.runTree
    cases first : TreeCall.onLeaves sha256 leaves next with
    | none =>
      rw [first] at one
      dsimp only at one
      rw [one]
      rfl
    | some result =>
      obtain ⟨leaves', answer⟩ := result
      rw [first] at one
      obtain ⟨mt', called, represents', bound⟩ := one
      have rest := ih represents' (by omega)
      simp only [called, Option.bind_eq_bind, Option.bind_some]
      cases later : TreeCall.runLeaves sha256 leaves' calls with
      | none =>
        rw [later] at rest
        dsimp only at rest
        rw [rest]
        rfl
      | some result =>
        obtain ⟨leaves'', answers⟩ := result
        rw [later] at rest
        obtain ⟨mt'', ran, represents'', bound'⟩ := rest
        rw [ran]
        exact ⟨mt'', rfl, represents'', Nat.le_trans bound' (by omega)⟩

/-- Every list of calls on a new tree is answered as the list of leaves answers it, legal or not, as long as it adds no
more leaves than the root covers. It has no answers if and only if a root is asked for before there is a leaf. -/
theorem tree_answers_as_leaves (sha256 : Bytes → Bytes) (calls : List TreeCall)
    (few : (calls.map TreeCall.adds).sum ≤ 2 ^ rootHeight) :
    (TreeCall.runTree sha256 create calls).map Prod.snd = (TreeCall.runLeaves sha256 [] calls).map Prod.snd ∧
      (TreeCall.runTree sha256 create calls = none ↔ ∃ front rest, calls = front ++ .getRoot :: rest ∧
        ∀ tag, .add tag ∈ front → hashLength < tag.length) := by
  have run := @run_represents sha256 [] create create_represents calls (by rwa [List.length_nil, Nat.zero_add])
  have same : (TreeCall.runTree sha256 create calls).map Prod.snd = (TreeCall.runLeaves sha256 [] calls).map Prod.snd := by
    cases ran : TreeCall.runLeaves sha256 [] calls with
    | none =>
      rw [ran] at run
      dsimp only at run
      rw [run]
      rfl
    | some result =>
      rw [ran] at run
      obtain ⟨mt, same, -⟩ := run
      rw [same]
      rfl
  refine ⟨same, ?_⟩
  rw [← @Option.map_eq_none_iff _ _ _ Prod.snd, same, Option.map_eq_none_iff, runLeaves_eq_none_iff]
  exact and_iff_right rfl

theorem tree_answers_three :
    (TreeCall.runTree (List.take 32) create
      [.add [1], .add [2], .add [3], .verify [2] 1, .getRoot, .update [7] 0, .verify [1] 0, .update [9] 3]).map Prod.snd =
    (TreeCall.runLeaves (List.take 32) []
      [.add [1], .add [2], .add [3], .verify [2] 1, .getRoot, .update [7] 0, .verify [1] 0, .update [9] 3]).map Prod.snd ∧
    TreeCall.runTree (List.take 32) create [.update [7] 0, .getRoot] = none :=
  ⟨(tree_answers_as_leaves (List.take 32)
      [.add [1], .add [2], .add [3], .verify [2] 1, .getRoot, .update [7] 0, .verify [1] 0, .update [9] 3]
      (by decide)).1,
    (tree_answers_as_leaves (List.take 32) [.update [7] 0, .getRoot] (by decide)).2.mpr
      ⟨[.update [7] 0], [], rfl, by simp⟩⟩

/-- A tag that `mt_verify` accepts at an offset is the leaf that was last put there, or a string that it hashed collides
with one that was hashed for the tree. -/
theorem verify_sound (sha256 : Bytes → Bytes) (calls : List TreeCall)
    (few : (calls.map TreeCall.adds).sum ≤ 2 ^ rootHeight) (mt : MerkleTree) (answers : List (MtError × Option Bytes))
    (ran : TreeCall.runTree sha256 create calls = some (mt, answers)) (tag : Bytes) (offset : Nat) (hashed : List Bytes)
    (accepted : verify sha256 mt tag offset = some (.success, hashed)) :
    ∃ leaves, (TreeCall.runLeaves sha256 [] calls).map Prod.fst = some leaves ∧
      (leaves[offset]? = some (initHash tag) ∨
        ∃ pair ∈ mt.hashed, ∃ pair' ∈ hashed, pair ≠ pair' ∧ sha256 pair = sha256 pair') := by
  have run := @run_represents sha256 [] create create_represents calls (by rwa [List.length_nil, Nat.zero_add])
  cases last : TreeCall.runLeaves sha256 [] calls with
  | none =>
    rw [last] at run
    dsimp only at run
    rw [run] at ran
    cases ran
  | some result =>
    obtain ⟨leaves, answers'⟩ := result
    rw [last] at run
    obtain ⟨mt', same, represents, bound⟩ := run
    rw [ran] at same
    obtain ⟨rfl, -⟩ := Prod.mk.inj (Option.some.inj same)
    have few' : leaves.length ≤ 2 ^ rootHeight := by
      rw [List.length_nil, Nat.zero_add] at bound
      exact Nat.le_trans bound few
    have legal : ¬ (hashLength < tag.length ∨ mt.elems ≤ offset) := by
      intro illegal
      rw [verify, if_pos illegal] at accepted
      cases accepted
    rw [represents.elems] at legal
    have inside : offset < leaves.length := by omega
    obtain ⟨hashed', verified, pairs⟩ := @verify_eq _ _ tag _ offset represents few' inside (by omega)
    rw [accepted] at verified
    obtain ⟨code, rfl⟩ := Prod.mk.inj (Option.some.inj verified)
    have root : merkleRoot sha256 (leaves.set offset (initHash tag)) = merkleRoot sha256 leaves := by
      by_contra differ
      rw [if_neg differ] at code
      cases code
    have top : offset / 2 ^ rootHeight = 0 := Nat.div_eq_of_lt (by omega)
    have before : leafOf leaves offset = some leaves[offset] := List.getElem?_eq_getElem inside
    rw [merkleRoot, merkleRoot, leafOf_set inside, ← top] at root
    refine ⟨leaves, rfl, ?_⟩
    rcases Pyramid.node_update_binds (leafOf_dense leaves) before root with equal | collide
    · left
      rw [List.getElem?_eq_getElem inside, equal]
    · right
      obtain ⟨l, lower, left, right, left', right', one, two, one', two', joined, differ⟩ := collide
      rw [← leafOf_set inside] at one two
      refine ⟨left' ++ right', represents.pairs l _ left' right' one' two', left ++ right,
        pairs l lower left right one two, ?_, joined.symm⟩
      intro equal
      rcases differ with ⟨differ, rfl⟩ | ⟨rfl, differ⟩
      · exact differ (List.append_cancel_right equal).symm
      · exact differ (List.append_cancel_left equal).symm

theorem verify_sound_second :
    ∃ mt answers hashed, TreeCall.runTree (List.take 32) create [.add [1], .add [2], .add [3]] = some (mt, answers) ∧
      verify (List.take 32) mt [2] 1 = some (.success, hashed) ∧
      ∃ leaves, (TreeCall.runLeaves (List.take 32) [] [.add [1], .add [2], .add [3]]).map Prod.fst = some leaves ∧
        (leaves[1]? = some (initHash [2]) ∨
          ∃ pair ∈ mt.hashed, ∃ pair' ∈ hashed, pair ≠ pair' ∧ pair.take 32 = pair'.take 32) := by
  refine ⟨_, _, _, rfl, rfl, ?_⟩
  exact verify_sound (List.take 32) [.add [1], .add [2], .add [3]] (by decide) _ _ rfl [2] 1 _ rfl

end MerkleTree

end Blockchain
