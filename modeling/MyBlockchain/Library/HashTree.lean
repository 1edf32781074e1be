import Mathlib.Data.List.Basic

/-- A binary tree over strings, each leaf with the string it commits to. -/
inductive HashTree (β : Type*) where
  | leaf (entry : List β)
  | node (left right : HashTree β)

namespace HashTree

variable {β : Type*}

/-- Nothing in what is hashed says whether it is a leaf or a node. -/
def digest (hash : List β → List β) : HashTree β → List β
  | leaf entry => hash entry
  | node left right => hash (left.digest hash ++ right.digest hash)

def entries : HashTree β → List (List β)
  | leaf entry => [entry]
  | node left right => left.entries ++ right.entries

def pairs (hash : List β → List β) : HashTree β → List (List β)
  | leaf _ => []
  | node left right => (left.digest hash ++ right.digest hash) :: (left.pairs hash ++ right.pairs hash)

def hashed (hash : List β → List β) (tree : HashTree β) : List (List β) := tree.entries ++ tree.pairs hash

/-- Two different strings, one hashed in each tree, with one hash. -/
def Collide (hash : List β → List β) (tree other : HashTree β) : Prop :=
  ∃ first ∈ tree.hashed hash, ∃ second ∈ other.hashed hash, first ≠ second ∧ hash first = hash second

def Confused (hash : List β → List β) (tree other : HashTree β) : Prop :=
  ∃ entry ∈ tree.entries, entry ∈ other.pairs hash

variable {hash : List β → List β}

theorem Collide.of_parts {tree other outer outer' : HashTree β} (collide : Collide hash tree other)
    (entries : tree.entries ⊆ outer.entries) (pairs : tree.pairs hash ⊆ outer.pairs hash)
    (entries' : other.entries ⊆ outer'.entries) (pairs' : other.pairs hash ⊆ outer'.pairs hash) :
    Collide hash outer outer' := by
  obtain ⟨first, member, second, member', differ, same⟩ := collide
  refine ⟨first, ?_, second, ?_, differ, same⟩
  · exact (List.mem_append.mp member).elim (fun inside => List.mem_append_left _ (entries inside))
      fun inside => List.mem_append_right _ (pairs inside)
  · exact (List.mem_append.mp member').elim (fun inside => List.mem_append_left _ (entries' inside))
      fun inside => List.mem_append_right _ (pairs' inside)

theorem Confused.of_parts {tree other outer outer' : HashTree β} (confused : Confused hash tree other)
    (entries : tree.entries ⊆ outer.entries) (pairs : other.pairs hash ⊆ outer'.pairs hash) :
    Confused hash outer outer' := by
  obtain ⟨entry, member, pair⟩ := confused
  exact ⟨entry, entries member, pairs pair⟩

/-- Hashes of one length bind a tree, up to a collision or a leaf taken for a node. -/
theorem digest_binds {size : Nat} (length : ∀ bytes, (hash bytes).length = size) {tree other : HashTree β}
    (same : tree.digest hash = other.digest hash) :
    tree = other ∨ Collide hash tree other ∨ Confused hash tree other ∨ Confused hash other tree := by
  have digest_length : ∀ tree : HashTree β, (tree.digest hash).length = size := by
    intro tree
    cases tree <;> exact length _
  induction tree generalizing other with
  | leaf entry =>
    cases other with
    | leaf entry' =>
      by_cases equal : entry = entry'
      · exact .inl (congrArg leaf equal)
      · exact .inr (.inl ⟨entry, by simp [hashed, entries], entry', by simp [hashed, entries], equal, same⟩)
    | node left' right' =>
      by_cases equal : entry = left'.digest hash ++ right'.digest hash
      · exact .inr (.inr (.inl ⟨entry, .head _, equal ▸ .head _⟩))
      · exact .inr (.inl ⟨entry, by simp [hashed, entries], _,
          by simp [hashed, pairs], equal, same⟩)
  | node left right ihLeft ihRight =>
    cases other with
    | leaf entry' =>
      by_cases equal : entry' = left.digest hash ++ right.digest hash
      · exact .inr (.inr (.inr ⟨entry', .head _, equal ▸ .head _⟩))
      · exact .inr (.inl ⟨_, by simp [hashed, pairs], entry', by simp [hashed, entries], Ne.symm equal, same⟩)
    | node left' right' =>
      by_cases equal : left.digest hash ++ right.digest hash = left'.digest hash ++ right'.digest hash
      · obtain ⟨sameLeft, sameRight⟩ :=
          List.append_inj equal ((digest_length left).trans (digest_length left').symm)
        have entriesLeft (l r : HashTree β) : l.entries ⊆ (node l r).entries := List.subset_append_left _ _
        have entriesRight (l r : HashTree β) : r.entries ⊆ (node l r).entries := List.subset_append_right _ _
        have pairsLeft (l r : HashTree β) : l.pairs hash ⊆ (node l r).pairs hash :=
          List.subset_cons_of_subset _ (List.subset_append_left _ _)
        have pairsRight (l r : HashTree β) : r.pairs hash ⊆ (node l r).pairs hash :=
          List.subset_cons_of_subset _ (List.subset_append_right _ _)
        rcases ihLeft sameLeft with equalLeft | collide | confused | confused
        · rcases ihRight sameRight with equalRight | collide | confused | confused
          · exact .inl (by rw [equalLeft, equalRight])
          · exact .inr (.inl (collide.of_parts (entriesRight _ _) (pairsRight _ _) (entriesRight _ _) (pairsRight _ _)))
          · exact .inr (.inr (.inl (confused.of_parts (entriesRight _ _) (pairsRight _ _))))
          · exact .inr (.inr (.inr (confused.of_parts (entriesRight _ _) (pairsRight _ _))))
        · exact .inr (.inl (collide.of_parts (entriesLeft _ _) (pairsLeft _ _) (entriesLeft _ _) (pairsLeft _ _)))
        · exact .inr (.inr (.inl (confused.of_parts (entriesLeft _ _) (pairsLeft _ _))))
        · exact .inr (.inr (.inr (confused.of_parts (entriesLeft _ _) (pairsLeft _ _))))
      · exact .inr (.inl ⟨_, by simp [hashed, pairs], _, by simp [hashed, pairs], equal, same⟩)

end HashTree
