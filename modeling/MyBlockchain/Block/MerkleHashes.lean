import MyBlockchain.Block.MerkleCalls
import MyBlockchain.Common.SHA256HelperRefinement

namespace Blockchain.MerkleTree

def Pair (input : Bytes) : Prop :=
  ∃ left right : Bytes, left.length = hashLength ∧ right.length = hashLength ∧ input = left ++ right

structure Sized (mt : MerkleTree) : Prop where
  nodes : ∀ l, ∀ node ∈ mt.level l, node.length = hashLength
  pairs : ∀ input ∈ mt.hashed, Pair input

variable {sha256 : Bytes → Bytes} {mt after : MerkleTree} {list next : List Bytes} {hash node : Bytes} {offset : Nat}

theorem alGet_mem (found : alGet list offset = some node) : node ∈ list := by
  unfold alGet at found
  split at found
  · cases found
  · exact List.mem_of_getElem? found

theorem alAdd_mem (added : alAdd list hash = some next) (member : node ∈ next) : node ∈ list ∨ node = hash := by
  unfold alAdd at added
  split at added
  · cases added
  · split at added <;> cases added
    simpa using member

theorem alUpdate_mem (updated : alUpdate list hash offset = some next) (member : node ∈ next) :
    node ∈ list ∨ node = hash := by
  unfold alUpdate at updated
  split at updated
  · cases updated
  · split at updated <;> cases updated
    exact List.mem_or_eq_of_mem_set member

theorem alAddOrUpdate_mem (set : alAddOrUpdate list hash offset = some next) (member : node ∈ next) :
    node ∈ list ∨ node = hash := by
  unfold alAddOrUpdate at set
  split at set
  · cases set
  · split at set
    · cases set
    · split at set
      · exact alAdd_mem set member
      · exact alUpdate_mem set member

theorem alUpdateIfExists_mem (updated : alUpdateIfExists list hash offset = some next) (member : node ∈ next) :
    node ∈ list ∨ node = hash := by
  unfold alUpdateIfExists at updated
  split at updated
  · cases updated
  · split at updated <;> cases updated
    · exact .inl member
    · exact List.mem_or_eq_of_mem_set member

theorem Sized.set (sized : Sized mt) {l : Nat} (size : hash.length = hashLength)
    (from_ : ∀ node ∈ next, node ∈ mt.level l ∨ node = hash) {elems : Nat} {hashed : List Bytes}
    (pairs : ∀ input ∈ hashed, Pair input) :
    Sized { elems, level := Function.update mt.level l next, hashed := mt.hashed ++ hashed } where
  nodes l' node member := by
    dsimp only at member
    by_cases same : l' = l
    · subst same
      rw [Function.update_self] at member
      rcases from_ node member with old | rfl
      · exact sized.nodes l' node old
      · exact size
    · rw [Function.update_of_ne same] at member
      exact sized.nodes l' node member
  pairs input member := by
    rcases List.mem_append.mp member with old | new
    · exact sized.pairs input old
    · exact pairs input new

theorem climb_sized (whole : ∀ input, (sha256 input).length = hashLength) {rounds q l : Nat} {digest : Bytes}
    {result : MerkleTree × Nat × Nat × Bytes} (climbed : climb sha256 rounds mt q l digest = some result)
    (sized : Sized mt) (size : digest.length = hashLength) : Sized result.1 := by
  induction rounds generalizing mt q l digest with
  | zero =>
    cases climbed
    exact sized
  | succ rounds ih =>
    unfold climb at climbed
    split at climbed
    · cases climbed
      exact sized
    · split at climbed
      · split at climbed
        · cases climbed
        · rename_i left found
          dsimp only at climbed
          split at climbed
          · cases climbed
          · rename_i next set
            have pair : Pair (left ++ digest) := ⟨left, digest, sized.nodes l left (alGet_mem found), size, rfl⟩
            refine ih climbed ?_ (whole _)
            exact sized.set (whole _) (fun node => alAddOrUpdate_mem set) fun input member => by
              rwa [List.mem_singleton.mp member]
      · exact ih climbed sized size

theorem add_sized (whole : ∀ input, (sha256 input).length = hashLength) {tag : Bytes}
    (added : add sha256 mt tag = some after) (sized : Sized mt) : Sized after := by
  unfold add at added
  split at added
  · cases added
  · rename_i short
    dsimp only at added
    split at added
    · cases added
    · rename_i leaves appended
      have size := initHash_length tag (Nat.le_of_not_lt short)
      have leaf := @Sized.set mt leaves (initHash tag) sized 0 size (fun node => alAdd_mem appended) (mt.elems + 1) []
        fun _ none => by cases none
      rw [List.append_nil] at leaf
      split at added
      · cases added
        exact leaf
      · split at added
        · cases added
        · rename_i result climbed
          split at added <;> cases added
          exact climb_sized whole climbed leaf size

theorem findRightNeighbor_mem {l : Nat} (found : mt.findRightNeighbor l offset = some (some node)) :
    ∃ l', node ∈ mt.level l' := by
  induction l generalizing offset with
  | zero =>
    unfold findRightNeighbor at found
    split at found
    · obtain ⟨stored, got, same⟩ := Option.map_eq_some_iff.mp found
      cases same
      exact ⟨0, alGet_mem got⟩
    · cases found
  | succ l ih =>
    unfold findRightNeighbor at found
    split at found
    · obtain ⟨stored, got, same⟩ := Option.map_eq_some_iff.mp found
      cases same
      exact ⟨l + 1, alGet_mem got⟩
    · exact ih found

theorem pathStep_sized (whole : ∀ input, (sha256 input).length = hashLength) {q l : Nat} {digest above : Bytes}
    {hashed : List Bytes} (stepped : pathStep sha256 mt q l digest = some (above, hashed)) (sized : Sized mt)
    (size : digest.length = hashLength) : above.length = hashLength ∧ ∀ input ∈ hashed, Pair input := by
  unfold pathStep at stepped
  split at stepped
  · split at stepped <;> cases stepped
    rename_i left found
    refine ⟨whole _, fun input member => ?_⟩
    rw [List.mem_singleton.mp member]
    exact ⟨left, digest, sized.nodes l left (alGet_mem found), size, rfl⟩
  · split at stepped <;> cases stepped
    · exact ⟨size, fun _ none => by cases none⟩
    · rename_i right found
      obtain ⟨l', stored⟩ := findRightNeighbor_mem found
      refine ⟨whole _, fun input member => ?_⟩
      rw [List.mem_singleton.mp member]
      exact ⟨digest, right, size, sized.nodes l' right stored, rfl⟩

theorem verifyLoop_sized (whole : ∀ input, (sha256 input).length = hashLength) {rounds q l : Nat} {digest : Bytes}
    {hashed : List Bytes} {result : Nat × Nat × Bytes × List Bytes}
    (looped : verifyLoop sha256 mt rounds q l digest hashed = some result) (sized : Sized mt)
    (size : digest.length = hashLength) (pairs : ∀ input ∈ hashed, Pair input) :
    ∀ input ∈ result.2.2.2, Pair input := by
  induction rounds generalizing q l digest hashed with
  | zero =>
    cases looped
    exact pairs
  | succ rounds ih =>
    unfold verifyLoop at looped
    split at looped
    · split at looped
      · cases looped
      · rename_i above more stepped
        obtain ⟨size', pairs'⟩ := pathStep_sized whole stepped sized size
        refine ih looped size' fun input member => ?_
        rcases List.mem_append.mp member with old | new
        · exact pairs input old
        · exact pairs' input new
    · cases looped
      exact pairs

theorem verify_pairs (whole : ∀ input, (sha256 input).length = hashLength) {tag : Bytes} {code : MtError}
    {hashed : List Bytes} (verified : verify sha256 mt tag offset = some (code, hashed)) (sized : Sized mt) :
    ∀ input ∈ hashed, Pair input := by
  unfold verify at verified
  split at verified
  · cases verified
    exact fun _ none => by cases none
  · rename_i legal
    split at verified
    · cases verified
    · rename_i result looped
      split at verified <;> cases verified
      exact verifyLoop_sized whole looped sized (initHash_length tag (by omega)) fun _ none => by cases none

theorem updateLoop_sized (whole : ∀ input, (sha256 input).length = hashLength) {rounds q l : Nat} {digest : Bytes}
    {result : MerkleTree × Nat × Nat × Bytes} (looped : updateLoop sha256 rounds mt q l digest = some result)
    (sized : Sized mt) (size : digest.length = hashLength) : Sized result.1 := by
  induction rounds generalizing mt q l digest with
  | zero =>
    cases looped
    exact sized
  | succ rounds ih =>
    unfold updateLoop at looped
    split at looped
    · split at looped
      · cases looped
      · rename_i above hashed stepped
        obtain ⟨size', pairs⟩ := pathStep_sized whole stepped sized size
        split at looped
        · cases looped
        · rename_i next set
          exact ih looped (sized.set size' (fun node => alUpdateIfExists_mem set) pairs) size'
    · cases looped
      exact sized

theorem update_sized (whole : ∀ input, (sha256 input).length = hashLength) {tag : Bytes} {code : MtError}
    (updated : update sha256 mt tag offset = some (after, code)) (sized : Sized mt) : Sized after := by
  unfold update at updated
  split at updated
  · cases updated
    exact sized
  · rename_i legal
    have size := initHash_length tag (by omega)
    dsimp only at updated
    split at updated
    · cases updated
    · rename_i leaves set
      have leaf := @Sized.set mt leaves (initHash tag) sized 0 size (fun node => alUpdate_mem set) mt.elems []
        fun _ none => by cases none
      rw [List.append_nil] at leaf
      split at updated
      · cases updated
      · rename_i result looped
        split at updated <;> cases updated
        exact updateLoop_sized whole looped leaf size

theorem onTree_sized (whole : ∀ input, (sha256 input).length = hashLength) {call : TreeCall}
    {answer : MtError × Option Bytes} (called : TreeCall.onTree sha256 mt call = some (after, answer))
    (sized : Sized mt) : Sized after := by
  cases call with
  | add tag =>
    unfold TreeCall.onTree at called
    dsimp only at called
    split at called
    · cases called
      exact sized
    · obtain ⟨mt', added, same⟩ := Option.map_eq_some_iff.mp called
      cases same
      exact add_sized whole added sized
  | update tag offset =>
    obtain ⟨⟨mt', code⟩, updated, same⟩ := Option.map_eq_some_iff.mp called
    cases same
    exact update_sized whole updated sized
  | verify tag offset =>
    obtain ⟨result, -, same⟩ := Option.map_eq_some_iff.mp called
    cases same
    exact sized
  | getRoot =>
    obtain ⟨root, -, same⟩ := Option.map_eq_some_iff.mp called
    cases same
    exact sized

theorem runTree_sized (whole : ∀ input, (sha256 input).length = hashLength) {calls : List TreeCall}
    {answers : List (MtError × Option Bytes)} (ran : TreeCall.runTree sha256 mt calls = some (after, answers))
    (sized : Sized mt) : Sized after := by
  induction calls generalizing mt answers with
  | nil =>
    cases ran
    exact sized
  | cons call calls ih =>
    obtain ⟨⟨mt', answer⟩, called, rest⟩ := Option.bind_eq_some_iff.mp ran
    obtain ⟨⟨mt'', later⟩, went, same⟩ := Option.bind_eq_some_iff.mp rest
    cases same
    exact ih went (onTree_sized whole called sized)

/-- What a tree hashes is what `mt_hash` makes of two nodes of 32 bytes, whatever context it gets from the stack: it
fails for none of them. -/
theorem tree_hashes_never_fail (calls : List TreeCall) (mt : MerkleTree) (answers : List (MtError × Option Bytes))
    (ran : TreeCall.runTree SHA256.digest create calls = some (mt, answers)) (tag : Bytes) (offset : Nat)
    (code : MtError) (hashed : List Bytes) (verified : verify SHA256.digest mt tag offset = some (code, hashed)) :
    ∀ input ∈ mt.hashed ++ hashed, ∃ left right, left.length = hashLength ∧ right.length = hashLength ∧
      input = left ++ right ∧ ∀ ctx, mtHash ctx left right = some (SHA256.digest input) := by
  have sized := runTree_sized SHA256.digest_length ran
    ⟨fun _ _ none => absurd none List.not_mem_nil, fun _ none => absurd none List.not_mem_nil⟩
  intro input member
  have pair : Pair input := by
    rcases List.mem_append.mp member with stored | checked
    · exact sized.pairs input stored
    · exact verify_pairs SHA256.digest_length verified sized input checked
  obtain ⟨left, right, size, size', rfl⟩ := pair
  exact ⟨left, right, size, size', rfl, fun ctx => SHA256.mtHash_eq ctx left right size size'⟩

theorem tree_hashes_two : ∃ mt answers code hashed,
    TreeCall.runTree SHA256.digest create [.add [1], .add [2]] = some (mt, answers) ∧
      verify SHA256.digest mt [2] 1 = some (code, hashed) ∧ hashed.length = 1 ∧
        ∀ input ∈ mt.hashed ++ hashed, ∃ left right, left.length = hashLength ∧ right.length = hashLength ∧
          input = left ++ right ∧ ∀ ctx, mtHash ctx left right = some (SHA256.digest input) := by
  have run : ((TreeCall.runTree SHA256.digest create [.add [1], .add [2]]).bind fun result =>
      (verify SHA256.digest result.1 [2] 1).map fun result => result.2.length) = some 1 := by decide +kernel
  obtain ⟨⟨mt, answers⟩, ran, rest⟩ := Option.bind_eq_some_iff.mp run
  obtain ⟨⟨code, hashed⟩, verified, one⟩ := Option.map_eq_some_iff.mp rest
  exact ⟨mt, answers, code, hashed, ran, verified, one,
    tree_hashes_never_fail _ mt answers ran [2] 1 code hashed verified⟩

end Blockchain.MerkleTree
