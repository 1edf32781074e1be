import Mathlib.Algebra.Ring.Nat
import Mathlib.Data.List.Basic
import Mathlib.Data.List.Induction

namespace BlockStream

variable {σ β : Type*}

/-- One item goes into the buffer, and a buffer that is full is compressed. -/
def absorb (size : Nat) (compress : σ → List β → σ) (stream : σ × List β) (item : β) : σ × List β :=
  if stream.2.length + 1 = size then (compress stream.1 (stream.2 ++ [item]), [])
  else (stream.1, stream.2 ++ [item])

def absorbAll (size : Nat) (compress : σ → List β → σ) (stream : σ × List β) (items : List β) : σ × List β :=
  items.foldl (absorb size compress) stream

def cut (size : Nat) : Nat → List β → List (List β)
  | 0, _ => []
  | count + 1, items => items.take size :: cut size count (items.drop size)

/-- What is compressed, block after block. -/
def compressed (compress : σ → List β → σ) : σ → List (List β) → List (σ × List β)
  | _, [] => []
  | state, block :: blocks => (state, block) :: compressed compress (compress state block) blocks

variable {size : Nat} {compress : σ → List β → σ}

@[simp] theorem absorbAll_nil (stream : σ × List β) : absorbAll size compress stream [] = stream := rfl

theorem absorbAll_append (stream : σ × List β) (items more : List β) :
    absorbAll size compress stream (items ++ more) =
      absorbAll size compress (absorbAll size compress stream items) more :=
  List.foldl_append ..

theorem absorbAll_cons (stream : σ × List β) (item : β) (items : List β) :
    absorbAll size compress stream (item :: items) =
      absorbAll size compress (absorb size compress stream item) items := rfl

theorem absorb_room {stream : σ × List β} (item : β) (room : stream.2.length + 1 < size) :
    absorb size compress stream item = (stream.1, stream.2 ++ [item]) := if_neg (Nat.ne_of_lt room)

theorem absorb_full {stream : σ × List β} (item : β) (full : stream.2.length + 1 = size) :
    absorb size compress stream item = (compress stream.1 (stream.2 ++ [item]), []) := if_pos full

theorem absorbAll_short {state : σ} {buffer items : List β} (short : buffer.length + items.length < size) :
    absorbAll size compress (state, buffer) items = (state, buffer ++ items) := by
  induction items generalizing buffer with
  | nil => rw [absorbAll_nil, List.append_nil]
  | cons item items ih =>
    rw [List.length_cons] at short
    have room : buffer.length + 1 < size := by omega
    have rest : (buffer ++ [item]).length + items.length < size := by
      rw [List.length_append, List.length_singleton]
      omega
    rw [absorbAll_cons, absorb_room item room, ih rest, List.append_assoc]
    rfl

theorem absorbAll_block {state : σ} {buffer items : List β} (some : items ≠ [])
    (full : buffer.length + items.length = size) :
    absorbAll size compress (state, buffer) items = (compress state (buffer ++ items), []) := by
  obtain ⟨init, last, rfl⟩ : ∃ init last, items = init ++ [last] :=
    ⟨_, _, (List.dropLast_append_getLast some).symm⟩
  rw [List.length_append, List.length_singleton] at full
  have short : buffer.length + init.length < size := by omega
  have complete : (buffer ++ init).length + 1 = size := by
    rw [List.length_append]
    omega
  rw [absorbAll_append, absorbAll_short short, absorbAll_cons, absorbAll_nil, absorb_full last complete,
    List.append_assoc]

theorem absorbAll_blocks (positive : 0 < size) (state : σ) (blocks : List (List β))
    (whole : ∀ block ∈ blocks, block.length = size) :
    absorbAll size compress (state, []) blocks.flatten = (blocks.foldl compress state, []) := by
  induction blocks generalizing state with
  | nil => rfl
  | cons block blocks ih =>
    have first : block.length = size := whole block (List.mem_cons_self ..)
    have filled : block ≠ [] := by
      rintro rfl
      exact absurd first (Nat.ne_of_lt positive)
    have full : ([] : List β).length + block.length = size := by rw [List.length_nil, Nat.zero_add, first]
    rw [List.flatten_cons, absorbAll_append, absorbAll_block filled full, List.nil_append,
      ih _ fun other member => whole other (List.mem_cons_of_mem _ member)]
    rfl

theorem absorbAll_length (positive : 0 < size) {state : σ} {buffer : List β} (items : List β)
    (room : buffer.length < size) :
    (absorbAll size compress (state, buffer) items).2.length = (buffer.length + items.length) % size := by
  induction items generalizing state buffer with
  | nil => exact (Nat.mod_eq_of_lt room).symm
  | cons item items ih =>
    rw [absorbAll_cons, List.length_cons]
    by_cases full : buffer.length + 1 = size
    · rw [absorb_full item full, ih (by exact positive), List.length_nil, Nat.zero_add,
        show buffer.length + (items.length + 1) = items.length + size by omega, Nat.add_mod_right]
    · have short : buffer.length + 1 < size := Nat.lt_of_le_of_ne room full
      rw [absorb_room item short, ih (by rwa [List.length_append]), List.length_append, List.length_singleton,
        Nat.add_assoc, Nat.add_comm 1]

theorem cut_length {count : Nat} {items : List β} (exact : items.length = count * size) :
    ∀ block ∈ cut size count items, block.length = size := by
  induction count generalizing items with
  | zero => nofun
  | succ count ih =>
    rw [Nat.succ_mul] at exact
    have rest : (items.drop size).length = count * size := by
      rw [List.length_drop]
      omega
    intro block member
    rcases List.mem_cons.mp member with rfl | later
    · rw [List.length_take]
      omega
    · exact ih rest block later

theorem cut_flatten {count : Nat} {items : List β} (exact : items.length = count * size) :
    (cut size count items).flatten = items := by
  induction count generalizing items with
  | zero =>
    rw [Nat.zero_mul] at exact
    rw [List.eq_nil_of_length_eq_zero exact]
    rfl
  | succ count ih =>
    rw [Nat.succ_mul] at exact
    have rest : (items.drop size).length = count * size := by
      rw [List.length_drop]
      omega
    rw [cut, List.flatten_cons, ih rest, List.take_append_drop]

theorem cut_count (size count : Nat) (items : List β) : (cut size count items).length = count := by
  induction count generalizing items with
  | zero => rfl
  | succ count ih => rw [cut, List.length_cons, ih]

section FlatMap

variable {γ : Type*} {width : Nat} {image : β → List γ} (uniform : ∀ item, (image item).length = width)

include uniform

theorem length_flatMap (items : List β) : (items.flatMap image).length = items.length * width := by
  induction items with
  | nil => rw [List.flatMap_nil, List.length_nil, List.length_nil, Nat.zero_mul]
  | cons item items ih =>
    rw [List.flatMap_cons, List.length_append, uniform, ih, List.length_cons, Nat.succ_mul, Nat.add_comm]

theorem flatMap_split (items : List β) (n : Nat) :
    (items.flatMap image).take (n * width) = (items.take n).flatMap image ∧
      (items.flatMap image).drop (n * width) = (items.drop n).flatMap image := by
  by_cases inside : n ≤ items.length
  · have front : ((items.take n).flatMap image).length = n * width := by
      rw [length_flatMap uniform, List.length_take, Nat.min_eq_left inside]
    have whole : items.flatMap image = (items.take n).flatMap image ++ (items.drop n).flatMap image := by
      rw [← List.flatMap_append, List.take_append_drop]
    rw [whole, ← front]
    exact ⟨List.take_left' rfl, List.drop_left' rfl⟩
  · have beyond : items.length ≤ n := by omega
    have past : (items.flatMap image).length ≤ n * width := by
      rw [length_flatMap uniform]
      exact Nat.mul_le_mul_right _ beyond
    rw [List.take_of_length_le past, List.drop_of_length_le past, List.take_of_length_le beyond,
      List.drop_of_length_le beyond]
    exact ⟨rfl, rfl⟩

theorem cut_flatMap (size count : Nat) (items : List β) :
    cut (size * width) count (items.flatMap image) = (cut size count items).map (List.flatMap image) := by
  induction count generalizing items with
  | zero => rfl
  | succ count ih =>
    rw [cut, cut, (flatMap_split uniform items size).1, (flatMap_split uniform items size).2, ih, List.map_cons]

end FlatMap

theorem foldl_map_state {τ γ : Type*} {compress' : τ → List γ → τ} (view : σ → τ) (image : List β → List γ)
    {blocks : List (List β)}
    (commutes : ∀ state, ∀ block ∈ blocks, view (compress state block) = compress' (view state) (image block))
    (state : σ) : view (blocks.foldl compress state) = (blocks.map image).foldl compress' (view state) := by
  induction blocks generalizing state with
  | nil => rfl
  | cons block blocks ih =>
    rw [List.foldl_cons, List.map_cons, List.foldl_cons, ← commutes state block (List.mem_cons_self ..)]
    exact ih (fun state other member => commutes state other (List.mem_cons_of_mem _ member)) _

theorem compressed_append (state : σ) (blocks more : List (List β)) :
    compressed compress state (blocks ++ more) =
      compressed compress state blocks ++ compressed compress (blocks.foldl compress state) more := by
  induction blocks generalizing state with
  | nil => rfl
  | cons block blocks ih => rw [List.cons_append, compressed, compressed, ih, List.cons_append, List.foldl_cons]

/-- Two different inputs of the compression, one in each computation, with one result. -/
def Collide (compress : σ → List β → σ) (state : σ) (blocks other : List (List β)) : Prop :=
  ∃ first ∈ compressed compress state blocks, ∃ second ∈ compressed compress state other,
    first ≠ second ∧ compress first.1 first.2 = compress second.1 second.2

theorem Collide.of_init {state : σ} {blocks other more more' : List (List β)}
    (collide : Collide compress state blocks other) : Collide compress state (blocks ++ more) (other ++ more') := by
  obtain ⟨first, member, second, member', differ, same⟩ := collide
  refine ⟨first, ?_, second, ?_, differ, same⟩
  · rw [compressed_append]
    exact List.mem_append_left _ member
  · rw [compressed_append]
    exact List.mem_append_left _ member'

theorem collide_last {state : σ} {blocks other : List (List β)} {block block' : List β}
    (same : (blocks ++ [block]).foldl compress state = (other ++ [block']).foldl compress state)
    (differ : (blocks.foldl compress state, block) ≠ (other.foldl compress state, block')) :
    Collide compress state (blocks ++ [block]) (other ++ [block']) := by
  have last (list : List (List β)) (final : List β) :
      (list.foldl compress state, final) ∈ compressed compress state (list ++ [final]) := by
    rw [compressed_append]
    exact List.mem_append_right _ (List.mem_singleton_self _)
  rw [List.foldl_append, List.foldl_append] at same
  exact ⟨_, last blocks block, _, last other block', differ, same⟩

/-- Where the last block tells how many blocks there are, one result means one message, up to a collision of the
compression. -/
theorem foldl_binds {state : σ} {blocks other : List (List β)}
    (strengthened : blocks.length ≠ other.length → blocks ≠ [] ∧ other ≠ [] ∧ blocks.getLast? ≠ other.getLast?)
    (same : blocks.foldl compress state = other.foldl compress state) :
    blocks = other ∨ Collide compress state blocks other := by
  by_cases size : blocks.length = other.length
  · clear strengthened
    induction blocks using List.reverseRecOn generalizing other with
    | nil => exact .inl (List.eq_nil_of_length_eq_zero size.symm).symm
    | append_singleton blocks block ih =>
      obtain ⟨other, block', rfl⟩ : ∃ init last, other = init ++ [last] := by
        have filled : other ≠ [] := by
          rintro rfl
          simp at size
        exact ⟨_, _, (List.dropLast_append_getLast filled).symm⟩
      by_cases equal : (blocks.foldl compress state, block) = (other.foldl compress state, block')
      · obtain ⟨states, rfl⟩ := Prod.mk.inj equal
        have shorter : blocks.length = other.length := by simpa using size
        rcases ih states shorter with rfl | collide
        · exact .inl rfl
        · exact .inr collide.of_init
      · exact .inr (collide_last same equal)
  · obtain ⟨filled, filled', last⟩ := strengthened size
    right
    rw [← List.dropLast_append_getLast filled, ← List.dropLast_append_getLast filled'] at same ⊢
    apply collide_last same
    intro equal
    apply last
    rw [List.getLast?_eq_some_getLast filled, List.getLast?_eq_some_getLast filled', (Prod.mk.inj equal).2]

end BlockStream
