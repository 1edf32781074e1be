import Mathlib.Data.List.Basic

namespace Base64

/-- The number that digits make, the highest one first. -/
def number (base : Nat) (digits : List Nat) : Nat := digits.foldl (fun number digit => number * base + digit) 0

def digits (base : Nat) : Nat → Nat → List Nat
  | 0, _ => []
  | count + 1, number => digits base count (number / base) ++ [number % base]

/-- Three bytes are four sextets; with fewer bytes the rest counts as zero, and its sextets are left out. -/
def sextets (bytes : List Nat) : List Nat :=
  (digits 64 4 (number 256 (bytes ++ List.replicate (3 - bytes.length) 0))).take (bytes.length + 1)

def octets (values : List Nat) : List Nat :=
  (digits 256 3 (number 64 (values ++ List.replicate (4 - values.length) 0))).take (values.length - 1)

variable {α : Type*}

def encode (character : Nat → α) (filler : Nat → List α) : List Nat → List α
  | a :: b :: c :: rest => (sextets [a, b, c]).map character ++ encode character filler rest
  | [a, b] => (sextets [a, b]).map character ++ filler 1
  | [a] => (sextets [a]).map character ++ filler 2
  | [] => []

def values (value : α → Option Nat) (pads : α → Bool) : List α → Option (List Nat)
  | first :: second :: rest => do
    let first ← value first
    let second ← value second
    let rest ← (rest.takeWhile fun character => !pads character).mapM value
    return first :: second :: rest
  | _ => none

def decode (value : α → Option Nat) (pads : α → Bool) : List α → Option (List Nat)
  | a :: b :: c :: d :: rest => do
    let group ← values value pads [a, b, c, d]
    let later ← decode value pads rest
    return octets group ++ later
  | [] => some []
  | last => (values value pads last).map octets

section Groups

variable {a b c v w x y : Nat}

theorem sextets_one (a : Nat) : sextets [a] = [a / 4 % 64, a % 4 * 16] := by
  simp only [sextets, number, digits, List.length_cons, List.length_nil, List.replicate, List.cons_append,
    List.nil_append, List.foldl_cons, List.foldl_nil,
    List.take_succ_cons, List.take_zero]
  refine List.cons_eq_cons.mpr ⟨by omega, List.cons_eq_cons.mpr ⟨by omega, rfl⟩⟩

theorem sextets_two (byte : b < 256) : sextets [a, b] = [a / 4 % 64, a % 4 * 16 + b / 16, b % 16 * 4] := by
  simp only [sextets, number, digits, List.length_cons, List.length_nil, List.replicate, List.cons_append,
    List.nil_append, List.foldl_cons, List.foldl_nil,
    List.take_succ_cons, List.take_zero]
  refine List.cons_eq_cons.mpr ⟨by omega, List.cons_eq_cons.mpr ⟨by omega, List.cons_eq_cons.mpr ⟨by omega, rfl⟩⟩⟩

theorem sextets_three (byte : b < 256) (byte' : c < 256) :
    sextets [a, b, c] = [a / 4 % 64, a % 4 * 16 + b / 16, b % 16 * 4 + c / 64, c % 64] := by
  simp only [sextets, number, digits, List.length_cons, List.length_nil, Nat.zero_add, Nat.reduceAdd, Nat.reduceSub,
    List.replicate, List.cons_append, List.nil_append, List.append_nil, List.foldl_cons, List.foldl_nil,
    List.take_succ_cons, List.take_zero]
  refine List.cons_eq_cons.mpr ⟨by omega, List.cons_eq_cons.mpr ⟨by omega, List.cons_eq_cons.mpr ⟨by omega, ?_⟩⟩⟩
  exact List.cons_eq_cons.mpr ⟨by omega, rfl⟩

theorem octets_two (v w : Nat) : octets [v, w] = [(v * 4 + w / 16) % 256] := by
  simp only [octets, number, digits, List.length_cons, List.length_nil, List.replicate, List.cons_append,
    List.nil_append, List.foldl_cons, List.foldl_nil,
    List.take_succ_cons, List.take_zero]
  exact List.cons_eq_cons.mpr ⟨by omega, rfl⟩

theorem octets_three (sextet : x < 64) :
    octets [v, w, x] = [(v * 4 + w / 16) % 256, w % 16 * 16 + x / 4] := by
  simp only [octets, number, digits, List.length_cons, List.length_nil, List.replicate, List.cons_append,
    List.nil_append, List.foldl_cons, List.foldl_nil,
    List.take_succ_cons, List.take_zero]
  refine List.cons_eq_cons.mpr ⟨by omega, List.cons_eq_cons.mpr ⟨by omega, rfl⟩⟩

theorem octets_four (sextet : x < 64) (sextet' : y < 64) :
    octets [v, w, x, y] = [(v * 4 + w / 16) % 256, w % 16 * 16 + x / 4, x % 4 * 64 + y] := by
  simp only [octets, number, digits, List.length_cons, List.length_nil, Nat.zero_add, Nat.reduceAdd, Nat.reduceSub,
    List.replicate, List.cons_append, List.nil_append, List.append_nil, List.foldl_cons, List.foldl_nil,
    List.take_succ_cons, List.take_zero]
  refine List.cons_eq_cons.mpr ⟨by omega, List.cons_eq_cons.mpr ⟨by omega, List.cons_eq_cons.mpr ⟨by omega, rfl⟩⟩⟩

theorem octets_sextets {bytes : List Nat} (small : ∀ byte ∈ bytes, byte < 256) (some : bytes ≠ [])
    (few : bytes.length ≤ 3) : octets (sextets bytes) = bytes := by
  match bytes with
  | [] => exact absurd rfl some
  | [a] =>
    have first := small a (by simp)
    rw [sextets_one, octets_two]
    exact List.cons_eq_cons.mpr ⟨by omega, rfl⟩
  | [a, b] =>
    have first := small a (by simp)
    have second := small b (by simp)
    rw [sextets_two second, octets_three (by omega)]
    exact List.cons_eq_cons.mpr ⟨by omega, List.cons_eq_cons.mpr ⟨by omega, rfl⟩⟩
  | [a, b, c] =>
    have first := small a (by simp)
    have second := small b (by simp)
    have third := small c (by simp)
    rw [sextets_three second third, octets_four (by omega) (by omega)]
    exact List.cons_eq_cons.mpr ⟨by omega, List.cons_eq_cons.mpr ⟨by omega, List.cons_eq_cons.mpr ⟨by omega, rfl⟩⟩⟩
  | _ :: _ :: _ :: _ :: _ =>
    simp only [List.length_cons] at few
    omega

theorem digits_length (base count number : Nat) : (digits base count number).length = count := by
  induction count generalizing number with
  | zero => rfl
  | succ count ih => rw [digits, List.length_append, ih, List.length_singleton]

theorem digits_lt {base count number digit : Nat} (positive : 0 < base) (member : digit ∈ digits base count number) :
    digit < base := by
  induction count generalizing number with
  | zero => cases member
  | succ count ih =>
    rcases List.mem_append.mp member with high | low
    · exact ih high
    · rw [List.mem_singleton.mp low]
      exact Nat.mod_lt _ positive

theorem sextets_lt {bytes : List Nat} {sextet : Nat} (member : sextet ∈ sextets bytes) : sextet < 64 :=
  digits_lt (by decide) (List.mem_of_mem_take member)

theorem sextets_length {bytes : List Nat} (few : bytes.length ≤ 3) : (sextets bytes).length = bytes.length + 1 := by
  rw [sextets, List.length_take, digits_length]
  omega

end Groups

variable {character : Nat → α} {filler : Nat → List α} {value : α → Option Nat} {pads : α → Bool}

theorem mapM_character (reads : ∀ sextet < 64, value (character sextet) = some sextet) {sextets : List Nat}
    (small : ∀ sextet ∈ sextets, sextet < 64) : (sextets.map character).mapM value = some sextets := by
  induction sextets with
  | nil => rfl
  | cons sextet rest ih =>
    rw [List.map_cons, List.mapM_cons, reads sextet (small sextet (.head _)),
      ih fun later member => small later (.tail _ member)]
    rfl

theorem values_padded {first second : Nat} {rest : List Nat} {padding : List α}
    (reads : ∀ sextet < 64, value (character sextet) = some sextet)
    (plain : ∀ sextet < 64, pads (character sextet) = false) (padded : ∀ filler ∈ padding, pads filler = true)
    (small : ∀ sextet ∈ first :: second :: rest, sextet < 64) :
    values value pads ((first :: second :: rest).map character ++ padding) = some (first :: second :: rest) := by
  have tail : ∀ sextet ∈ rest, sextet < 64 := fun sextet member => small sextet (.tail _ (.tail _ member))
  have front : (rest.map character ++ padding).takeWhile (fun character => !pads character) = rest.map character := by
    rw [List.takeWhile_append_of_pos]
    · cases padding with
      | nil => rw [List.takeWhile_nil, List.append_nil]
      | cons filler others =>
        rw [List.takeWhile_cons, padded filler (.head _)]
        exact List.append_nil _
    · intro text member
      obtain ⟨sextet, inside, rfl⟩ := List.mem_map.mp member
      rw [plain sextet (tail sextet inside)]
      rfl
  rw [List.map_cons, List.map_cons, List.cons_append, List.cons_append, values, front, mapM_character reads tail,
    reads first (small first (.head _)), reads second (small second (.tail _ (.head _)))]
  rfl

theorem decode_full {group rest : List α} (four : group.length = 4) :
    decode value pads (group ++ rest) = (values value pads group).bind fun group =>
      (decode value pads rest).map (octets group ++ ·) := by
  match group with
  | [a, b, c, d] =>
    simp only [List.cons_append, List.nil_append, decode]
    cases values value pads [a, b, c, d] with
    | none => rfl
    | some group => cases decode value pads rest <;> rfl

theorem decode_last {group : List α} (some : group ≠ []) (few : group.length ≤ 4) :
    decode value pads group = (values value pads group).map octets := by
  match group with
  | [] => exact absurd rfl some
  | [a] | [a, b] | [a, b, c] => rfl
  | [a, b, c, d] =>
    rw [← List.append_nil [a, b, c, d], decode_full rfl, List.append_nil]
    cases values value pads [a, b, c, d] with
    | none => rfl
    | some group => exact congrArg Option.some (List.append_nil _)
  | _ :: _ :: _ :: _ :: _ :: _ =>
    simp only [List.length_cons] at few
    omega

theorem values_group (reads : ∀ sextet < 64, value (character sextet) = some sextet)
    (plain : ∀ sextet < 64, pads (character sextet) = false) {bytes : List Nat} {padding : List α}
    (some : bytes ≠ []) (few : bytes.length ≤ 3) (padded : ∀ text ∈ padding, pads text = true) :
    values value pads ((sextets bytes).map character ++ padding) = Option.some (sextets bytes) := by
  have size := sextets_length few
  have small : ∀ sextet ∈ sextets bytes, sextet < 64 := fun _ => sextets_lt
  have positive := List.length_pos_iff.mpr some
  match form : sextets bytes with
  | [] | [_] =>
    rw [form] at size
    simp only [List.length_cons, List.length_nil] at size
    omega
  | first :: second :: rest => exact values_padded reads plain padded (by rwa [form] at small)

theorem decode_group (reads : ∀ sextet < 64, value (character sextet) = some sextet)
    (plain : ∀ sextet < 64, pads (character sextet) = false) {bytes : List Nat} {padding : List α}
    (some : bytes ≠ []) (small : ∀ byte ∈ bytes, byte < 256) (padded : ∀ text ∈ padding, pads text = true)
    (short : padding.length + bytes.length ≤ 3) :
    decode value pads ((sextets bytes).map character ++ padding) = Option.some bytes := by
  have few : bytes.length ≤ 3 := by omega
  have size := sextets_length few
  have positive := List.length_pos_iff.mpr some
  rw [decode_last, values_group reads plain some few padded, Option.map_some, octets_sextets small some few]
  · refine List.append_ne_nil_of_left_ne_nil ?_ _
    rw [← List.length_pos_iff, List.length_map]
    omega
  · rw [List.length_append, List.length_map]
    omega

/-- What stands for missing bytes at the end may be left out, or be shorter than it could. -/
theorem decode_encode (reads : ∀ sextet < 64, value (character sextet) = some sextet)
    (plain : ∀ sextet < 64, pads (character sextet) = false)
    (padded : ∀ missing, ∀ text ∈ filler missing, pads text = true)
    (short : ∀ missing, (filler missing).length ≤ missing) {bytes : List Nat} (small : ∀ byte ∈ bytes, byte < 256) :
    decode value pads (encode character filler bytes) = some bytes := by
  fun_induction encode character filler bytes with
  | case1 a b c rest ih =>
    have group : ∀ byte ∈ [a, b, c], byte < 256 := fun byte member => small byte (by simp at member ⊢; tauto)
    have read := @values_group _ _ _ _ reads plain [a, b, c] [] (by simp) (by simp) (by simp)
    rw [List.append_nil] at read
    rw [decode_full (by rw [List.length_map, sextets_length (by simp)]; rfl), read,
      ih fun byte member => small byte (.tail _ (.tail _ (.tail _ member)))]
    simp only [Option.bind_some, Option.map_some, octets_sextets group (by simp) (by simp)]
    rfl
  | case2 a b =>
    exact decode_group reads plain (by simp) small (padded 1) (Nat.add_le_add_right (short 1) 2)
  | case3 a =>
    exact decode_group reads plain (by simp) small (padded 2) (Nat.add_le_add_right (short 2) 1)
  | case4 => rfl

theorem encode_mem {bytes : List Nat} {text : α} (member : text ∈ encode character filler bytes) :
    (∃ sextet < 64, text = character sextet) ∨ ∃ missing, text ∈ filler missing := by
  have group {bytes : List Nat} (member : text ∈ (sextets bytes).map character) :
      ∃ sextet < 64, text = character sextet := by
    obtain ⟨sextet, inside, same⟩ := List.mem_map.mp member
    exact ⟨sextet, sextets_lt inside, same.symm⟩
  fun_induction encode character filler bytes with
  | case1 a b c rest ih =>
    rcases List.mem_append.mp member with first | later
    · exact .inl (group first)
    · exact ih later
  | case2 a b | case3 a =>
    rcases List.mem_append.mp member with first | padding
    · exact .inl (group first)
    · exact .inr ⟨_, padding⟩
  | case4 => cases member

theorem encode_filter (plain : ∀ sextet < 64, pads (character sextet) = false)
    (padded : ∀ missing, ∀ text ∈ filler missing, pads text = true) (bytes : List Nat) :
    (encode character filler bytes).filter (fun text => !pads text) = encode character (fun _ => []) bytes := by
  have group (bytes : List Nat) :
      ((sextets bytes).map character).filter (fun text => !pads text) = (sextets bytes).map character := by
    refine List.filter_eq_self.mpr fun text member => ?_
    obtain ⟨sextet, inside, rfl⟩ := List.mem_map.mp member
    rw [plain sextet (sextets_lt inside)]
    rfl
  have none (missing : Nat) : (filler missing).filter (fun text => !pads text) = [] := by
    refine List.filter_eq_nil_iff.mpr fun text member => ?_
    simp [padded missing text member]
  fun_induction encode character filler bytes with
  | case1 a b c rest ih => rw [List.filter_append, group, ih, encode]
  | case2 a b | case3 a => rw [List.filter_append, group, none, encode]
  | case4 => rfl

theorem decode_step {text : List α} (some : text ≠ []) :
    decode value pads text = (values value pads (text.take 4)).bind fun group =>
      (decode value pads (text.drop 4)).map (octets group ++ ·) := by
  by_cases few : text.length ≤ 4
  · rw [decode_last some few, List.take_of_length_le few, List.drop_eq_nil_of_le few]
    cases values value pads text with
    | none => rfl
    | some group => exact congrArg Option.some (List.append_nil _).symm
  · rw [← decode_full (by rw [List.length_take]; omega), List.take_append_drop]

theorem decode_append {text : List α} (whole : 4 ∣ text.length) (later : List α) :
    decode value pads (text ++ later) =
      (decode value pads text).bind fun bytes => (decode value pads later).map (bytes ++ ·) := by
  obtain ⟨groups, size⟩ := whole
  induction groups generalizing text with
  | zero =>
    obtain rfl := List.eq_nil_of_length_eq_zero size
    rw [List.nil_append, decode, Option.bind_some]
    cases decode value pads later <;> rfl
  | succ groups ih =>
    have split := List.take_append_drop 4 text
    have four : (text.take 4).length = 4 := by rw [List.length_take]; omega
    have rest := @ih (text.drop 4) (by rw [List.length_drop]; omega)
    rw [← split, List.append_assoc, decode_full four, decode_full four, rest]
    cases values value pads (text.take 4) with
    | none => rfl
    | some group =>
      cases decode value pads (text.drop 4) with
      | none => rfl
      | some bytes =>
        cases decode value pads later with
        | none => rfl
        | some more => exact congrArg Option.some (List.append_assoc ..).symm

theorem decode_isSome {text : List α} : (decode value pads text).isSome ↔
    ∀ group, 4 * group < text.length → (values value pads ((text.drop (4 * group)).take 4)).isSome := by
  induction size : text.length using Nat.strongRecOn generalizing text with
  | ind size ih =>
    subst size
    by_cases none : text = []
    · subst none
      exact iff_of_true rfl fun _ inside => absurd inside (Nat.not_lt_zero _)
    · have positive := List.length_pos_iff.mpr none
      have rest := @ih (text.drop 4).length (by rw [List.length_drop]; omega) (text.drop 4) rfl
      have joined : (decode value pads text).isSome ↔
          (values value pads (text.take 4)).isSome ∧ (decode value pads (text.drop 4)).isSome := by
        rw [decode_step none]
        cases values value pads (text.take 4) <;> cases decode value pads (text.drop 4) <;> simp
      rw [joined, rest]
      constructor
      · rintro ⟨first, later⟩ group inside
        cases group with
        | zero => exact first
        | succ group =>
          have here := later group (by rw [List.length_drop]; omega)
          rwa [List.drop_drop, Nat.add_comm, ← Nat.mul_succ] at here
      · intro all
        refine ⟨all 0 positive, fun group inside => ?_⟩
        rw [List.length_drop] at inside
        have here := all (group + 1) (by omega)
        rwa [List.drop_drop, Nat.add_comm, ← Nat.mul_succ]

end Base64
