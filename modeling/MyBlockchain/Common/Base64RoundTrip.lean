import MyBlockchain.Common.Base64
import MyBlockchain.Library.Base64

namespace Blockchain.Base64Text

open Base64 (sextets octets values)

def character (url : Bool) (sextet : Nat) : UInt8 := (chars url).getD sextet 0

/-- The text that a list of bytes stands for, padded to whole groups of four. -/
def textOf (url : Bool) (bytes : Bytes) : Bytes :=
  Base64.encode (character url) (fun missing => List.replicate missing (trailingChar url)) (bytes.map UInt8.toNat)

theorem posOfChar_character (url : Bool) {sextet : Nat} (small : sextet < 64) :
    posOfChar (character url sextet) = some sextet := by
  have all : ∀ url, ∀ sextet < 64, posOfChar (character url sextet) = some sextet := by decide +kernel
  exact all url sextet small

theorem isTrailing_character (url : Bool) {sextet : Nat} (small : sextet < 64) :
    isTrailing (character url sextet) = false := by
  have all : ∀ url, ∀ sextet < 64, isTrailing (character url sextet) = false := by decide +kernel
  exact all url sextet small

theorem character_ne_newline (url : Bool) {sextet : Nat} (small : sextet < 64) : character url sextet ≠ newline := by
  have all : ∀ url, ∀ sextet < 64, character url sextet ≠ newline := by decide +kernel
  exact all url sextet small

theorem byte_parts (byte : UInt8) :
    ((byte &&& 0xfc) >>> 2).toNat = byte.toNat / 4 ∧ ((byte &&& 0x03) <<< 4).toNat = byte.toNat % 4 * 16 ∧
      ((byte &&& 0xf0) >>> 4).toNat = byte.toNat / 16 ∧ ((byte &&& 0x0f) <<< 2).toNat = byte.toNat % 16 * 4 ∧
      ((byte &&& 0xc0) >>> 6).toNat = byte.toNat / 64 ∧ (byte &&& 0x3f).toNat = byte.toNat % 64 := by
  have all : ∀ number < 256, ∀ byte, byte = UInt8.ofNat number →
      ((byte &&& 0xfc) >>> 2).toNat = number / 4 ∧ ((byte &&& 0x03) <<< 4).toNat = number % 4 * 16 ∧
        ((byte &&& 0xf0) >>> 4).toNat = number / 16 ∧ ((byte &&& 0x0f) <<< 2).toNat = number % 16 * 4 ∧
        ((byte &&& 0xc0) >>> 6).toNat = number / 64 ∧ (byte &&& 0x3f).toNat = number % 64 := by
    simp only [forall_eq]
    decide +kernel
  exact all byte.toNat byte.toNat_lt byte UInt8.ofNat_toNat.symm

theorem position_parts {position : Nat} (small : position < 64) :
    (position &&& 0x30) >>> 4 = position / 16 ∧ (position &&& 0x0f) <<< 4 = position % 16 * 16 ∧
      (position &&& 0x3c) >>> 2 = position / 4 % 16 ∧ (position &&& 0x03) <<< 6 = position % 4 * 64 ∧
        position <<< 2 = position * 4 := by
  have all : ∀ position < 64, (position &&& 0x30) >>> 4 = position / 16 ∧ (position &&& 0x0f) <<< 4 = position % 16 * 16 ∧
      (position &&& 0x3c) >>> 2 = position / 4 % 16 ∧ (position &&& 0x03) <<< 6 = position % 4 * 64 ∧
        position <<< 2 = position * 4 := by decide +kernel
  exact all position small

theorem posOfChar_lt {chr : UInt8} {position : Nat} (read : posOfChar chr = some position) : position < 64 := by
  unfold posOfChar at read
  repeat' split at read
  all_goals cases read
  all_goals omega

section Encode

variable {url : Bool} {bytes rest : Bytes} {pos : Nat}

/-- A round reads the bytes from its position on; the position, a multiple of three, does not wrap within it. -/
theorem encodeRound_drop (fits : bytes.length < 2 ^ 32) (inside : pos < bytes.length) (three : 3 ∣ pos) :
    encodeRound url bytes pos = encodeRound url (bytes.drop pos) 0 := by
  have near : ∀ offset ≤ 2, (pos + offset) % 2 ^ 32 = pos + offset := by
    intro offset small
    refine Nat.mod_eq_of_lt ?_
    omega
  have byte : ∀ offset ≤ 2, bytes.getD ((pos + offset) % 2 ^ 32) 0 = (bytes.drop pos).getD ((0 + offset) % 2 ^ 32) 0 := by
    intro offset small
    rw [near offset small, Nat.mod_eq_of_lt (by omega), List.getD_eq_getElem?_getD, List.getD_eq_getElem?_getD,
      List.getElem?_drop, Nat.zero_add]
  have more : ∀ offset ≤ 2, (pos + offset) % 2 ^ 32 < bytes.length ↔
      (0 + offset) % 2 ^ 32 < (bytes.drop pos).length := by
    intro offset small
    rw [near offset small, Nat.mod_eq_of_lt (by omega), List.length_drop]
    omega
  simp only [encodeRound, byte 0 (by decide), byte 1 (by decide), byte 2 (by decide), more 1 (by decide),
    more 2 (by decide)]

theorem toNat_low {first second : UInt8} (low : first.toNat + second.toNat < 256) :
    (first + second).toNat = first.toNat + second.toNat := by
  rw [UInt8.toNat_add, Nat.mod_eq_of_lt low]

theorem encodeRound_three (a b c : UInt8) (rest : Bytes) :
    encodeRound url (a :: b :: c :: rest) 0 = (sextets [a.toNat, b.toNat, c.toNat]).map (character url) := by
  obtain ⟨first, second, -, -, -, -⟩ := byte_parts a
  obtain ⟨-, -, third, fourth, -, -⟩ := byte_parts b
  obtain ⟨-, -, -, -, fifth, sixth⟩ := byte_parts c
  have bound := a.toNat_lt
  have bound' := b.toNat_lt
  have bound'' := c.toNat_lt
  rw [Base64.sextets_three bound' bound'']
  have middle : (((a &&& 0x03) <<< 4) + ((b &&& 0xf0) >>> 4)).toNat = a.toNat % 4 * 16 + b.toNat / 16 := by
    rw [toNat_low (by omega), second, third]
  have later : (((b &&& 0x0f) <<< 2) + ((c &&& 0xc0) >>> 6)).toNat = b.toNat % 16 * 4 + c.toNat / 64 := by
    rw [toNat_low (by omega), fourth, fifth]
  have whole : a.toNat / 4 % 64 = a.toNat / 4 := by omega
  simp [encodeRound, character, first, middle, later, sixth, whole]

theorem encodeRound_two (a b : UInt8) :
    encodeRound url [a, b] 0 = (sextets [a.toNat, b.toNat]).map (character url) ++ [trailingChar url] := by
  obtain ⟨first, second, -, -, -, -⟩ := byte_parts a
  obtain ⟨-, -, third, fourth, -, -⟩ := byte_parts b
  have bound := a.toNat_lt
  have bound' := b.toNat_lt
  rw [Base64.sextets_two bound']
  have middle : (((a &&& 0x03) <<< 4) + ((b &&& 0xf0) >>> 4)).toNat = a.toNat % 4 * 16 + b.toNat / 16 := by
    rw [toNat_low (by omega), second, third]
  have whole : a.toNat / 4 % 64 = a.toNat / 4 := by omega
  simp [encodeRound, character, first, middle, fourth, whole]

theorem encodeRound_one (a : UInt8) : encodeRound url [a] 0 =
    (sextets [a.toNat]).map (character url) ++ [trailingChar url, trailingChar url] := by
  obtain ⟨first, second, -, -, -, -⟩ := byte_parts a
  have bound := a.toNat_lt
  rw [Base64.sextets_one]
  have whole : a.toNat / 4 % 64 = a.toNat / 4 := by omega
  simp [encodeRound, character, first, second, whole]

theorem encodeRound_textOf {text : Bytes} (some : text ≠ []) :
    encodeRound url text 0 ++ textOf url (text.drop 3) = textOf url text := by
  match text with
  | [] => exact absurd rfl some
  | [a] => rw [encodeRound_one]; rfl
  | [a, b] => rw [encodeRound_two]; rfl
  | a :: b :: c :: rest => rw [encodeRound_three]; rfl

theorem encodeLoop_eq (fits : bytes.length < 2 ^ 32) {rounds : Nat} {ret : Bytes} (three : 3 ∣ pos)
    (enough : bytes.length - pos < rounds) :
    encodeLoop url bytes rounds pos ret = some (ret ++ textOf url (bytes.drop pos)) := by
  induction rounds generalizing pos ret with
  | zero => omega
  | succ rounds ih =>
    rw [encodeLoop]
    split
    · rename_i inside
      have next : (pos + 3) % 2 ^ 32 = pos + 3 := Nat.mod_eq_of_lt (by omega)
      have left : bytes.drop pos ≠ [] := by
        rw [← List.length_pos_iff, List.length_drop]
        omega
      rw [next, ih (by omega) (by omega), encodeRound_drop fits inside three, ← encodeRound_textOf left,
        List.append_assoc, List.drop_drop]
    · rename_i outside
      rw [List.drop_eq_nil_of_le (by omega)]
      exact congrArg some (List.append_nil ret).symm

theorem encodeLoop_stays (wraps : 2 ^ 32 ≤ bytes.length) (rounds : Nat) {ret : Bytes} (small : pos < 2 ^ 32) :
    encodeLoop url bytes rounds pos ret = none := by
  induction rounds generalizing pos ret with
  | zero => rfl
  | succ rounds ih =>
    rw [encodeLoop, if_pos (by omega)]
    exact ih (Nat.mod_lt _ (by decide))

end Encode

section Decode

variable {text : Bytes} {pos : Nat}

theorem decodeRound_drop (inside : pos < text.length) : decodeRound text pos = decodeRound (text.drop pos) 0 := by
  have char : ∀ offset, text.getD (pos + offset) 0 = (text.drop pos).getD (0 + offset) 0 := by
    intro offset
    rw [List.getD_eq_getElem?_getD, List.getD_eq_getElem?_getD, List.getElem?_drop, Nat.zero_add]
  have more : ∀ offset, pos + offset < text.length ↔ 0 + offset < (text.drop pos).length := by
    intro offset
    rw [List.length_drop]
    omega
  simp only [decodeRound, char, more]

def octetBytes (group : List Nat) : Bytes := (octets group).map UInt8.ofNat

theorem ofNat_mod (number : Nat) : UInt8.ofNat (number % 256) = UInt8.ofNat number :=
  UInt8.toNat_inj.mp (by simp)

theorem octetBytes_two {v w : Nat} (sextet : w < 64) :
    octetBytes [v, w] = [UInt8.ofNat ((v <<< 2) + ((w &&& 0x30) >>> 4))] := by
  rw [octetBytes, Base64.octets_two, (position_parts sextet).1, Nat.shiftLeft_eq]
  exact congrArg (fun byte => [byte]) (ofNat_mod _)

theorem octetBytes_three {v w x : Nat} (sextet : w < 64) (sextet' : x < 64) :
    octetBytes [v, w, x] = octetBytes [v, w] ++ [UInt8.ofNat (((w &&& 0x0f) <<< 4) + ((x &&& 0x3c) >>> 2))] := by
  have whole : x / 4 % 16 = x / 4 := by omega
  rw [octetBytes, octetBytes, Base64.octets_two, Base64.octets_three sextet', (position_parts sextet).2.1,
    (position_parts sextet').2.2.1, whole]
  rfl

theorem octetBytes_four {v w x y : Nat} (sextet : x < 64) (sextet' : y < 64) :
    octetBytes [v, w, x, y] = octetBytes [v, w, x] ++ [UInt8.ofNat (((x &&& 0x03) <<< 6) + y)] := by
  rw [octetBytes, octetBytes, Base64.octets_three sextet, Base64.octets_four sextet sextet',
    (position_parts sextet).2.2.2.1]
  rfl

theorem decodeRound_eq (some : text ≠ []) :
    decodeRound text 0 = (values posOfChar isTrailing (text.take 4)).map octetBytes := by
  rcases text with _ | ⟨a, _ | ⟨b, rest⟩⟩
  · exact absurd rfl some
  · rfl
  · cases second : posOfChar b with
    | none => cases first : posOfChar a <;> simp [decodeRound, values, first, second]
    | some w =>
      cases first : posOfChar a with
      | none => simp [decodeRound, values, first, second]
      | some v =>
        have sextet := posOfChar_lt second
        have two := @octetBytes_two v w sextet
        cases rest with
        | nil => simp [decodeRound, values, first, second, two]
        | cons c rest =>
          cases stop : isTrailing c with
          | true => simp [decodeRound, values, first, second, two, stop]
          | false =>
            cases third : posOfChar c with
            | none => simp [decodeRound, values, first, second, stop, third]
            | some x =>
              have sextet' := posOfChar_lt third
              have three := @octetBytes_three v w x sextet sextet'
              cases rest with
              | nil => simp [decodeRound, values, first, second, two, stop, third, three]
              | cons d rest =>
                cases stop' : isTrailing d with
                | true => simp [decodeRound, values, first, second, two, stop, third, three, stop']
                | false =>
                  cases fourth : posOfChar d with
                  | none => simp [decodeRound, values, first, second, stop, third, stop', fourth]
                  | some y =>
                    have four := @octetBytes_four v w x y sextet' (posOfChar_lt fourth)
                    simp [decodeRound, values, first, second, two, stop, third, three, stop', fourth, four]

/-- What the groups of a text stand for, one after the other. -/
def decoded (text : Bytes) : Option Bytes :=
  (Base64.decode posOfChar isTrailing text).map fun bytes => bytes.map UInt8.ofNat

theorem decoded_step (some : text ≠ []) :
    decoded text = (decodeRound text 0).bind fun pushed => (decoded (text.drop 4)).map (pushed ++ ·) := by
  rw [decoded, Base64.decode_step some, decodeRound_eq some]
  cases values posOfChar isTrailing (text.take 4) with
  | none => rfl
  | some group =>
    rw [decoded]
    cases Base64.decode posOfChar isTrailing (text.drop 4) with
    | none => rfl
    | some later => exact congrArg Option.some List.map_append

theorem decodeLoop_eq {rounds : Nat} {ret : Bytes} (enough : text.length ≤ pos + rounds) :
    decodeLoop text rounds pos ret = (decoded (text.drop pos)).map (ret ++ ·) := by
  induction rounds generalizing pos ret with
  | zero =>
    rw [List.drop_eq_nil_of_le (by omega)]
    exact congrArg some (List.append_nil ret).symm
  | succ rounds ih =>
    rw [decodeLoop]
    split
    · rename_i inside
      have left : text.drop pos ≠ [] := by
        rw [← List.length_pos_iff, List.length_drop]
        omega
      rw [decodeRound_drop inside, decoded_step left]
      cases decodeRound (text.drop pos) 0 with
      | none => rfl
      | some pushed =>
        have rest := @ih (pos + 4) (ret ++ pushed) (by omega)
        rw [← List.drop_drop] at rest
        simp only [Option.bind_eq_bind, Option.bind_some, rest, Option.map_map]
        refine congrArg (Option.map · _) ?_
        funext later
        exact List.append_assoc ..
    · rename_i outside
      rw [List.drop_eq_nil_of_le (by omega)]
      exact congrArg some (List.append_nil ret).symm

theorem decode_eq (text : Bytes) : decode text false = decoded text := by
  cases text with
  | nil => rfl
  | cons first rest =>
    have looped := @decodeLoop_eq (first :: rest) 0 (first :: rest).length [] (by omega)
    rw [List.drop_zero] at looped
    change decodeLoop (first :: rest) (first :: rest).length 0 [] = _
    rw [looped]
    exact Option.map_id'

theorem decoded_encode (url : Bool) (bytes : Bytes) {filler : Nat → Bytes}
    (padded : ∀ missing, ∀ text ∈ filler missing, isTrailing text = true)
    (short : ∀ missing, (filler missing).length ≤ missing) :
    decoded (Base64.encode (character url) filler (bytes.map UInt8.toNat)) = some bytes := by
  rw [decoded, Base64.decode_encode (fun _ => posOfChar_character url) (fun _ => isTrailing_character url) padded
    short, Option.map_some, List.map_map]
  · exact congrArg some (List.map_id'' (fun byte => UInt8.ofNat_toNat) bytes)
  · intro byte member
    obtain ⟨byte, -, rfl⟩ := List.mem_map.mp member
    exact byte.toNat_lt

end Decode

theorem trailing_padded (url : Bool) : ∀ missing, ∀ text ∈ List.replicate missing (trailingChar url),
    isTrailing text = true := by
  intro missing text member
  rw [List.eq_of_mem_replicate member]
  cases url <;> rfl

/-- `base64_encode` returns if and only if the length fits into its position, and then with the groups of the bytes in
the alphabet that was asked for. -/
theorem base64_encode_text (bytes : Bytes) (url : Bool) (rounds : Nat) (enough : bytes.length < rounds) :
    encode rounds bytes url = if bytes.length < 2 ^ 32 then some (textOf url bytes) else none := by
  split
  · rename_i fits
    exact encodeLoop_eq fits (Nat.dvd_zero 3) enough
  · rename_i wraps
    exact encodeLoop_stays (Nat.le_of_not_lt wraps) rounds (by decide)

theorem base64_encode_abc : encode 4 [97, 98, 99] false =
    if [97, 98, 99].length < 2 ^ 32 then some (textOf false [97, 98, 99]) else none :=
  base64_encode_text [97, 98, 99] false 4 (by decide)

/-- Decoding gives back what was encoded, in either alphabet and with or without the padding. -/
theorem base64_round_trip (bytes : Bytes) (url : Bool) (fits : bytes.length < 2 ^ 32) :
    ∃ text, (∀ rounds > bytes.length, encode rounds bytes url = some text) ∧ decode text false = some bytes ∧
      decode (text.filter fun chr => !isTrailing chr) false = some bytes := by
  refine ⟨textOf url bytes, fun rounds enough => ?_, ?_, ?_⟩
  · rw [base64_encode_text bytes url rounds enough, if_pos fits]
  · rw [decode_eq]
    exact decoded_encode url bytes (trailing_padded url) fun missing => Nat.le_of_eq List.length_replicate
  · rw [decode_eq, textOf, Base64.encode_filter (fun _ => isTrailing_character url) (trailing_padded url)]
    exact decoded_encode url bytes (fun _ _ none => by cases none) fun _ => Nat.zero_le _

theorem base64_round_trip_abcd : ∃ text,
    (∀ rounds > [97, 98, 99, 100].length, encode rounds [97, 98, 99, 100] true = some text) ∧
      decode text false = some [97, 98, 99, 100] ∧
        decode (text.filter fun chr => !isTrailing chr) false = some [97, 98, 99, 100] :=
  base64_round_trip [97, 98, 99, 100] true (by decide)

section Linebreaks

variable {distance : Nat}

structure Lines (distance : Nat) (text broken : Bytes) (lines : List Bytes) (last : Bytes) : Prop where
  broken : broken = lines.flatMap (· ++ [newline]) ++ last
  text : text = lines.flatten ++ last
  full : ∀ line ∈ lines, line.length = distance
  last : last ≠ [] ∧ last.length ≤ distance

theorem Lines.cons {text broken line last : Bytes} {lines : List Bytes} (rest : Lines distance text broken lines last)
    (size : line.length = distance) :
    Lines distance (line ++ text) (line ++ newline :: broken) (line :: lines) last where
  broken := by simp [rest.broken]
  text := by simp [rest.text]
  full other member := by
    rcases List.mem_cons.mp member with rfl | member
    · exact size
    · exact rest.full other member
  last := rest.last

theorem insertIdx_front (front rest : Bytes) :
    (front ++ rest).insertIdx front.length newline = front ++ newline :: rest := by
  induction front with
  | nil => rfl
  | cons chr front ih => rw [List.cons_append, List.length_cons, List.insertIdx_succ_cons, ih, List.cons_append]

theorem insertLoop_eq (positive : 0 < distance) {rounds : Nat} {front rest : Bytes} (some : rest ≠ [])
    (enough : rest.length < rounds) : ∃ broken lines last, Lines distance rest broken lines last ∧
      insertLoop distance rounds front.length (front ++ rest) = Option.some (front ++ newline :: broken) := by
  induction rounds generalizing front rest with
  | zero => omega
  | succ rounds ih =>
    have left := List.length_pos_iff.mpr some
    rw [insertLoop, if_pos (by rw [List.length_append]; omega), insertIdx_front]
    by_cases more : distance < rest.length
    · have front_length : (front ++ newline :: rest.take distance).length = front.length + (distance + 1) := by
        rw [List.length_append, List.length_cons, List.length_take]
        omega
      have split : front ++ newline :: rest = (front ++ newline :: rest.take distance) ++ rest.drop distance := by
        rw [List.append_assoc, List.cons_append, List.take_append_drop]
      obtain ⟨broken, lines, last, broke, looped⟩ := @ih (front ++ newline :: rest.take distance) (rest.drop distance)
        (by rw [← List.length_pos_iff, List.length_drop]; omega) (by rw [List.length_drop]; omega)
      have size : (rest.take distance).length = distance := by
        rw [List.length_take]
        omega
      refine ⟨rest.take distance ++ newline :: broken, rest.take distance :: lines, last, ?_, ?_⟩
      · have whole := broke.cons size
        rwa [List.take_append_drop] at whole
      · rw [split, ← front_length, looped, List.append_assoc, List.cons_append]
    · refine ⟨rest, [], rest, ⟨rfl, rfl, fun _ none => (List.not_mem_nil none).elim, some, by omega⟩, ?_⟩
      cases rounds with
      | zero => omega
      | succ rounds =>
        rw [insertLoop, if_neg]
        rw [List.length_append, List.length_cons]
        omega

theorem insertLinebreaks_eq (positive : 0 < distance) {rounds : Nat} {text : Bytes} (some : text ≠ [])
    (enough : text.length < rounds) : ∃ broken lines last, Lines distance text broken lines last ∧
      insertLinebreaks rounds text distance = Option.some broken := by
  have size := List.length_pos_iff.mpr some
  rw [insertLinebreaks, if_neg (by omega)]
  by_cases more : distance < text.length
  · have front : (text.take distance).length = distance := by
      rw [List.length_take]
      omega
    obtain ⟨broken, lines, last, broke, looped⟩ := @insertLoop_eq _ positive rounds (text.take distance)
      (text.drop distance) (by rw [← List.length_pos_iff, List.length_drop]; omega) (by rw [List.length_drop]; omega)
    rw [front, List.take_append_drop] at looped
    have whole := broke.cons front
    rw [List.take_append_drop] at whole
    exact ⟨_, _, _, whole, looped⟩
  · refine ⟨text, [], text, ⟨rfl, rfl, fun _ none => (List.not_mem_nil none).elim, some, by omega⟩, ?_⟩
    cases rounds with
    | zero => omega
    | succ rounds => rw [insertLoop, if_neg more]

theorem Lines.filter {text broken last : Bytes} {lines : List Bytes} (broke : Lines distance text broken lines last)
    (plain : ∀ chr ∈ text, chr ≠ newline) : broken.filter (· ≠ newline) = text := by
  obtain ⟨rfl, rfl, full, -⟩ := broke
  have line : ∀ line ∈ lines, (line ++ [newline]).filter (· ≠ newline) = line := by
    intro line member
    have kept : line.filter (· ≠ newline) = line := List.filter_eq_self.mpr fun chr inside =>
      decide_eq_true (plain chr (List.mem_append_left _ (List.mem_flatten.mpr ⟨line, member, inside⟩)))
    rw [List.filter_append, kept]
    exact List.append_nil line
  have kept : last.filter (· ≠ newline) = last := List.filter_eq_self.mpr fun chr inside =>
    decide_eq_true (plain chr (List.mem_append_right _ inside))
  rw [List.filter_append, List.filter_flatMap, kept, List.flatMap_congr line, List.flatMap_id']

theorem textOf_plain (url : Bool) (bytes : Bytes) : ∀ chr ∈ textOf url bytes, chr ≠ newline := by
  intro chr member
  rcases Base64.encode_mem member with ⟨sextet, small, rfl⟩ | ⟨missing, padding⟩
  · exact character_ne_newline url small
  · rw [List.eq_of_mem_replicate padding]
    cases url <;> decide

/-- `base64_encode_pem` and `base64_encode_mime`, with 64 and 76 characters in a line: the lines have that many, but for
a last one with as many or less, and `decode` gives the bytes back if it removes the line breaks. -/
theorem base64_lines_round_trip (lineLength : Nat) (positive : 0 < lineLength) (bytes : Bytes) (some : bytes ≠ [])
    (fits : bytes.length < 2 ^ 32) (rounds : Nat) (enough : bytes.length < rounds)
    (enough' : (textOf false bytes).length < rounds) :
    ∃ broken lines last, encodeWithLineBreaks lineLength rounds bytes = Option.some broken ∧
      Lines lineLength (textOf false bytes) broken lines last ∧ decode broken true = Option.some bytes := by
  have text : textOf false bytes ≠ [] := by
    rw [← List.append_nil (textOf false bytes), ← encodeRound_textOf some, encodeRound]
    simp
  obtain ⟨broken, lines, last, broke, inserted⟩ := insertLinebreaks_eq positive text enough'
  refine ⟨broken, lines, last, ?_, broke, ?_⟩
  · rw [encodeWithLineBreaks, base64_encode_text bytes false rounds enough, if_pos fits]
    exact inserted
  · have removed : decode broken true = decode (broken.filter (· ≠ newline)) false := rfl
    rw [removed, broke.filter (textOf_plain false bytes), decode_eq]
    exact decoded_encode false bytes (trailing_padded false) fun missing => Nat.le_of_eq List.length_replicate

theorem base64_lines_round_trip_five : ∃ broken lines last,
    encodeWithLineBreaks 3 9 [1, 2, 3, 4, 5] = Option.some broken ∧
      Lines 3 (textOf false [1, 2, 3, 4, 5]) broken lines last ∧ decode broken true = Option.some [1, 2, 3, 4, 5] :=
  base64_lines_round_trip 3 (by decide) [1, 2, 3, 4, 5] (by decide) (by decide) 9 (by decide) (by decide)

end Linebreaks

def Readable (group : Bytes) : Prop := (values posOfChar isTrailing group).isSome

/-- `decode` throws for exactly the texts with a group that is not readable, and a text after whole groups, padded or
not, decodes as it does alone. -/
theorem base64_decode_groups (text later : Bytes) :
    ((decode text false).isSome ↔ ∀ group, 4 * group < text.length → Readable ((text.drop (4 * group)).take 4)) ∧
      (4 ∣ text.length → decode (text ++ later) false =
        (decode text false).bind fun bytes => (decode later false).map (bytes ++ ·)) := by
  rw [decode_eq, decode_eq, decode_eq]
  refine ⟨?_, fun whole => ?_⟩
  · rw [decoded, Option.isSome_map]
    exact Base64.decode_isSome
  · rw [decoded, decoded, decoded, Base64.decode_append whole]
    cases Base64.decode posOfChar isTrailing text with
    | none => rfl
    | some bytes =>
      cases Base64.decode posOfChar isTrailing later with
      | none => rfl
      | some more => exact congrArg some List.map_append

end Blockchain.Base64Text
