import MyBlockchain.Library.Varint

namespace WireFormat

open Varint

/-- The two kinds of fields that strings, numbers and messages are written as. -/
inductive FieldValue
  | varint (value : Nat)
  | delimited (bytes : List UInt8)
  deriving DecidableEq, Repr

abbrev Field := Nat × FieldValue

def writeField : Field → List UInt8
  | (number, .varint value) => encode (8 * number) ++ encode value
  | (number, .delimited bytes) => encode (8 * number + 2) ++ Varint.delimited bytes

/-- The value of a tag of wire type `kind`. -/
def readFieldValue (kind : Nat) (bytes : List UInt8) : Option (FieldValue × List UInt8) :=
  match kind with
  | 0 => (decode bytes.length bytes).map fun (value, rest) => (.varint value, rest)
  | 2 =>
    (decode bytes.length bytes).bind fun (size, rest) =>
      if rest.length < size then none else some (.delimited (rest.take size), rest.drop size)
  | _ => none

def readField (bytes : List UInt8) : Option (Field × List UInt8) :=
  (decode bytes.length bytes).bind fun (tag, rest) =>
    (readFieldValue (tag % 8) rest).map fun (value, rest) => ((tag / 8, value), rest)

/-- All of the bytes, in at most `rounds` fields. -/
def readFields : Nat → List UInt8 → Option (List Field)
  | _, [] => some []
  | 0, _ :: _ => none
  | rounds + 1, byte :: bytes =>
    (readField (byte :: bytes)).bind fun (field, rest) => (readFields rounds rest).map (field :: ·)

def write (fields : List Field) : List UInt8 := fields.flatMap writeField

def read (bytes : List UInt8) : Option (List Field) := readFields bytes.length bytes

theorem decode_front (value : Nat) (rest : List UInt8) :
    decode (encode value ++ rest).length (encode value ++ rest) = some (value, rest) := by
  have positive := encode_length_pos value
  rw [List.length_append]
  refine decode_encode ?_ (by omega) rest
  exact Nat.lt_of_lt_of_le (lt_pow_encode_length value) (Nat.pow_le_pow_right (by decide) (Nat.le_add_right _ _))

theorem readField_writeField (field : Field) (rest : List UInt8) :
    readField (writeField field ++ rest) = some (field, rest) := by
  obtain ⟨number, value⟩ := field
  unfold readField
  cases value with
  | varint value =>
    have kind : 8 * number % 8 = 0 := Nat.mul_mod_right 8 number
    have first : 8 * number / 8 = number := Nat.mul_div_cancel_left number (by decide)
    rw [writeField, List.append_assoc, decode_front, Option.bind_some]
    dsimp only
    rw [kind, first, readFieldValue, decode_front]
    rfl
  | delimited bytes =>
    have kind : (8 * number + 2) % 8 = 2 := Nat.mul_add_mod 8 number 2
    have first : (8 * number + 2) / 8 = number := by omega
    have whole : ¬ (bytes ++ rest).length < bytes.length := by
      rw [List.length_append]
      omega
    rw [writeField, List.append_assoc, decode_front, Option.bind_some]
    dsimp only
    rw [kind, first, readFieldValue, Varint.delimited, List.append_assoc, decode_front, Option.bind_some]
    dsimp only
    rw [if_neg whole, List.take_left, List.drop_left]
    rfl

theorem writeField_length_pos (field : Field) : 0 < (writeField field).length := by
  obtain ⟨number, value⟩ := field
  cases value with
  | varint value | delimited value =>
    rw [writeField, List.length_append]
    exact Nat.add_pos_left (encode_length_pos _) _

theorem writeField_delimited_length {number : Nat} {bytes : List UInt8} (small : number < 128)
    (fits : bytes.length < 128 ^ 5) :
    bytes.length ≤ (writeField (number, .delimited bytes)).length ∧
      (writeField (number, .delimited bytes)).length ≤ bytes.length + 7 := by
  have tag : (encode (8 * number + 2)).length ≤ 2 := encode_length_le (by omega) (by decide)
  have size := encode_length_le fits (by decide)
  have whole : (writeField (number, .delimited bytes)).length =
      (encode (8 * number + 2)).length + ((encode bytes.length).length + bytes.length) := by
    rw [writeField, Varint.delimited, List.length_append, List.length_append]
  omega

theorem readFields_write {fields : List Field} {rounds : Nat} (enough : (write fields).length ≤ rounds) :
    readFields rounds (write fields) = some fields := by
  induction fields generalizing rounds with
  | nil => cases rounds <;> rfl
  | cons field fields ih =>
    have split : write (field :: fields) = writeField field ++ write fields := rfl
    have positive := writeField_length_pos field
    rw [split, List.length_append] at enough
    obtain ⟨byte, bytes, starts⟩ := List.exists_cons_of_length_pos positive
    cases rounds with
    | zero => omega
    | succ rounds =>
      have front := readField_writeField field (write fields)
      rw [starts, List.cons_append] at front
      rw [split, starts, List.cons_append, readFields, front, Option.bind_some]
      dsimp only
      rw [ih (by omega), Option.map_some]

theorem read_write (fields : List Field) : read (write fields) = some fields :=
  readFields_write (Nat.le_refl _)

section Fields

/-- A field is left out when it has its default value. -/
def varintField (number value : Nat) : List Field := if value = 0 then [] else [(number, .varint value)]

def bytesField (number : Nat) (bytes : List UInt8) : List Field :=
  if bytes = [] then [] else [(number, .delimited bytes)]

def repeatedField (number : Nat) (values : List (List UInt8)) : List Field :=
  values.map fun bytes => (number, .delimited bytes)

def varintsOf (number : Nat) (fields : List Field) : List Nat :=
  fields.filterMap fun
    | (other, .varint value) => if other = number then some value else none
    | (_, .delimited _) => none

def bytesOf (number : Nat) (fields : List Field) : List (List UInt8) :=
  fields.filterMap fun
    | (_, .varint _) => none
    | (other, .delimited bytes) => if other = number then some bytes else none

/-- The last one counts. -/
def lastVarint (number : Nat) (fields : List Field) : Nat := (varintsOf number fields).getLast?.getD 0

def lastBytes (number : Nat) (fields : List Field) : List UInt8 := (bytesOf number fields).getLast?.getD []

@[simp] theorem varintsOf_append (number : Nat) (first second : List Field) :
    varintsOf number (first ++ second) = varintsOf number first ++ varintsOf number second :=
  List.filterMap_append

@[simp] theorem bytesOf_append (number : Nat) (first second : List Field) :
    bytesOf number (first ++ second) = bytesOf number first ++ bytesOf number second :=
  List.filterMap_append

@[simp] theorem varintsOf_varintField (number other value : Nat) :
    varintsOf number (varintField other value) =
      if other = number then (if value = 0 then [] else [value]) else [] := by
  unfold varintField
  by_cases zero : value = 0
  · simp [zero, varintsOf]
  · by_cases same : other = number <;> simp [zero, same, varintsOf]

@[simp] theorem varintsOf_bytesField (number other : Nat) (bytes : List UInt8) :
    varintsOf number (bytesField other bytes) = [] := by
  unfold bytesField
  split <;> rfl

@[simp] theorem bytesOf_varintField (number other value : Nat) : bytesOf number (varintField other value) = [] := by
  unfold varintField
  split <;> rfl

@[simp] theorem bytesOf_bytesField (number other : Nat) (bytes : List UInt8) :
    bytesOf number (bytesField other bytes) =
      if other = number then (if bytes = [] then [] else [bytes]) else [] := by
  unfold bytesField
  by_cases empty : bytes = []
  · simp [empty, bytesOf]
  · by_cases same : other = number <;> simp [empty, same, bytesOf]

theorem bytesOf_cons (number other : Nat) (bytes : List UInt8) (fields : List Field) :
    bytesOf number ((other, .delimited bytes) :: fields) =
      if other = number then bytes :: bytesOf number fields else bytesOf number fields := by
  by_cases same : other = number <;> simp [bytesOf, same]

theorem bytesOf_repeatedField (number : Nat) (values : List (List UInt8)) :
    bytesOf number (repeatedField number values) = values := by
  induction values with
  | nil => rfl
  | cons bytes values ih =>
    rw [repeatedField, List.map_cons, bytesOf_cons, if_pos rfl]
    exact congrArg (bytes :: ·) ih

theorem bytesOf_repeatedField_ne {number other : Nat} (differ : other ≠ number) (values : List (List UInt8)) :
    bytesOf number (repeatedField other values) = [] := by
  induction values with
  | nil => rfl
  | cons bytes values ih =>
    rw [repeatedField, List.map_cons, bytesOf_cons, if_neg differ]
    exact ih

theorem varintsOf_repeatedField (number other : Nat) (values : List (List UInt8)) :
    varintsOf number (repeatedField other values) = [] := by
  induction values with
  | nil => rfl
  | cons bytes values ih => exact ih

@[simp] theorem getLastD_varint (value : Nat) : (if value = 0 then [] else [value]).getLast?.getD 0 = value := by
  split
  · next zero => exact zero.symm
  · rfl

@[simp] theorem getLastD_bytes (bytes : List UInt8) :
    (if bytes = [] then [] else [bytes]).getLast?.getD [] = bytes := by
  split
  · next empty => exact empty.symm
  · rfl

end Fields

end WireFormat
