import MyBlockchain.Common.SHA256Helper
import MyBlockchain.Library.Varint

namespace Blockchain

open Varint

/-- The code protobuf generates for the two messages inside a serialized transaction. -/
structure TransactionProto where
  payloadToBytes : TransactionPayload → Bytes
  parsePayload : Bytes → Option TransactionPayload
  rwSetToBytes : KVRWSet → Bytes
  parseRWSet : Bytes → Option KVRWSet

structure TransactionProto.Lawful (proto : TransactionProto) : Prop where
  payload : ∀ payload, proto.parsePayload (proto.payloadToBytes payload) = some payload
  rwSet : ∀ rwSet, proto.parseRWSet (proto.rwSetToBytes rwSet) = some rwSet

/-- `ReadVarint64`: at most ten bytes, of which the bits above the 64th are dropped. -/
def readVarint64 (bytes : Bytes) : Option (Nat × Bytes) :=
  (decode 10 bytes).map fun (value, rest) => (value % 2 ^ 64, rest)

/-- `ReadString`, whose size parameter is an `int`. -/
def readString (size : Nat) (bytes : Bytes) : Option (Bytes × Bytes) :=
  let size := size % 2 ^ 32
  if 2 ^ 31 ≤ size ∨ bytes.length < size then none else some (bytes.splitAt size)

/-- The bytes that an `ArrayInputStream` over a string gives up. Its size parameter is an `int`: a negative one is the
end of the stream. -/
def arrayInputStream (raw : Bytes) : Bytes :=
  let size := raw.length % 2 ^ 32
  if 2 ^ 31 ≤ size then [] else raw.take size

theorem arrayInputStream_of_small {raw : Bytes} (small : raw.length < 2 ^ 31) : arrayInputStream raw = raw := by
  have size : raw.length % 2 ^ 32 = raw.length := Nat.mod_eq_of_lt (by omega)
  unfold arrayInputStream
  dsimp only
  rw [size, if_neg (by omega), List.take_length]

theorem arrayInputStream_prefix (raw : Bytes) : ∃ more, raw = arrayInputStream raw ++ more := by
  unfold arrayInputStream
  dsimp only
  split
  · exact ⟨raw, rfl⟩
  · exact ⟨raw.drop (raw.length % 2 ^ 32), (List.take_append_drop _ _).symm⟩

theorem arrayInputStream_length_lt (raw : Bytes) : (arrayInputStream raw).length < 2 ^ 31 := by
  unfold arrayInputStream
  dsimp only
  split
  · exact Nat.two_pow_pos 31
  · rw [List.length_take]
    omega

theorem readVarint64_encode {value : Nat} (fits : value < 2 ^ 64) (rest : Bytes) :
    readVarint64 (encode value ++ rest) = some (value, rest) := by
  rw [readVarint64, decode_encode (by omega) (by decide)]
  simp only [Option.map_some, Nat.mod_eq_of_lt fits]

theorem readString_append (bytes : Bytes) (fits : bytes.length < 2 ^ 31) (rest : Bytes) :
    readString bytes.length (bytes ++ rest) = some (bytes, rest) := by
  have size : bytes.length % 2 ^ 32 = bytes.length := Nat.mod_eq_of_lt (by omega)
  have enough : ¬ (2 ^ 31 ≤ bytes.length ∨ (bytes ++ rest).length < bytes.length) := by
    rw [List.length_append]
    omega
  simp only [readString, size, if_neg enough, List.splitAt_eq, List.take_left, List.drop_left]

namespace MockTransaction

variable (proto : TransactionProto) (sha256 : Bytes → Bytes)

def serializedFields (transaction : MockTransaction) : Bytes :=
  encode transaction.tid ++ (encode transaction.epoch ++
    (delimited (proto.payloadToBytes transaction.transactionPayload) ++
      delimited (proto.rwSetToBytes transaction.kvrwSet)))

def serializeToString (transaction : MockTransaction) : Bytes × Bool :=
  let transactionRaw := transaction.serializedFields proto
  let (_, hashResult, hashed) := SHA256Helper.hashTo sha256 ⟨[], false, false⟩ transactionRaw
  if hashed then (transactionRaw ++ hashResult, true) else (transactionRaw, false)

/-- Reads into an object. `none` is a failed CHECK; a false result leaves the object filled in part. -/
def deserializeFromString (transaction : MockTransaction) (transactionRaw : Bytes) :
    Option (MockTransaction × Bool) :=
  match readVarint64 (arrayInputStream transactionRaw) with
  | none => some (transaction, false)
  | some (tid, rest) =>
    let transaction := { transaction with tid := tid % 2 ^ 32 }
    match readVarint64 rest with
    | none => some (transaction, false)
    | some (epoch, rest) =>
      let transaction := { transaction with epoch := epoch % 2 ^ 32 }
      match readVarint64 rest with
      | none => some (transaction, false)
      | some (payloadSize, rest) =>
        match readString payloadSize rest with
        | none => some (transaction, false)
        | some (payloadString, rest) =>
          match proto.parsePayload payloadString with
          | none => none
          | some transactionPayload =>
            let transaction := { transaction with transactionPayload }
            match readVarint64 rest with
            | none => some (transaction, false)
            | some (rwSetSize, rest) =>
              match readString rwSetSize rest with
              | none => some (transaction, false)
              | some (rwSetString, rest) =>
                match proto.parseRWSet rwSetString with
                | none => none
                | some kvrwSet =>
                  let transaction := { transaction with kvrwSet }
                  -- the hash is read and not compared
                  match readString 32 rest with
                  | none => some (transaction, false)
                  | some _ => some (transaction, true)

theorem serializeToString_eq (transaction : MockTransaction) :
    transaction.serializeToString proto sha256 =
      (transaction.serializedFields proto ++ sha256 (transaction.serializedFields proto), true) := by
  simp [serializeToString]

end MockTransaction

end Blockchain
