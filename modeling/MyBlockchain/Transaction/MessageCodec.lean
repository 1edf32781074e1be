import MyBlockchain.Library.WireFormat
import MyBlockchain.Transaction.Codec

namespace Blockchain

open WireFormat

def KVRead.toBytes (read : KVRead) : Bytes :=
  write (bytesField 1 read.key ++ (bytesField 3 read.value ++ bytesField 4 read.table))

def KVRead.parse (bytes : Bytes) : Option KVRead :=
  (WireFormat.read bytes).map fun fields =>
    { key := lastBytes 1 fields, value := lastBytes 3 fields, table := lastBytes 4 fields }

def KVWrite.toBytes (kvWrite : KVWrite) : Bytes :=
  write (bytesField 1 kvWrite.table ++ (bytesField 2 kvWrite.key ++
    (varintField 3 kvWrite.isDelete.toNat ++ bytesField 5 kvWrite.value)))

def KVWrite.parse (bytes : Bytes) : Option KVWrite :=
  (read bytes).map fun fields =>
    { table := lastBytes 1 fields, key := lastBytes 2 fields, isDelete := lastVarint 3 fields != 0
      value := lastBytes 5 fields }

def KVRWSet.toBytes (rwSet : KVRWSet) : Bytes :=
  write (repeatedField 1 (rwSet.reads.map KVRead.toBytes) ++ repeatedField 3 (rwSet.writes.map KVWrite.toBytes))

def KVRWSet.parse (bytes : Bytes) : Option KVRWSet := do
  let fields ← read bytes
  let reads ← (bytesOf 1 fields).mapM KVRead.parse
  let writes ← (bytesOf 3 fields).mapM KVWrite.parse
  some { reads, writes }

def TransactionPayload.toBytes (payload : TransactionPayload) : Bytes :=
  write (bytesField 1 payload.header ++ (bytesField 2 payload.payload ++
    (varintField 3 payload.nonce ++ bytesField 4 payload.digest)))

def TransactionPayload.parse (bytes : Bytes) : Option TransactionPayload :=
  (read bytes).map fun fields =>
    { header := lastBytes 1 fields, payload := lastBytes 2 fields, nonce := lastVarint 3 fields
      digest := lastBytes 4 fields }

/-- The messages in the wire format, fields that no modelled code uses left out. -/
def messageCodec : TransactionProto where
  payloadToBytes := TransactionPayload.toBytes
  parsePayload := TransactionPayload.parse
  rwSetToBytes := KVRWSet.toBytes
  parseRWSet := KVRWSet.parse

@[simp] theorem KVRead.parse_toBytes (read : KVRead) : KVRead.parse read.toBytes = some read := by
  rw [KVRead.parse, KVRead.toBytes, read_write, Option.map_some]
  simp [lastBytes]

@[simp] theorem KVWrite.parse_toBytes (kvWrite : KVWrite) : KVWrite.parse kvWrite.toBytes = some kvWrite := by
  rw [KVWrite.parse, KVWrite.toBytes, read_write, Option.map_some]
  cases kvWrite with
  | mk table key isDelete value => cases isDelete <;> simp [lastBytes, lastVarint]

@[simp] theorem TransactionPayload.parse_toBytes (payload : TransactionPayload) :
    TransactionPayload.parse payload.toBytes = some payload := by
  rw [TransactionPayload.parse, TransactionPayload.toBytes, read_write, Option.map_some]
  simp [lastBytes, lastVarint]

theorem mapM_map_of_inverse {α : Type} {toBytes : α → Bytes} {parse : Bytes → Option α}
    (inverse : ∀ value, parse (toBytes value) = some value) (values : List α) :
    (values.map toBytes).mapM parse = some values := by
  induction values with
  | nil => rfl
  | cons value values ih => simp [inverse, ih]

@[simp] theorem KVRWSet.parse_toBytes (rwSet : KVRWSet) : KVRWSet.parse rwSet.toBytes = some rwSet := by
  rw [KVRWSet.parse, KVRWSet.toBytes, read_write, Option.bind_eq_bind, Option.bind_some]
  simp [bytesOf_repeatedField, bytesOf_repeatedField_ne, mapM_map_of_inverse KVRead.parse_toBytes,
    mapM_map_of_inverse KVWrite.parse_toBytes]

theorem messageCodec_lawful : messageCodec.Lawful :=
  ⟨TransactionPayload.parse_toBytes, KVRWSet.parse_toBytes⟩

end Blockchain
