import MyBlockchain.Transaction.Decoding
import MyBlockchain.Transaction.MessageCodec

namespace Blockchain

open Varint

namespace MockTransaction

variable {proto : TransactionProto} {sha256 : Bytes → Bytes} {transaction : MockTransaction}

structure Fits (proto : TransactionProto) (transaction : MockTransaction) : Prop where
  tid : transaction.tid < 2 ^ 32
  epoch : transaction.epoch < 2 ^ 32
  payload : (proto.payloadToBytes transaction.transactionPayload).length < 2 ^ 31
  rwSet : (proto.rwSetToBytes transaction.kvrwSet).length < 2 ^ 31

def Fits.fields (fits : transaction.Fits proto) : SerializedFields where
  tid := transaction.tid
  epoch := transaction.epoch
  payload := proto.payloadToBytes transaction.transactionPayload
  rwSet := proto.rwSetToBytes transaction.kvrwSet
  tidBytes := encode transaction.tid
  epochBytes := encode transaction.epoch
  payloadSize := encode (proto.payloadToBytes transaction.transactionPayload).length
  rwSetSize := encode (proto.rwSetToBytes transaction.kvrwSet).length
  tidSpells := encode_spells (Nat.lt_trans fits.tid (by decide))
  epochSpells := encode_spells (Nat.lt_trans fits.epoch (by decide))
  payloadSpells := encode_spells (Nat.lt_trans fits.payload (by decide))
  rwSetSpells := encode_spells (Nat.lt_trans fits.rwSet (by decide))
  payloadFits := fits.payload
  rwSetFits := fits.rwSet

theorem Fits.fields_bytes (fits : transaction.Fits proto) :
    fits.fields.bytes = transaction.serializedFields proto := by
  simp only [SerializedFields.bytes, Fits.fields, serializedFields, delimited, List.append_assoc]

theorem SerializedFields.deserialize (fields : SerializedFields) (object : MockTransaction)
    {transactionPayload : TransactionPayload} {kvrwSet : KVRWSet} {hash : Bytes}
    (payload : proto.parsePayload fields.payload = some transactionPayload)
    (rwSet : proto.parseRWSet fields.rwSet = some kvrwSet) (length : hash.length = 32)
    (small : (fields.bytes ++ hash).length < 2 ^ 31) :
    object.deserializeFromString proto (fields.bytes ++ hash) =
      some ({ object with tid := fields.tid % 2 ^ 32, epoch := fields.epoch % 2 ^ 32, transactionPayload, kvrwSet },
        true) := by
  have decoded := deserialize_decoded proto object (fields.bytes ++ hash)
  rw [arrayInputStream_of_small small] at decoded
  obtain ⟨_, tidRead⟩ := fields.readTid_eq hash
  obtain ⟨_, epochRead⟩ := fields.readEpoch_eq hash
  obtain ⟨_, payloadRead⟩ := fields.readPayload_eq hash
  have restored := decoded.of_reads tidRead epochRead payloadRead payload (fields.readRWSet_spells hash) rwSet
  have hashRead := fields.readHash_spells length []
  rw [List.append_nil] at hashRead
  rw [hashRead] at restored
  exact restored

theorem SerializedFields.small_of_readHash (fields : SerializedFields) {hash : Bytes} (length : hash.length = 32)
    (read : (readHash (arrayInputStream (fields.bytes ++ hash))).isSome) : (fields.bytes ++ hash).length < 2 ^ 31 := by
  obtain ⟨more, whole⟩ := arrayInputStream_prefix (fields.bytes ++ hash)
  obtain ⟨⟨found, rest⟩, read⟩ := Option.isSome_iff_exists.mp read
  have longer := readHash_local.append read more
  have exact_ := fields.readHash_spells length []
  rw [← whole] at longer
  rw [List.append_nil, longer] at exact_
  have nothing := (List.append_eq_nil_iff.mp (Prod.mk.inj (Option.some.inj exact_)).2).2
  rw [nothing, List.append_nil] at whole
  rw [whole]
  exact arrayInputStream_length_lt _

theorem restored_iff (lawful : proto.Lawful) (digest : ∀ bytes, (sha256 bytes).length = 32)
    (fits : transaction.Fits proto) (object : MockTransaction) :
    object.deserializeFromString proto (transaction.serializeToString proto sha256).1 =
        some ({ transaction with transactionResult := object.transactionResult }, true) ↔
      (transaction.serializeToString proto sha256).1.length < 2 ^ 31 := by
  have hash := digest (transaction.serializedFields proto)
  rw [serializeToString_eq]
  dsimp only
  rw [← fits.fields_bytes] at hash ⊢
  constructor
  · intro restored
    have decoded := deserialize_decoded proto object (fits.fields.bytes ++ sha256 fits.fields.bytes)
    obtain ⟨_, _, -, -, -, -, read⟩ := decoded.accepted restored
    exact fits.fields.small_of_readHash hash read
  · intro small
    have read := fits.fields.deserialize object (lawful.payload transaction.transactionPayload)
      (lawful.rwSet transaction.kvrwSet) hash small
    have tid : fits.fields.tid % 2 ^ 32 = transaction.tid := Nat.mod_eq_of_lt fits.tid
    have epoch : fits.fields.epoch % 2 ^ 32 = transaction.epoch := Nat.mod_eq_of_lt fits.epoch
    rw [read, tid, epoch]

theorem serialized_length (digest : ∀ bytes, (sha256 bytes).length = 32) :
    (transaction.serializeToString proto sha256).1.length =
      (encode transaction.tid).length + (encode transaction.epoch).length +
        (delimited (proto.payloadToBytes transaction.transactionPayload)).length +
        (delimited (proto.rwSetToBytes transaction.kvrwSet)).length + 32 := by
  rw [serializeToString_eq, serializedFields]
  simp only [List.length_append, digest]
  omega

/-- The round trip works if and only if the string, with its hash, stays below 2 GiB. -/
theorem deserialize_serialize_iff (proto : TransactionProto) (sha256 : Bytes → Bytes) (lawful : proto.Lawful)
    (digest : ∀ bytes, (sha256 bytes).length = 32) (transaction object : MockTransaction)
    (tid : transaction.tid < 2 ^ 32) (epoch : transaction.epoch < 2 ^ 32)
    (payload : (proto.payloadToBytes transaction.transactionPayload).length < 2 ^ 31)
    (rwSet : (proto.rwSetToBytes transaction.kvrwSet).length < 2 ^ 31) :
    ((transaction.serializeToString proto sha256).2 = true ∧
      object.deserializeFromString proto (transaction.serializeToString proto sha256).1 =
        some ({ object with
          tid := transaction.tid
          epoch := transaction.epoch
          transactionPayload := transaction.transactionPayload
          kvrwSet := transaction.kvrwSet }, true)) ↔
      (encode transaction.tid).length + (encode transaction.epoch).length +
        (delimited (proto.payloadToBytes transaction.transactionPayload)).length +
        (delimited (proto.rwSetToBytes transaction.kvrwSet)).length + 32 < 2 ^ 31 := by
  have succeeds : (transaction.serializeToString proto sha256).2 = true := by rw [serializeToString_eq]
  have restored := restored_iff lawful digest ⟨tid, epoch, payload, rwSet⟩ object
  rw [serialized_length digest] at restored
  rw [← restored]
  exact and_iff_right succeeds

section TwoGibibytes

/-- The SHA-256 hash of the bytes 1, 1, 0, 0. -/
def hashOfEmpty : Bytes :=
  [0xa0, 0x45, 0x4a, 0x24, 0xdd, 0x4b, 0xc4, 0x18, 0x44, 0x8c, 0xa1, 0x93, 0x20, 0x51, 0x9e, 0xa3,
    0xfe, 0x54, 0x4f, 0xa1, 0xa9, 0x10, 0x86, 0x8b, 0x62, 0xca, 0x21, 0x06, 0x14, 0xf1, 0x19, 0xf8]

def empty : MockTransaction := { new with tid := 1, epoch := 1 }

def carrying (blob : Bytes) : MockTransaction :=
  { empty with
    transactionPayload := { TransactionPayload.default with payload := blob }
    kvrwSet := { reads := [], writes := [{ table := [], key := [], isDelete := false, value := blob }] } }

theorem deserialize_serialize_iff_carrying :
    (((carrying [1, 2, 3]).serializeToString messageCodec fun _ => hashOfEmpty).2 = true ∧
      new.deserializeFromString messageCodec
          ((carrying [1, 2, 3]).serializeToString messageCodec fun _ => hashOfEmpty).1 =
        some ({ new with
          tid := 1
          epoch := 1
          transactionPayload := (carrying [1, 2, 3]).transactionPayload
          kvrwSet := (carrying [1, 2, 3]).kvrwSet }, true)) ↔
      (encode 1).length + (encode 1).length +
        (delimited (messageCodec.payloadToBytes (carrying [1, 2, 3]).transactionPayload)).length +
        (delimited (messageCodec.rwSetToBytes (carrying [1, 2, 3]).kvrwSet)).length + 32 < 2 ^ 31 :=
  deserialize_serialize_iff messageCodec (fun _ => hashOfEmpty) messageCodec_lawful (fun _ => rfl) (carrying [1, 2, 3])
    new (by decide) (by decide) (by decide) (by decide)

theorem carrying_lengths {blob : Bytes} (length : blob.length = 2 ^ 30) :
    2 ^ 30 ≤ (messageCodec.payloadToBytes (carrying blob).transactionPayload).length ∧
      (messageCodec.payloadToBytes (carrying blob).transactionPayload).length < 2 ^ 31 ∧
      2 ^ 30 ≤ (messageCodec.rwSetToBytes (carrying blob).kvrwSet).length ∧
      (messageCodec.rwSetToBytes (carrying blob).kvrwSet).length < 2 ^ 31 := by
  have nonempty : blob ≠ [] := by
    rintro rfl
    exact absurd length (by decide)
  have payload : messageCodec.payloadToBytes (carrying blob).transactionPayload =
      WireFormat.writeField (2, .delimited blob) := by
    show WireFormat.write ([] ++ (WireFormat.bytesField 2 blob ++ ([] ++ []))) = _
    rw [WireFormat.bytesField, if_neg nonempty]
    exact List.append_nil _
  have value : (carrying blob).kvrwSet.writes.map KVWrite.toBytes = [WireFormat.writeField (5, .delimited blob)] := by
    show [WireFormat.write ([] ++ ([] ++ ([] ++ WireFormat.bytesField 5 blob)))] = _
    rw [WireFormat.bytesField, if_neg nonempty]
    exact congrArg (fun bytes => [bytes]) (List.append_nil _)
  have rwSet : messageCodec.rwSetToBytes (carrying blob).kvrwSet =
      WireFormat.writeField (3, .delimited (WireFormat.writeField (5, .delimited blob))) := by
    show WireFormat.write ([] ++ WireFormat.repeatedField 3 ((carrying blob).kvrwSet.writes.map KVWrite.toBytes)) = _
    rw [value]
    exact List.append_nil _
  have inner := WireFormat.writeField_delimited_length (show 5 < 128 by decide) (show blob.length < 128 ^ 5 by omega)
  have outer := WireFormat.writeField_delimited_length (show 3 < 128 by decide)
    (show (WireFormat.writeField (5, .delimited blob)).length < 128 ^ 5 by omega)
  have first := WireFormat.writeField_delimited_length (show 2 < 128 by decide) (show blob.length < 128 ^ 5 by omega)
  rw [payload, rwSet]
  omega

theorem carrying_not_restored {blob : Bytes} (length : blob.length = 2 ^ 30) :
    new.deserializeFromString messageCodec
        ((carrying blob).serializeToString messageCodec fun _ => hashOfEmpty).1 ≠
      some ({ carrying blob with transactionResult := new.transactionResult }, true) := by
  obtain ⟨payloadLong, payload, rwSetLong, rwSet⟩ := carrying_lengths length
  have digest : ∀ _ : Bytes, hashOfEmpty.length = 32 := fun _ => rfl
  intro restored
  have one : 1 < 2 ^ 32 := by decide
  have small := (restored_iff messageCodec_lawful digest ⟨one, one, payload, rwSet⟩ new).mp restored
  rw [serialized_length digest, delimited, delimited, List.length_append, List.length_append] at small
  omega

/-- Two blobs of a gibibyte each. -/
theorem long_string_is_not_read_back :
    messageCodec.Lawful ∧
      (messageCodec.payloadToBytes (carrying (List.replicate (2 ^ 30) 0)).transactionPayload).length < 2 ^ 31 ∧
      (messageCodec.rwSetToBytes (carrying (List.replicate (2 ^ 30) 0)).kvrwSet).length < 2 ^ 31 ∧
      ¬ (((carrying (List.replicate (2 ^ 30) 0)).serializeToString messageCodec fun _ => hashOfEmpty).2 = true ∧
        new.deserializeFromString messageCodec
            ((carrying (List.replicate (2 ^ 30) 0)).serializeToString messageCodec fun _ => hashOfEmpty).1 =
          some ({ new with
            tid := (carrying (List.replicate (2 ^ 30) 0)).tid
            epoch := (carrying (List.replicate (2 ^ 30) 0)).epoch
            transactionPayload := (carrying (List.replicate (2 ^ 30) 0)).transactionPayload
            kvrwSet := (carrying (List.replicate (2 ^ 30) 0)).kvrwSet }, true)) := by
  have length : (List.replicate (2 ^ 30) (0 : UInt8)).length = 2 ^ 30 := List.length_replicate
  generalize List.replicate (2 ^ 30) (0 : UInt8) = blob at length ⊢
  obtain ⟨-, payload, -, rwSet⟩ := carrying_lengths length
  exact ⟨messageCodec_lawful, payload, rwSet, fun both => carrying_not_restored length both.2⟩

end TwoGibibytes

end MockTransaction

end Blockchain
