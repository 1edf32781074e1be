import MyBlockchain.Transaction.RoundTrip

namespace Blockchain

namespace MockTransaction

variable {proto : TransactionProto} {sha256 : Bytes → Bytes} {object : MockTransaction} {stream raw : Bytes}
  {payload rwSet : (Nat × Bytes) × Bytes}

/-- Encoded fields with their hash behind them, and nothing more. -/
def Sealed (sha256 : Bytes → Bytes) (raw : Bytes) : Prop :=
  ∃ fields : SerializedFields, raw = fields.bytes ++ sha256 fields.bytes ∧ (sha256 fields.bytes).length = 32

theorem readString_isSome_iff {size : Nat} (fits : size < 2 ^ 31) {bytes : Bytes} :
    (readString size bytes).isSome ↔ size ≤ bytes.length := by
  have same : size % 2 ^ 32 = size := Nat.mod_eq_of_lt (by omega)
  unfold readString
  dsimp only
  rw [same]
  split
  · next short => exact iff_of_false Bool.false_ne_true (by omega)
  · next long => exact iff_of_true rfl (by omega)

theorem readHash_isSome_iff (rwSetRead : readRWSet stream = some rwSet) :
    (readHash stream).isSome ↔ 32 ≤ rwSet.2.length := by
  have hash : readHash stream = readString 32 rwSet.2 := FrontReader.bind_of_some rwSetRead
  rw [hash]
  exact readString_isSome_iff (by decide)

theorem accepted_iff :
    (∃ after, object.deserializeFromString proto raw = some (after, true)) ↔
      ∃ payload rwSet, readPayload (arrayInputStream raw) = some payload ∧ (proto.parsePayload payload.1.2).isSome ∧
        readRWSet (arrayInputStream raw) = some rwSet ∧ (proto.parseRWSet rwSet.1.2).isSome ∧ 32 ≤ rwSet.2.length := by
  have decoded := deserialize_decoded proto object raw
  constructor
  · rintro ⟨after, accepted⟩
    obtain ⟨payload, rwSet, payloadRead, payloadParsed, rwSetRead, rwSetParsed, hashRead⟩ := decoded.accepted accepted
    have long := (readHash_isSome_iff rwSetRead).mp hashRead
    exact ⟨payload, rwSet, payloadRead, payloadParsed, rwSetRead, rwSetParsed, long⟩
  · rintro ⟨payload, rwSet, payloadRead, payloadParsed, rwSetRead, rwSetParsed, long⟩
    obtain ⟨epoch, _, epochRead, -⟩ := FrontReader.bind_eq_some payloadRead
    obtain ⟨tid, _, tidRead, -⟩ := FrontReader.bind_eq_some epochRead
    obtain ⟨transactionPayload, payloadParsed⟩ := Option.isSome_iff_exists.mp payloadParsed
    obtain ⟨kvrwSet, rwSetParsed⟩ := Option.isSome_iff_exists.mp rwSetParsed
    have accepted := decoded.of_reads tidRead epochRead payloadRead payloadParsed rwSetRead rwSetParsed
    rw [(readHash_isSome_iff rwSetRead).mpr long] at accepted
    exact ⟨_, accepted⟩

/-- Of a sealed string that is read to its end, nothing is cut off, and the lengths in it are meant as they are read. -/
theorem Sealed.honest (isSealed : Sealed sha256 raw) (payloadRead : readPayload (arrayInputStream raw) = some payload)
    (rwSetRead : readRWSet (arrayInputStream raw) = some rwSet) (long : 32 ≤ rwSet.2.length) :
    raw.length < 2 ^ 31 ∧ payload.1.1 < 2 ^ 32 ∧ rwSet.1.1 < 2 ^ 32 ∧ rwSet.2.length = 32 ∧
      rwSet.2 = sha256 (raw.take (raw.length - 32)) := by
  have hashRead := (readHash_isSome_iff rwSetRead).mpr long
  obtain ⟨fields, rfl, length⟩ := isSealed
  have small := fields.small_of_readHash length hashRead
  rw [arrayInputStream_of_small small] at payloadRead rwSetRead
  obtain ⟨left, payloadIs⟩ := fields.readPayload_eq (sha256 fields.bytes)
  cases payloadRead.symm.trans payloadIs
  cases rwSetRead.symm.trans (fields.readRWSet_spells (sha256 fields.bytes))
  have payloadFits := fields.payloadFits
  have rwSetFits := fields.rwSetFits
  have before : (fields.bytes ++ sha256 fields.bytes).take ((fields.bytes ++ sha256 fields.bytes).length - 32) =
      fields.bytes := by
    rw [List.length_append, length, Nat.add_sub_cancel, List.take_left]
  refine ⟨small, ?_, ?_, length, ?_⟩
  · exact Nat.lt_trans payloadFits (by decide)
  · exact Nat.lt_trans rwSetFits (by decide)
  · rw [before]

theorem readBlob_eq_some {bytes rest blob : Bytes} {size : Nat} (read : readBlob bytes = some ((size, blob), rest))
    (honest : size < 2 ^ 32) :
    ∃ front, bytes = front ++ blob ++ rest ∧ FrontReader.Spells readVarint64 front blob.length ∧
      blob.length < 2 ^ 31 := by
  obtain ⟨value, left, sizeRead, paired⟩ := FrontReader.bind_eq_some read
  obtain ⟨string, stringRead, same⟩ := FrontReader.map_eq_some paired
  obtain ⟨rfl, rfl⟩ := Prod.mk.inj same
  obtain ⟨front, rfl, spells⟩ := readVarint64_local sizeRead
  obtain ⟨rfl, length, fits⟩ := readString_eq_some stringRead
  rw [Nat.mod_eq_of_lt honest] at length
  rw [← length] at spells
  exact ⟨front, (List.append_assoc ..).symm, spells, fits⟩

theorem exists_fields (payloadRead : readPayload stream = some payload) (payloadHonest : payload.1.1 < 2 ^ 32)
    (rwSetRead : readRWSet stream = some rwSet) (rwSetHonest : rwSet.1.1 < 2 ^ 32) :
    ∃ fields : SerializedFields, stream = fields.bytes ++ rwSet.2 := by
  obtain ⟨⟨payloadSize, payloadString⟩, afterPayload⟩ := payload
  obtain ⟨⟨rwSetSize, rwSetString⟩, rest⟩ := rwSet
  obtain ⟨_, left, read, rwSetBlob⟩ := FrontReader.bind_eq_some rwSetRead
  cases read.symm.trans payloadRead
  obtain ⟨epoch, afterEpoch, epochRead, payloadBlob⟩ := FrontReader.bind_eq_some payloadRead
  obtain ⟨tid, afterTid, tidRead, epochVarint⟩ := FrontReader.bind_eq_some epochRead
  obtain ⟨tidBytes, rfl, tidSpells⟩ := readVarint64_local tidRead
  obtain ⟨epochBytes, rfl, epochSpells⟩ := readVarint64_local epochVarint
  obtain ⟨payloadFront, rfl, payloadSpells, payloadFits⟩ := readBlob_eq_some payloadBlob payloadHonest
  obtain ⟨rwSetFront, rfl, rwSetSpells, rwSetFits⟩ := readBlob_eq_some rwSetBlob rwSetHonest
  refine ⟨{
    tid, epoch, payload := payloadString, rwSet := rwSetString, tidBytes, epochBytes, payloadSize := payloadFront
    rwSetSize := rwSetFront, tidSpells, epochSpells, payloadSpells, rwSetSpells, payloadFits, rwSetFits }, ?_⟩
  simp only [SerializedFields.bytes, List.append_assoc]

/-- What is accepted is sealed if and only if the lengths and the hash that the code does not check are right. -/
theorem accepted_is_sealed_iff (proto : TransactionProto) (sha256 : Bytes → Bytes) (object : MockTransaction)
    (raw : Bytes) :
    ((∃ after, object.deserializeFromString proto raw = some (after, true)) → Sealed sha256 raw) ↔
      ∀ payload rwSet, readPayload (arrayInputStream raw) = some payload → (proto.parsePayload payload.1.2).isSome →
        readRWSet (arrayInputStream raw) = some rwSet → (proto.parseRWSet rwSet.1.2).isSome → 32 ≤ rwSet.2.length →
        raw.length < 2 ^ 31 ∧ payload.1.1 < 2 ^ 32 ∧ rwSet.1.1 < 2 ^ 32 ∧ rwSet.2.length = 32 ∧
          rwSet.2 = sha256 (raw.take (raw.length - 32)) := by
  rw [accepted_iff]
  constructor
  · intro checked payload rwSet payloadRead payloadParsed rwSetRead rwSetParsed long
    have isSealed := checked ⟨payload, rwSet, payloadRead, payloadParsed, rwSetRead, rwSetParsed, long⟩
    exact isSealed.honest payloadRead rwSetRead long
  · rintro honest ⟨payload, rwSet, payloadRead, payloadParsed, rwSetRead, rwSetParsed, long⟩
    obtain ⟨small, payloadHonest, rwSetHonest, length, hash⟩ :=
      honest payload rwSet payloadRead payloadParsed rwSetRead rwSetParsed long
    rw [arrayInputStream_of_small small] at payloadRead rwSetRead
    obtain ⟨fields, rfl⟩ := exists_fields payloadRead payloadHonest rwSetRead rwSetHonest
    have before : (fields.bytes ++ rwSet.2).take ((fields.bytes ++ rwSet.2).length - 32) = fields.bytes := by
      rw [List.length_append, length, Nat.add_sub_cancel, List.take_left]
    rw [before] at hash
    rw [hash] at length
    exact ⟨fields, by rw [hash], length⟩

/-- The empty transaction with zeros in the place of its hash. -/
theorem wrong_hash_is_accepted :
    (∃ after, new.deserializeFromString messageCodec ([1, 1, 0, 0] ++ List.replicate 32 0) = some (after, true)) ∧
      ¬ Sealed (fun _ => hashOfEmpty) ([1, 1, 0, 0] ++ List.replicate 32 0) := by
  have payloadRead : readPayload (arrayInputStream ([1, 1, 0, 0] ++ List.replicate 32 0)) =
      some ((0, []), 0 :: List.replicate 32 0) := by decide +kernel
  have rwSetRead : readRWSet (arrayInputStream ([1, 1, 0, 0] ++ List.replicate 32 0)) =
      some ((0, []), List.replicate 32 0) := by decide +kernel
  constructor
  · exact accepted_iff.mpr ⟨_, _, payloadRead, by decide, rwSetRead, by decide, by decide⟩
  · intro isSealed
    obtain ⟨-, -, -, -, hash⟩ := isSealed.honest payloadRead rwSetRead (by decide)
    exact absurd hash (by decide)

end MockTransaction

end Blockchain
