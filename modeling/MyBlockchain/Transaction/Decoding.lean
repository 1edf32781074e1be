import MyBlockchain.Library.FrontReader
import MyBlockchain.Transaction.Codec

namespace Blockchain

open Varint

theorem readVarint64_local : FrontReader.Local readVarint64 := by
  intro bytes value rest read
  obtain ⟨⟨whole, left⟩, found, same⟩ := Option.map_eq_some_iff.mp read
  obtain ⟨rfl, rfl⟩ := Prod.mk.inj same
  obtain ⟨front, rfl, alone⟩ := decode_split found
  refine ⟨front, rfl, fun rest => ?_⟩
  have more := decode_append alone rest
  rw [readVarint64, more, Option.map_some, List.nil_append]

theorem readString_eq_some {size : Nat} {bytes string rest : Bytes}
    (read : readString size bytes = some (string, rest)) :
    bytes = string ++ rest ∧ string.length = size % 2 ^ 32 ∧ string.length < 2 ^ 31 := by
  unfold readString at read
  dsimp only at read
  split at read
  · cases read
  · next enough =>
    rw [List.splitAt_eq] at read
    obtain ⟨rfl, rfl⟩ := Prod.mk.inj (Option.some.inj read)
    have length : (bytes.take (size % 2 ^ 32)).length = size % 2 ^ 32 := by
      rw [List.length_take]
      omega
    refine ⟨(List.take_append_drop _ _).symm, length, ?_⟩
    rw [length]
    omega

theorem readString_spells {size : Nat} {string : Bytes} (length : string.length = size % 2 ^ 32)
    (fits : string.length < 2 ^ 31) : FrontReader.Spells (readString size) string string := by
  intro rest
  have read := readString_append string fits rest
  have same : string.length % 2 ^ 32 = size % 2 ^ 32 := by omega
  unfold readString at read ⊢
  rw [same] at read
  exact read

theorem readString_local (size : Nat) : FrontReader.Local (readString size) := by
  intro bytes string rest read
  obtain ⟨rfl, length, fits⟩ := readString_eq_some read
  exact ⟨string, rfl, readString_spells length fits⟩

theorem encode_spells {value : Nat} (fits : value < 2 ^ 64) : FrontReader.Spells readVarint64 (encode value) value :=
  readVarint64_encode fits

namespace MockTransaction

variable {proto : TransactionProto} {object : MockTransaction} {stream : Bytes}

def readBlob : FrontReader UInt8 (Nat × Bytes) :=
  FrontReader.bind readVarint64 fun size => FrontReader.map (fun blob => (size, blob)) (readString size)

/-- The fields that can be read of a stream one behind the other, each with what follows it. -/
def readTid : FrontReader UInt8 Nat := readVarint64

def readEpoch : FrontReader UInt8 Nat := readTid.bind fun _ => readVarint64

def readPayload : FrontReader UInt8 (Nat × Bytes) := readEpoch.bind fun _ => readBlob

def readRWSet : FrontReader UInt8 (Nat × Bytes) := readPayload.bind fun _ => readBlob

def readHash : FrontReader UInt8 Bytes := readRWSet.bind fun _ => readString 32

theorem readBlob_local : readBlob.Local :=
  readVarint64_local.bind fun size => (readString_local size).map _

theorem readEpoch_local : readEpoch.Local := FrontReader.Local.bind readVarint64_local fun _ => readVarint64_local

theorem readPayload_local : readPayload.Local := readEpoch_local.bind fun _ => readBlob_local

theorem readRWSet_local : readRWSet.Local := readPayload_local.bind fun _ => readBlob_local

theorem readHash_local : readHash.Local := readRWSet_local.bind fun _ => readString_local 32

/-- Where `deserializeFromString` stops: at the first field that is not there, at a CHECK, or behind the hash. -/
inductive Decoded (proto : TransactionProto) (stream : Bytes) (object : MockTransaction) :
    Option (MockTransaction × Bool) → Prop
  | noTid (stops : readTid stream = none) : Decoded proto stream object (some (object, false))
  | noEpoch {tid : Nat × Bytes} (tidRead : readTid stream = some tid) (stops : readEpoch stream = none) :
      Decoded proto stream object (some ({ object with tid := tid.1 % 2 ^ 32 }, false))
  | noPayload {tid epoch : Nat × Bytes} (tidRead : readTid stream = some tid)
      (epochRead : readEpoch stream = some epoch) (stops : readPayload stream = none) :
      Decoded proto stream object
        (some ({ object with tid := tid.1 % 2 ^ 32, epoch := epoch.1 % 2 ^ 32 }, false))
  | payloadCheck {payload : (Nat × Bytes) × Bytes} (payloadRead : readPayload stream = some payload)
      (fails : proto.parsePayload payload.1.2 = none) : Decoded proto stream object none
  | noRWSet {tid epoch : Nat × Bytes} {payload : (Nat × Bytes) × Bytes} {transactionPayload : TransactionPayload}
      (tidRead : readTid stream = some tid) (epochRead : readEpoch stream = some epoch)
      (payloadRead : readPayload stream = some payload)
      (payloadParsed : proto.parsePayload payload.1.2 = some transactionPayload) (stops : readRWSet stream = none) :
      Decoded proto stream object
        (some ({ object with tid := tid.1 % 2 ^ 32, epoch := epoch.1 % 2 ^ 32, transactionPayload }, false))
  | rwSetCheck {rwSet : (Nat × Bytes) × Bytes} (rwSetRead : readRWSet stream = some rwSet)
      (fails : proto.parseRWSet rwSet.1.2 = none) : Decoded proto stream object none
  | complete {tid epoch : Nat × Bytes} {payload rwSet : (Nat × Bytes) × Bytes}
      {transactionPayload : TransactionPayload} {kvrwSet : KVRWSet} (tidRead : readTid stream = some tid)
      (epochRead : readEpoch stream = some epoch) (payloadRead : readPayload stream = some payload)
      (payloadParsed : proto.parsePayload payload.1.2 = some transactionPayload)
      (rwSetRead : readRWSet stream = some rwSet) (rwSetParsed : proto.parseRWSet rwSet.1.2 = some kvrwSet) :
      Decoded proto stream object
        (some ({ object with tid := tid.1 % 2 ^ 32, epoch := epoch.1 % 2 ^ 32, transactionPayload, kvrwSet },
          (readHash stream).isSome))

theorem deserialize_decoded (proto : TransactionProto) (object : MockTransaction) (transactionRaw : Bytes) :
    Decoded proto (arrayInputStream transactionRaw) object (object.deserializeFromString proto transactionRaw) := by
  unfold deserializeFromString
  generalize arrayInputStream transactionRaw = stream
  split
  · next stops => exact .noTid stops
  · next tid rest tidRead =>
    have tidRead : readTid stream = some (tid, rest) := tidRead
    have epochIs : readEpoch stream = readVarint64 rest := FrontReader.bind_of_some tidRead
    dsimp only
    split
    · next stops => exact .noEpoch tidRead (epochIs.trans stops)
    · next epoch rest epochRead =>
      have epochRead := epochIs.trans epochRead
      have payloadIs : readPayload stream = readBlob rest := FrontReader.bind_of_some epochRead
      split
      · next stops =>
        have none : readBlob rest = none := FrontReader.bind_of_none stops
        exact .noPayload tidRead epochRead (payloadIs.trans none)
      · next payloadSize rest sizeRead =>
        rw [readBlob, FrontReader.bind_of_some sizeRead] at payloadIs
        dsimp only [FrontReader.map] at payloadIs
        split
        · next stops =>
          rw [stops, Option.map_none] at payloadIs
          exact .noPayload tidRead epochRead payloadIs
        · next payloadString rest stringRead =>
          rw [stringRead, Option.map_some] at payloadIs
          have rwSetIs : readRWSet stream = readBlob rest := FrontReader.bind_of_some payloadIs
          split
          · next fails => exact .payloadCheck payloadIs fails
          · next transactionPayload payloadParsed =>
            split
            · next stops =>
              have none : readBlob rest = none := FrontReader.bind_of_none stops
              exact .noRWSet tidRead epochRead payloadIs payloadParsed (rwSetIs.trans none)
            · next rwSetSize rest sizeRead =>
              rw [readBlob, FrontReader.bind_of_some sizeRead] at rwSetIs
              dsimp only [FrontReader.map] at rwSetIs
              split
              · next stops =>
                rw [stops, Option.map_none] at rwSetIs
                exact .noRWSet tidRead epochRead payloadIs payloadParsed rwSetIs
              · next rwSetString rest stringRead =>
                rw [stringRead, Option.map_some] at rwSetIs
                have hashIs : readHash stream = readString 32 rest := FrontReader.bind_of_some rwSetIs
                split
                · next fails => exact .rwSetCheck rwSetIs fails
                · next kvrwSet rwSetParsed =>
                  have complete : Decoded proto stream object _ :=
                    .complete tidRead epochRead payloadIs payloadParsed rwSetIs rwSetParsed
                  rw [hashIs] at complete
                  split
                  · next stops =>
                    rw [stops] at complete
                    exact complete
                  · next hash hashRead =>
                    rw [hashRead] at complete
                    exact complete

section Results

variable {result : Option (MockTransaction × Bool)} {after : MockTransaction}

theorem Decoded.accepted (decoded : Decoded proto stream object result) (same : result = some (after, true)) :
    ∃ payload rwSet, readPayload stream = some payload ∧ (proto.parsePayload payload.1.2).isSome ∧
      readRWSet stream = some rwSet ∧ (proto.parseRWSet rwSet.1.2).isSome ∧ (readHash stream).isSome := by
  cases decoded with
  | noTid | noEpoch | noPayload | noRWSet =>
    cases (Prod.mk.inj (Option.some.inj same)).2
  | payloadCheck | rwSetCheck => cases same
  | complete tidRead epochRead payloadRead payloadParsed rwSetRead rwSetParsed =>
    exact ⟨_, _, payloadRead, Option.isSome_of_eq_some payloadParsed, rwSetRead, Option.isSome_of_eq_some rwSetParsed,
      (Prod.mk.inj (Option.some.inj same)).2⟩

theorem Decoded.of_reads (decoded : Decoded proto stream object result) {tid epoch : Nat × Bytes}
    {payload rwSet : (Nat × Bytes) × Bytes} {transactionPayload : TransactionPayload} {kvrwSet : KVRWSet}
    (tidRead : readTid stream = some tid) (epochRead : readEpoch stream = some epoch)
    (payloadRead : readPayload stream = some payload)
    (payloadParsed : proto.parsePayload payload.1.2 = some transactionPayload)
    (rwSetRead : readRWSet stream = some rwSet) (rwSetParsed : proto.parseRWSet rwSet.1.2 = some kvrwSet) :
    result = some ({ object with tid := tid.1 % 2 ^ 32, epoch := epoch.1 % 2 ^ 32, transactionPayload, kvrwSet },
      (readHash stream).isSome) := by
  cases decoded with
  | noTid stops =>
    rw [stops] at tidRead
    cases tidRead
  | noEpoch _ stops =>
    rw [stops] at epochRead
    cases epochRead
  | noPayload _ _ stops =>
    rw [stops] at payloadRead
    cases payloadRead
  | payloadCheck read fails =>
    rw [read] at payloadRead
    cases payloadRead
    rw [fails] at payloadParsed
    cases payloadParsed
  | noRWSet _ _ _ _ stops =>
    rw [stops] at rwSetRead
    cases rwSetRead
  | rwSetCheck read fails =>
    rw [read] at rwSetRead
    cases rwSetRead
    rw [fails] at rwSetParsed
    cases rwSetParsed
  | complete tidRead' epochRead' payloadRead' payloadParsed' rwSetRead' rwSetParsed' =>
    cases tidRead'.symm.trans tidRead
    cases epochRead'.symm.trans epochRead
    cases payloadRead'.symm.trans payloadRead
    cases payloadParsed'.symm.trans payloadParsed
    cases rwSetRead'.symm.trans rwSetRead
    cases rwSetParsed'.symm.trans rwSetParsed
    rfl

end Results

/-- The fields of a serialized transaction, in whatever number of bytes the varints have. No message of protobuf has
2 GiB. -/
structure SerializedFields where
  tid : Nat
  epoch : Nat
  payload : Bytes
  rwSet : Bytes
  tidBytes : Bytes
  epochBytes : Bytes
  payloadSize : Bytes
  rwSetSize : Bytes
  tidSpells : FrontReader.Spells readVarint64 tidBytes tid
  epochSpells : FrontReader.Spells readVarint64 epochBytes epoch
  payloadSpells : FrontReader.Spells readVarint64 payloadSize payload.length
  rwSetSpells : FrontReader.Spells readVarint64 rwSetSize rwSet.length
  payloadFits : payload.length < 2 ^ 31
  rwSetFits : rwSet.length < 2 ^ 31

namespace SerializedFields

variable (fields : SerializedFields)

def bytes : Bytes :=
  fields.tidBytes ++ fields.epochBytes ++ (fields.payloadSize ++ fields.payload) ++ (fields.rwSetSize ++ fields.rwSet)

theorem readBlob_spells {size blob : Bytes} (spells : FrontReader.Spells readVarint64 size blob.length)
    (fits : blob.length < 2 ^ 31) : readBlob.Spells (size ++ blob) (blob.length, blob) := by
  have same : blob.length = blob.length % 2 ^ 32 := (Nat.mod_eq_of_lt (by omega)).symm
  exact spells.bind ((readString_spells same fits).map fun read => (blob.length, read))

theorem readEpoch_spells : readEpoch.Spells (fields.tidBytes ++ fields.epochBytes) fields.epoch :=
  FrontReader.Spells.bind fields.tidSpells fields.epochSpells

theorem readPayload_spells :
    readPayload.Spells (fields.tidBytes ++ fields.epochBytes ++ (fields.payloadSize ++ fields.payload))
      (fields.payload.length, fields.payload) :=
  fields.readEpoch_spells.bind (readBlob_spells fields.payloadSpells fields.payloadFits)

theorem readRWSet_spells : readRWSet.Spells fields.bytes (fields.rwSet.length, fields.rwSet) :=
  fields.readPayload_spells.bind (readBlob_spells fields.rwSetSpells fields.rwSetFits)

theorem readTid_eq (tail : Bytes) : ∃ rest, readTid (fields.bytes ++ tail) = some (fields.tid, rest) := by
  rw [bytes, List.append_assoc, List.append_assoc, List.append_assoc]
  exact ⟨_, fields.tidSpells _⟩

theorem readEpoch_eq (tail : Bytes) : ∃ rest, readEpoch (fields.bytes ++ tail) = some (fields.epoch, rest) := by
  rw [bytes, List.append_assoc, List.append_assoc]
  exact ⟨_, fields.readEpoch_spells _⟩

theorem readPayload_eq (tail : Bytes) :
    ∃ rest, readPayload (fields.bytes ++ tail) = some ((fields.payload.length, fields.payload), rest) := by
  rw [bytes, List.append_assoc]
  exact ⟨_, fields.readPayload_spells _⟩

theorem readHash_spells {hash : Bytes} (length : hash.length = 32) : readHash.Spells (fields.bytes ++ hash) hash :=
  fields.readRWSet_spells.bind (readString_spells length (by rw [length]; decide))

end SerializedFields

end MockTransaction

end Blockchain
