import MyBlockchain.Transaction.Decoding
import MyBlockchain.Transaction.MessageCodec

namespace Blockchain

namespace MockTransaction

variable {proto : TransactionProto} {object after : MockTransaction} {stream : Bytes}

def SameFields (after object : MockTransaction) : Prop :=
  after.tid = object.tid ∧ after.epoch = object.epoch ∧ after.transactionPayload = object.transactionPayload ∧
    after.kvrwSet = object.kvrwSet

/-- Neither a failed CHECK nor a false result over a changed object. -/
def RejectsCleanly (object : MockTransaction) (result : Option (MockTransaction × Bool)) : Prop :=
  result ≠ none ∧ ∀ after, result = some (after, false) → after.SameFields object

theorem rejectsCleanly_false_iff : RejectsCleanly object (some (after, false)) ↔ after.SameFields object := by
  constructor
  · exact fun clean => clean.2 after rfl
  · refine fun same => ⟨nofun, ?_⟩
    rintro _ ⟨⟩
    exact same

theorem rejectsCleanly_true : RejectsCleanly object (some (after, true)) := ⟨nofun, nofun⟩

theorem not_rejectsCleanly_none : ¬ RejectsCleanly object none := fun clean => clean.1 rfl

def MessagesParse (proto : TransactionProto) (stream : Bytes) : Prop :=
  (∀ payload ∈ readPayload stream, (proto.parsePayload payload.1.2).isSome) ∧
    ∀ rwSet ∈ readRWSet stream, (proto.parseRWSet rwSet.1.2).isSome

def FieldsAgree (proto : TransactionProto) (object : MockTransaction) (stream : Bytes) : Prop :=
  (∀ tid ∈ readTid stream, tid.1 % 2 ^ 32 = object.tid) ∧
    (∀ epoch ∈ readEpoch stream, epoch.1 % 2 ^ 32 = object.epoch) ∧
    (∀ payload ∈ readPayload stream, proto.parsePayload payload.1.2 = some object.transactionPayload) ∧
    ∀ rwSet ∈ readRWSet stream, proto.parseRWSet rwSet.1.2 = some object.kvrwSet

theorem Decoded.rejectsCleanly_iff {result : Option (MockTransaction × Bool)}
    (decoded : Decoded proto stream object result) :
    RejectsCleanly object result ↔
      MessagesParse proto stream ∧ (readHash stream = none → FieldsAgree proto object stream) := by
  cases decoded with
  | noTid stops =>
    have noEpoch : readEpoch stream = none := FrontReader.bind_of_none stops
    have noPayload : readPayload stream = none := FrontReader.bind_of_none noEpoch
    have noRWSet : readRWSet stream = none := FrontReader.bind_of_none noPayload
    simp [rejectsCleanly_false_iff, SameFields, MessagesParse, FieldsAgree, stops, noEpoch, noPayload, noRWSet]
  | noEpoch tidRead stops =>
    have noPayload : readPayload stream = none := FrontReader.bind_of_none stops
    have noRWSet : readRWSet stream = none := FrontReader.bind_of_none noPayload
    have noHash : readHash stream = none := FrontReader.bind_of_none noRWSet
    simp [rejectsCleanly_false_iff, SameFields, MessagesParse, FieldsAgree, tidRead, stops, noPayload, noRWSet, noHash]
  | noPayload tidRead epochRead stops =>
    have noRWSet : readRWSet stream = none := FrontReader.bind_of_none stops
    have noHash : readHash stream = none := FrontReader.bind_of_none noRWSet
    simp [rejectsCleanly_false_iff, SameFields, MessagesParse, FieldsAgree, tidRead, epochRead, stops, noRWSet, noHash]
  | payloadCheck payloadRead fails =>
    simp [not_rejectsCleanly_none, MessagesParse, payloadRead, fails]
  | noRWSet tidRead epochRead payloadRead payloadParsed stops =>
    have noHash : readHash stream = none := FrontReader.bind_of_none stops
    simp [rejectsCleanly_false_iff, SameFields, MessagesParse, FieldsAgree, tidRead, epochRead, payloadRead,
      payloadParsed, stops, noHash]
  | rwSetCheck rwSetRead fails =>
    simp [not_rejectsCleanly_none, MessagesParse, rwSetRead, fails]
  | complete tidRead epochRead payloadRead payloadParsed rwSetRead rwSetParsed =>
    cases hash : readHash stream with
    | none =>
      simp [rejectsCleanly_false_iff, SameFields, MessagesParse, FieldsAgree, tidRead, epochRead, payloadRead,
        payloadParsed, rwSetRead, rwSetParsed]
    | some read =>
      simp [rejectsCleanly_true, MessagesParse, payloadRead, payloadParsed, rwSetRead, rwSetParsed]

/-- Bytes are rejected cleanly if and only if the messages in them parse, and what is there of a broken off string is
what the object holds already. -/
theorem deserialize_rejects_cleanly_iff (proto : TransactionProto) (object : MockTransaction) (raw : Bytes) :
    (object.deserializeFromString proto raw ≠ none ∧
      ∀ after, object.deserializeFromString proto raw = some (after, false) →
        after.tid = object.tid ∧ after.epoch = object.epoch ∧
          after.transactionPayload = object.transactionPayload ∧ after.kvrwSet = object.kvrwSet) ↔
      MessagesParse proto (arrayInputStream raw) ∧
        (readHash (arrayInputStream raw) = none → FieldsAgree proto object (arrayInputStream raw)) :=
  (deserialize_decoded proto object raw).rejectsCleanly_iff

/-- One byte changes the id of a new transaction, and a payload that is no message stops the server. -/
theorem broken_bytes_are_not_rejected_cleanly :
    ¬ RejectsCleanly new (new.deserializeFromString messageCodec [5]) ∧
      ¬ RejectsCleanly new (new.deserializeFromString messageCodec [1, 1, 1, 255]) := by
  have cutOff : new.deserializeFromString messageCodec [5] = some ({ new with tid := 5 }, false) := by decide +kernel
  have failed : new.deserializeFromString messageCodec [1, 1, 1, 255] = none := by decide +kernel
  rw [cutOff, failed, rejectsCleanly_false_iff]
  exact ⟨fun same => absurd same.1 (by decide), not_rejectsCleanly_none⟩

end MockTransaction

end Blockchain
