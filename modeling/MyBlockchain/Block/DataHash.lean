import MyBlockchain.Block.BlockStorageToFile

namespace Blockchain

open Varint

namespace Block

theorem serializeAsString_append (first second : List Bytes) :
    serializeAsString (first ++ second) = serializeAsString first ++ serializeAsString second :=
  List.flatMap_append

theorem serializeAsString_cons (entry : Bytes) (rest : List Bytes) :
    serializeAsString (entry :: rest) = 0x0A :: (delimited entry ++ serializeAsString rest) := rfl

theorem serializeAsString_injective : Function.Injective serializeAsString := by
  intro first second same
  induction first generalizing second with
  | nil =>
    cases second with
    | nil => rfl
    | cons => simp [serializeAsString] at same
  | cons entry rest ih =>
    cases second with
    | nil => simp [serializeAsString] at same
    | cons other more =>
      simp only [serializeAsString_cons, List.cons.injEq, true_and] at same
      obtain ⟨rfl, left⟩ := delimited_append_inj same
      rw [ih left]

end Block

namespace BlockStorageToFile

def dataHashOf (crypto : BlockCrypto) (data metadata : List Bytes) : Bytes :=
  (dataHash crypto ⟨[], false, false⟩ { Block.new with data, metadata }).1

theorem dataHashOf_eq (crypto : BlockCrypto) (data metadata : List Bytes) :
    dataHashOf crypto data metadata = crypto.sha256 (Block.serializeAsString (data ++ metadata)) := by
  rw [Block.serializeAsString_append, dataHashOf, dataHash_eq]

/-- The hash covers the entries of both parts, but not where the first one ends. -/
theorem dataHashOf_inj {crypto : BlockCrypto} (injective : Function.Injective crypto.sha256)
    (data metadata otherData otherMetadata : List Bytes) :
    dataHashOf crypto data metadata = dataHashOf crypto otherData otherMetadata ↔
      data ++ metadata = otherData ++ otherMetadata := by
  rw [dataHashOf_eq, dataHashOf_eq, injective.eq_iff, Block.serializeAsString_injective.eq_iff]

end BlockStorageToFile

/-- Two contents with one hash are the same if and only if they do not split the same entries in different
places. -/
theorem data_hash_binds_iff {crypto : BlockCrypto} (injective : Function.Injective crypto.sha256)
    (data metadata otherData otherMetadata : List Bytes) :
    (BlockStorageToFile.dataHashOf crypto data metadata =
        BlockStorageToFile.dataHashOf crypto otherData otherMetadata →
      data = otherData ∧ metadata = otherMetadata) ↔
    (data ++ metadata = otherData ++ otherMetadata → data.length = otherData.length) := by
  rw [BlockStorageToFile.dataHashOf_inj injective]
  constructor
  · intro binds same
    obtain ⟨rfl, -⟩ := binds same
    rfl
  · intro length same
    exact List.append_inj same (length same)

theorem data_hash_binds_iff_one_entry :
    (BlockStorageToFile.dataHashOf counterCrypto [[1]] [[2], []] =
        BlockStorageToFile.dataHashOf counterCrypto [[1]] [[3], []] →
      ([[1]] : List Bytes) = [[1]] ∧ ([[2], []] : List Bytes) = [[3], []]) ↔
    (([[1], [2], []] : List Bytes) = [[1], [3], []] → 1 = 1) :=
  data_hash_binds_iff (fun _ _ same => same) [[1]] [[2], []] [[1]] [[3], []]

theorem moved_entry_same_hash :
    Function.Injective counterCrypto.sha256 ∧
      ¬ (BlockStorageToFile.dataHashOf counterCrypto [[1]] [[2], [], [3]] =
          BlockStorageToFile.dataHashOf counterCrypto [[1], [2]] [[], [3]] →
        ([[1]] : List Bytes) = [[1], [2]] ∧ ([[2], [], [3]] : List Bytes) = [[], [3]]) := by
  refine ⟨fun _ _ same => same, fun binds => ?_⟩
  have same : BlockStorageToFile.dataHashOf counterCrypto [[1]] [[2], [], [3]] =
      BlockStorageToFile.dataHashOf counterCrypto [[1], [2]] [[], [3]] := by
    decide
  exact absurd (binds same).1 (by decide)

end Blockchain
