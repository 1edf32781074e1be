import MyBlockchain.Common.SHA256Machine

namespace Blockchain

open SecureHash (Bits bits)

namespace SHA256

def padded (message : Bytes) : Bytes :=
  message ++ padding message 0x80 (UInt32.ofNat (8 * message.length / 2 ^ 32)) (UInt32.ofNat (8 * message.length))

def paddedBlocks (message : Bytes) : List Bytes :=
  BlockStream.cut 64 ((padded message).length / 64) (padded message)

def digest (message : Bytes) : Bytes :=
  (List.range sha256HashSize).map (digestByte ((paddedBlocks message).foldl compress sha256H0))

theorem digest_length (message : Bytes) : (digest message).length = 32 := by
  rw [digest, List.length_map, List.length_range]
  rfl

def counted (length : Nat) : SHA256Context where
  intermediateHash := sha256H0
  lengthLow := UInt32.ofNat length
  lengthHigh := UInt32.ofNat (length / 2 ^ 32)
  messageBlockIndex := 0
  messageBlock := Vector.replicate 64 0
  computed := 0
  corrupted := 0

theorem counted_length {length : Nat} (below : length < 2 ^ 64) : lengthOf (counted length) = length := by
  simp only [lengthOf, counted, UInt32.toNat_ofNat']
  omega

theorem padded_bits {message : Bytes} (below : 8 * message.length < 2 ^ 64) :
    (paddedBlocks message).map bits = SecureHash.blocks (bits message) ∧
      ∀ block ∈ paddedBlocks message, block.length = 64 := by
  have short : ([] : Bits).length < 8 := Nat.succ_pos 7
  have length : lengthOf (counted (8 * message.length)) = 8 * message.length + ([] : Bits).length :=
    counted_length below
  have size := padded_length short resultByte_mark length
  have blocks := padded_blocks short resultByte_mark length
  have unfolded : message ++ padding message 0x80 (counted (8 * message.length)).lengthHigh
      (counted (8 * message.length)).lengthLow = padded message := rfl
  rw [List.append_nil, unfolded] at size blocks
  have count : (padded message).length / 64 = (SecureHash.pad (bits message)).length / 512 := by
    rw [size]
    omega
  rw [← count] at size blocks
  exact ⟨blocks, BlockStream.cut_length size⟩

theorem digest_blocks (message : Bytes) :
    bits (digest message) =
      (hashValue ((paddedBlocks message).foldl compress sha256H0)).words.flatMap SecureHash.wordBits :=
  digest_bits _

theorem digest_eq {message : Bytes} (below : 8 * message.length < 2 ^ 64) :
    bits (digest message) = SecureHash.sha256 (bits message) := by
  obtain ⟨blocks, whole⟩ := padded_bits below
  rw [digest_blocks, foldl_compress sha256H0 whole, blocks, sha256H0_eq]
  rfl

example : digest [0x61, 0x62, 0x63] = [
    0xba, 0x78, 0x16, 0xbf, 0x8f, 0x01, 0xcf, 0xea, 0x41, 0x41, 0x40, 0xde, 0x5d, 0xae, 0x22, 0x23,
    0xb0, 0x03, 0x61, 0xa3, 0x96, 0x17, 0x7a, 0x9c, 0xb4, 0x10, 0xff, 0x61, 0xf2, 0x00, 0x15, 0xad] := by
  decide +kernel

/-- Equal digests are of equal messages, or two blocks collide in the compression. -/
theorem digest_binds {message other : Bytes} (below : 8 * message.length < 2 ^ 64)
    (below' : 8 * other.length < 2 ^ 64) (same : digest message = digest other) :
    message = other ∨ BlockStream.Collide compress sha256H0 (paddedBlocks message) (paddedBlocks other) := by
  obtain ⟨blocks, -⟩ := padded_bits below
  obtain ⟨blocks', -⟩ := padded_bits below'
  have size : (bits message).length < 2 ^ 64 := by rwa [SecureHash.bits_length]
  have size' : (bits other).length < 2 ^ 64 := by rwa [SecureHash.bits_length]
  have states : (paddedBlocks message).foldl compress sha256H0 = (paddedBlocks other).foldl compress sha256H0 := by
    have values : hashValue ((paddedBlocks message).foldl compress sha256H0) =
        hashValue ((paddedBlocks other).foldl compress sha256H0) := by
      apply SecureHash.words_injective
      rw [← digest_blocks, ← digest_blocks, same]
    exact hashValue_injective values
  have strengthened : (paddedBlocks message).length ≠ (paddedBlocks other).length →
      paddedBlocks message ≠ [] ∧ paddedBlocks other ≠ [] ∧
        (paddedBlocks message).getLast? ≠ (paddedBlocks other).getLast? := by
    intro differ
    rw [← @List.length_map _ _ (paddedBlocks message) bits, ← @List.length_map _ _ (paddedBlocks other) bits, blocks,
      blocks'] at differ
    obtain ⟨filled, filled', last⟩ := SecureHash.blocks_strengthened size size' differ
    rw [← blocks] at filled last
    rw [← blocks'] at filled' last
    refine ⟨?_, ?_, ?_⟩
    · rintro none
      exact filled (by rw [none]; rfl)
    · rintro none
      exact filled' (by rw [none]; rfl)
    · intro equal
      rw [List.getLast?_map, List.getLast?_map, equal] at last
      exact last rfl
  rcases BlockStream.foldl_binds strengthened states with equal | collide
  · left
    apply SecureHash.bits_injective
    apply SecureHash.blocks_injective size size'
    rw [← blocks, ← blocks', equal]
  · exact .inr collide

end SHA256

end Blockchain
