import MyBlockchain.Common.SHA256Stream

namespace Blockchain

namespace SHA256

open SecureHash (Bits bits)

def lengthOf (context : SHA256Context) : Nat := context.lengthHigh.toNat * 2 ^ 32 + context.lengthLow.toNat

theorem addLength_eq (context : SHA256Context) (length : UInt32) :
    lengthOf (addLength context length) = (lengthOf context + length.toNat) % 2 ^ 64 ∧
      (addLength context length).corrupted = (if 2 ^ 64 ≤ lengthOf context + length.toNat then 1 else 0) ∧
      addLength context length = { context with
        lengthLow := (addLength context length).lengthLow, lengthHigh := (addLength context length).lengthHigh
        corrupted := (addLength context length).corrupted } := by
  have low := context.lengthLow.toNat_lt
  have high := context.lengthHigh.toNat_lt
  have add := length.toNat_lt
  unfold addLength
  dsimp only
  by_cases carry : context.lengthLow + length < context.lengthLow
  · rw [if_pos carry]
    rw [UInt32.lt_iff_toNat_lt, UInt32.toNat_add] at carry
    have zero : context.lengthHigh + 1 = 0 ↔ context.lengthHigh.toNat + 1 = 2 ^ 32 := by
      rw [← UInt32.toNat_inj, UInt32.toNat_add]
      have one : (1 : UInt32).toNat = 1 := rfl
      have none : (0 : UInt32).toNat = 0 := rfl
      omega
    refine ⟨?_, ?_, rfl⟩
    · simp only [lengthOf, UInt32.toNat_add, UInt32.reduceToNat]
      omega
    · simp only [lengthOf, zero]
      congr 1
      apply propext
      omega
  · rw [if_neg carry]
    rw [UInt32.lt_iff_toNat_lt, UInt32.toNat_add] at carry
    refine ⟨?_, ?_, rfl⟩
    · simp only [lengthOf, UInt32.toNat_add]
      omega
    · have fits : ¬ 2 ^ 64 ≤ lengthOf context + length.toNat := by
        unfold lengthOf
        omega
      rw [if_neg fits]

theorem addLength_block (context : SHA256Context) (length : UInt32) :
    live (addLength context length) = live context ∧
      (addLength context length).messageBlockIndex = context.messageBlockIndex ∧
      (addLength context length).intermediateHash = context.intermediateHash ∧
      (addLength context length).computed = context.computed := by
  have rest := (addLength_eq context length).2.2
  generalize addLength context length = after at rest
  rw [rest]
  exact ⟨rfl, rfl, rfl, rfl⟩

theorem Streams.addLength {H0 : Vector UInt32 8} {fed : Bytes} {context : SHA256Context}
    (streams : Streams H0 fed context) (length : UInt32) : Streams H0 fed (addLength context length) := by
  obtain ⟨same, index, hash, -⟩ := addLength_block context length
  exact ⟨by rw [same, hash]; exact streams.stream, by rw [index]; exact streams.room⟩

theorem bits_zeros (n : Nat) : bits (List.replicate n 0) = List.replicate (8 * n) false := by
  induction n with
  | zero => rfl
  | succ n ih =>
    have byte : SecureHash.byteBits 0 = List.replicate 8 false := by decide
    rw [List.replicate_succ, SecureHash.bits_cons, ih, byte, List.replicate_append_replicate, Nat.mul_succ,
      Nat.add_comm]

theorem bits_length (context : SHA256Context) :
    bits (lengthBytes context.lengthHigh context.lengthLow) = SecureHash.lengthBits (lengthOf context) := by
  have parts : BitVec.ofNat 64 (lengthOf context) = context.lengthHigh.toBitVec ++ context.lengthLow.toBitVec := by
    have low : context.lengthLow.toNat < 2 ^ 32 := context.lengthLow.toNat_lt
    have high : context.lengthHigh.toNat < 2 ^ 32 := context.lengthHigh.toNat_lt
    apply BitVec.eq_of_toNat_eq
    rw [BitVec.toNat_append, BitVec.toNat_ofNat, UInt32.toNat_toBitVec, UInt32.toNat_toBitVec,
      ← Nat.shiftLeft_add_eq_or_of_lt low, Nat.shiftLeft_eq, lengthOf]
    omega
  have range : List.range 64 = List.range 32 ++ (List.range 32).map (32 + ·) := @List.range_add 32 32
  have split : lengthBytes context.lengthHigh context.lengthLow =
      [(context.lengthHigh >>> 24).toUInt8, (context.lengthHigh >>> 16).toUInt8, (context.lengthHigh >>> 8).toUInt8,
        context.lengthHigh.toUInt8] ++
      [(context.lengthLow >>> 24).toUInt8, (context.lengthLow >>> 16).toUInt8, (context.lengthLow >>> 8).toUInt8,
        context.lengthLow.toUInt8] := rfl
  rw [split, SecureHash.bits_append, word_bytes, word_bytes, SecureHash.lengthBits, parts, range, List.map_append,
    List.map_map]
  congr 1
  · apply List.map_congr_left
    intro i member
    rw [BitVec.getMsbD_append, if_neg (Nat.not_le.mpr (List.mem_range.mp member))]
  · apply List.map_congr_left
    intro i member
    rw [Function.comp_apply, BitVec.getMsbD_append, if_pos (Nat.le_add_right 32 i), Nat.add_sub_cancel_left]

/-- The pad byte ends the message and begins the padding. -/
theorem bits_padding {message : Bytes} {tail : Bits} {padByte : UInt8} {context : SHA256Context}
    (short : tail.length < 8) (mark : SecureHash.byteBits padByte = tail ++ true :: List.replicate (7 - tail.length) false)
    (length : lengthOf context = 8 * message.length + tail.length) :
    bits (message ++ padding message padByte context.lengthHigh context.lengthLow) =
      SecureHash.pad (bits message ++ tail) := by
  have total : (bits message ++ tail).length = 8 * message.length + tail.length := by
    rw [List.length_append, SecureHash.bits_length]
  have zeros : 7 - tail.length + 8 * ((119 - message.length % 64) % 64) =
      SecureHash.paddingZeros (8 * message.length + tail.length) := by
    unfold SecureHash.paddingZeros
    omega
  rw [padding, SecureHash.bits_append, SecureHash.bits_cons, SecureHash.bits_append, bits_zeros, bits_length, length,
    mark, SecureHash.pad, total, ← zeros, ← List.replicate_append_replicate]
  simp only [List.append_assoc, List.cons_append]

theorem padded_length {message : Bytes} {tail : Bits} {padByte : UInt8} {context : SHA256Context}
    (short : tail.length < 8) (mark : SecureHash.byteBits padByte = tail ++ true :: List.replicate (7 - tail.length) false)
    (length : lengthOf context = 8 * message.length + tail.length) :
    (message ++ padding message padByte context.lengthHigh context.lengthLow).length =
      (SecureHash.pad (bits message ++ tail)).length / 512 * 64 := by
  have size := congrArg List.length (bits_padding short mark length)
  have whole := SecureHash.pad_whole (bits message ++ tail)
  rw [SecureHash.bits_length] at size
  omega

theorem padded_blocks {message : Bytes} {tail : Bits} {padByte : UInt8} {context : SHA256Context}
    (short : tail.length < 8) (mark : SecureHash.byteBits padByte = tail ++ true :: List.replicate (7 - tail.length) false)
    (length : lengthOf context = 8 * message.length + tail.length) :
    (BlockStream.cut 64 ((SecureHash.pad (bits message ++ tail)).length / 512)
      (message ++ padding message padByte context.lengthHigh context.lengthLow)).map bits =
      SecureHash.blocks (bits message ++ tail) := by
  rw [SecureHash.blocks, ← bits_padding short mark length]
  exact (BlockStream.cut_flatMap SecureHash.byteBits_length 64 _ _).symm

theorem foldl_compress (hash : Vector UInt32 8) {blocks : List Bytes} (whole : ∀ block ∈ blocks, block.length = 64) :
    hashValue (blocks.foldl compress hash) = (blocks.map bits).foldl SecureHash.compress (hashValue hash) :=
  BlockStream.foldl_map_state hashValue bits (fun hash block member => compress_eq (whole block member) hash) hash

theorem finalize_eq {H0 : Vector UInt32 8} {message : Bytes} {tail : Bits} {padByte : UInt8} {context : SHA256Context}
    (streams : Streams H0 message context) (short : tail.length < 8)
    (mark : SecureHash.byteBits padByte = tail ++ true :: List.replicate (7 - tail.length) false)
    (length : lengthOf context = 8 * message.length + tail.length) :
    ∃ after, finalize context padByte = some after ∧
      hashValue after.intermediateHash =
        (SecureHash.blocks (bits message ++ tail)).foldl SecureHash.compress (hashValue H0) ∧
      after.computed = 1 ∧ after.corrupted = context.corrupted := by
  obtain ⟨padded, written, onward, -, corrupted, -⟩ := padMessage_eq streams padByte
  have exact := padded_length short mark length
  have stream := onward.stream
  rw [← BlockStream.cut_flatten exact,
    BlockStream.absorbAll_blocks (Nat.succ_pos 63) H0 _ (BlockStream.cut_length exact)] at stream
  have hash := congrArg hashValue (Prod.mk.inj stream).1
  rw [foldl_compress H0 (BlockStream.cut_length exact), padded_blocks short mark length] at hash
  refine ⟨{ padded with
    messageBlock := Vector.replicate 64 0, lengthLow := 0, lengthHigh := 0, computed := 1 }, ?_, hash, rfl, corrupted⟩
  rw [finalize, written]
  rfl

theorem resultByte_mark : SecureHash.byteBits 0x80 = [] ++ true :: List.replicate (7 - ([] : Bits).length) false := by
  decide

theorem finalByte_mark (messageBits : UInt8) {length : Nat} (least : 0 < length) (most : length < 8) :
    SecureHash.byteBits ((messageBits &&& masks.getD length 0) ||| markbit.getD length 0) =
      (SecureHash.byteBits messageBits).take length ++ true :: List.replicate (7 - length) false := by
  have cases : length = 1 ∨ length = 2 ∨ length = 3 ∨ length = 4 ∨ length = 5 ∨ length = 6 ∨ length = 7 := by omega
  rcases cases with rfl | rfl | rfl | rfl | rfl | rfl | rfl <;>
    simp [masks, markbit, SecureHash.byteBits, List.range_succ, List.replicate_succ]

end SHA256

end Blockchain
