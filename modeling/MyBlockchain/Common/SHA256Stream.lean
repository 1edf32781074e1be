import MyBlockchain.Common.SHA256Words

namespace Blockchain

namespace SHA256

def live (context : SHA256Context) : Bytes := context.messageBlock.toList.take context.messageBlockIndex

structure Puts (context : SHA256Context) (bytes : Bytes) (after : SHA256Context) : Prop where
  live : live after = live context ++ bytes
  index : after.messageBlockIndex = context.messageBlockIndex + bytes.length
  rest : after = { context with
    messageBlock := after.messageBlock, messageBlockIndex := after.messageBlockIndex }

theorem Puts.refl (context : SHA256Context) : Puts context [] context where
  live := (List.append_nil _).symm
  index := rfl
  rest := rfl

theorem Puts.trans {context middle after : SHA256Context} {bytes more : Bytes} (first : Puts context bytes middle)
    (second : Puts middle more after) : Puts context (bytes ++ more) after where
  live := by rw [second.live, first.live, List.append_assoc]
  index := by rw [second.index, first.index, List.length_append, Nat.add_assoc]
  rest := by
    have inner := second.rest
    rw [first.rest] at inner
    exact inner

theorem live_length {context : SHA256Context} (room : context.messageBlockIndex ≤ 64) :
    (live context).length = context.messageBlockIndex := by
  rw [live, List.length_take, Vector.length_toList, Nat.min_eq_left room]

theorem put_eq (context : SHA256Context) (byte : UInt8) (room : context.messageBlockIndex < 64) :
    ∃ after, put context byte = some after ∧ Puts context [byte] after := by
  refine ⟨_, dif_pos room, ?_, rfl, rfl⟩
  have inside : context.messageBlockIndex < context.messageBlock.toList.length := by rwa [Vector.length_toList]
  simp only [live, Vector.toList_set]
  rw [List.take_succ_eq_append_getElem (by rwa [List.length_set]), List.getElem_set_self,
    List.take_set_of_le (Nat.le_refl _)]

theorem padZeros_eq (limit rounds : Nat) (context : SHA256Context) (block : limit ≤ 64)
    (before : context.messageBlockIndex ≤ limit) (enough : limit ≤ context.messageBlockIndex + rounds) :
    ∃ after, padZeros limit rounds context = some after ∧
      Puts context (List.replicate (limit - context.messageBlockIndex) 0) after := by
  induction rounds generalizing context with
  | zero =>
    rw [show limit - context.messageBlockIndex = 0 by omega]
    exact ⟨context, rfl, .refl context⟩
  | succ rounds ih =>
    unfold padZeros
    split
    · next room =>
      obtain ⟨middle, written, first⟩ := put_eq context 0 (by omega)
      have index : middle.messageBlockIndex = context.messageBlockIndex + 1 := first.index
      obtain ⟨after, padded, second⟩ := ih middle (by omega) (by omega)
      have zeros : [(0 : UInt8)] ++ List.replicate (limit - middle.messageBlockIndex) 0 =
          List.replicate (limit - context.messageBlockIndex) 0 := by
        rw [show limit - context.messageBlockIndex = limit - middle.messageBlockIndex + 1 by omega]
        rfl
      refine ⟨after, ?_, zeros ▸ first.trans second⟩
      rw [written]
      exact padded
    · rw [show limit - context.messageBlockIndex = 0 by omega]
      exact ⟨context, rfl, .refl context⟩

structure Streams (H0 : Vector UInt32 8) (fed : Bytes) (context : SHA256Context) : Prop where
  stream : (context.intermediateHash, live context) = BlockStream.absorbAll 64 compress (H0, []) fed
  room : context.messageBlockIndex < 64

theorem Streams.index {H0 : Vector UInt32 8} {fed : Bytes} {context : SHA256Context}
    (streams : Streams H0 fed context) : context.messageBlockIndex = fed.length % 64 := by
  have length := @BlockStream.absorbAll_length _ _ 64 compress (Nat.succ_pos 63) H0 [] fed (Nat.succ_pos 63)
  rw [← streams.stream, live_length (Nat.le_of_lt streams.room), List.length_nil, Nat.zero_add] at length
  exact length

variable {H0 : Vector UInt32 8} {fed : Bytes} {context : SHA256Context}

theorem Streams.put {bytes : Bytes} {after : SHA256Context} (streams : Streams H0 fed context)
    (puts : Puts context bytes after) (room : after.messageBlockIndex < 64) : Streams H0 (fed ++ bytes) after where
  stream := by
    have short : (live context).length + bytes.length < 64 := by
      rwa [live_length (Nat.le_of_lt streams.room), ← puts.index]
    rw [BlockStream.absorbAll_append, ← streams.stream, BlockStream.absorbAll_short short, puts.live, puts.rest]
  room := room

theorem Streams.process {bytes : Bytes} {after : SHA256Context} (streams : Streams H0 fed context)
    (puts : Puts context bytes after) (full : after.messageBlockIndex = 64) :
    Streams H0 (fed ++ bytes) (processMessageBlock after) where
  stream := by
    have whole : (live context).length + bytes.length = 64 := by
      rwa [live_length (Nat.le_of_lt streams.room), ← puts.index]
    have some : bytes ≠ [] := by
      rintro rfl
      have room := streams.room
      have index := puts.index
      rw [List.length_nil] at index
      omega
    have block : after.messageBlock.toList = live context ++ bytes := by
      rw [← puts.live, live, full, List.take_of_length_le (by rw [Vector.length_toList])]
    have hash : after.intermediateHash = context.intermediateHash := by rw [puts.rest]
    rw [BlockStream.absorbAll_append, ← streams.stream, BlockStream.absorbAll_block some whole, ← block, ← hash]
    rfl
  room := Nat.succ_pos 63

def lengthBytes (high low : UInt32) : Bytes :=
  [(high >>> 24).toUInt8, (high >>> 16).toUInt8, (high >>> 8).toUInt8, high.toUInt8,
    (low >>> 24).toUInt8, (low >>> 16).toUInt8, (low >>> 8).toUInt8, low.toUInt8]

theorem storeLength_puts (start : context.messageBlockIndex = 56) :
    Puts context (lengthBytes context.lengthHigh context.lengthLow)
      { storeLength context with messageBlockIndex := 64 } where
  live := by
    have size : context.messageBlock.toList.length = 64 := Vector.length_toList
    obtain ⟨front, last, split, tail⟩ : ∃ front last, context.messageBlock.toList = front ++ last ∧
        front.length = 56 :=
      ⟨_, _, (List.take_append_drop 56 _).symm, by rw [List.length_take, size]; rfl⟩
    have eight : last.length = 8 := by
      rw [split, List.length_append, tail] at size
      omega
    simp only [live, storeLength, Vector.toList_set, start, split]
    match last, eight with
    | [a, b, c, d, e, f, g, h], _ =>
      have short : front.length ≤ 64 := by omega
      simp [tail, lengthBytes, List.take_append, List.take_of_length_le short]
  index := by rw [start]; rfl
  rest := rfl

def padding (fed : Bytes) (padByte : UInt8) (high low : UInt32) : Bytes :=
  padByte :: (List.replicate ((119 - fed.length % 64) % 64) 0 ++ lengthBytes high low)

theorem finish (streams : Streams H0 fed context) (start : context.messageBlockIndex = 56) :
    Streams H0 (fed ++ lengthBytes context.lengthHigh context.lengthLow) (processMessageBlock (storeLength context)) := by
  have full : Streams H0 _ (processMessageBlock { storeLength context with messageBlockIndex := 64 }) :=
    streams.process (storeLength_puts start) rfl
  exact full

theorem padMessage_eq (streams : Streams H0 fed context) (padByte : UInt8) :
    ∃ after, padMessage context padByte = some after ∧
      Streams H0 (fed ++ padding fed padByte context.lengthHigh context.lengthLow) after ∧
      after.computed = context.computed ∧ after.corrupted = context.corrupted ∧ after.messageBlockIndex = 0 := by
  have index := streams.index
  obtain ⟨marked, written, mark⟩ := put_eq context padByte streams.room
  have next : marked.messageBlockIndex = context.messageBlockIndex + 1 := mark.index
  unfold padMessage
  by_cases late : 56 ≤ context.messageBlockIndex
  · -- the length does not fit behind the pad byte: zeros fill this block and most of the next one
    obtain ⟨filled, padded, fill⟩ := padZeros_eq 64 64 marked (Nat.le_refl 64)
      (by have := streams.room; omega) (by omega)
    have full : filled.messageBlockIndex = 64 := by
      rw [fill.index, List.length_replicate]
      have := streams.room
      omega
    have onward := streams.process (mark.trans fill) full
    obtain ⟨last, padded', fill'⟩ := padZeros_eq 56 64 (processMessageBlock filled)
      (by decide) (Nat.zero_le _) (Nat.le_add_left _ _)
    have place : last.messageBlockIndex = 56 := fill'.index
    have done := finish (onward.put fill' (by omega)) place
    have zeros : (119 - fed.length % 64) % 64 = 64 - marked.messageBlockIndex + 56 := by omega
    refine ⟨processMessageBlock (storeLength last), ?_, ?_, ?_, ?_, rfl⟩
    · have first : padFirst context padByte = some (processMessageBlock filled) := by
        unfold padFirst
        rw [if_pos (by exact late), written]
        show padZeros 64 64 marked >>= _ = _
        rw [padded]
        rfl
      have second : padZeros (messageBlockSize - 8) messageBlockSize (processMessageBlock filled) = some last := padded'
      simp only [first, second, Option.bind_eq_bind, Option.bind_some]
      rfl
    · have high : last.lengthHigh = context.lengthHigh := by rw [fill'.rest, processMessageBlock, (mark.trans fill).rest]
      have low : last.lengthLow = context.lengthLow := by rw [fill'.rest, processMessageBlock, (mark.trans fill).rest]
      rw [high, low] at done
      rw [padding, zeros, ← List.replicate_append_replicate]
      simpa [processMessageBlock] using done
    · show last.computed = _
      rw [fill'.rest, processMessageBlock, (mark.trans fill).rest]
    · show last.corrupted = _
      rw [fill'.rest, processMessageBlock, (mark.trans fill).rest]
  · obtain ⟨last, padded, fill⟩ := padZeros_eq 56 64 marked (by decide)
      (by omega) (by omega)
    have both := mark.trans fill
    have place : last.messageBlockIndex = 56 := by
      rw [fill.index, List.length_replicate]
      omega
    have done := finish (streams.put both (by omega)) place
    have zeros : (119 - fed.length % 64) % 64 = 56 - marked.messageBlockIndex := by omega
    refine ⟨processMessageBlock (storeLength last), ?_, ?_, ?_, ?_, rfl⟩
    · have first : padFirst context padByte = some marked := by
        unfold padFirst
        rw [if_neg (by exact late), written]
      have second : padZeros (messageBlockSize - 8) messageBlockSize marked = some last := padded
      simp only [first, second, Option.bind_eq_bind, Option.bind_some]
      rfl
    · have high : last.lengthHigh = context.lengthHigh := by rw [both.rest]
      have low : last.lengthLow = context.lengthLow := by rw [both.rest]
      rw [high, low] at done
      rw [padding, zeros]
      simpa using done
    · show last.computed = _
      rw [both.rest]
    · show last.corrupted = _
      rw [both.rest]

end SHA256

end Blockchain
