import MyBlockchain.Common.SHA256Digest

namespace Blockchain

open SecureHash (Bits Working bits)

/-- A hash in progress as its callers see it: the message so far, and the error that a wrong call left behind. -/
inductive HashMachine
  | collecting (initial : Working) (message : Bytes)
  | finished (initial : Working) (message : Bits)
  | refused (code : Nat)

/-- The functions of `sha224_256.c`. The size of what is input is narrowed to `unsigned int` on the way in. -/
inductive HashCall
  | reset224
  | reset256
  | input (data : Bytes)
  | finalBits (messageBits : UInt8) (length : UInt32)
  | result224
  | result256

namespace HashCall

def narrowed (data : Bytes) : UInt32 := UInt32.ofNat data.length

open SHA256 in
def call (context : SHA256Context) : HashCall → Option (SHA256Context × Nat × Option Bytes)
  | reset224 => some (reset context sha224H0, shaSuccess, none)
  | reset256 => some (reset context sha256H0, shaSuccess, none)
  | input data => (SHA256.input context data (narrowed data)).map fun (context, code) => (context, code, none)
  | finalBits messageBits length =>
    (SHA256.finalBits context messageBits length).map fun (context, code) => (context, code, none)
  | result224 => resultN context sha224HashSize
  | result256 => resultN context sha256HashSize

def answers : SHA256Context → List HashCall → Option (List (Nat × Option Bytes))
  | _, [] => some []
  | context, next :: calls => do
    let (context, answer) ← call context next
    let later ← answers context calls
    return answer :: later

end HashCall

namespace HashMachine

open SHA256 (shaSuccess shaStateError)

def input (data : Bytes) : HashMachine → HashMachine × Nat
  | collecting initial message =>
    if data = [] ∨ 8 * (message.length + data.length) < 2 ^ 64 then (collecting initial (message ++ data), shaSuccess)
    else (refused 1, shaSuccess)
  | finished initial message =>
    if data = [] then (finished initial message, shaSuccess) else (refused shaStateError, shaStateError)
  | refused code => if data = [] then (refused code, shaSuccess) else (refused code, code)

def finalBits (messageBits : UInt8) (length : Nat) : HashMachine → HashMachine × Nat
  | collecting initial message =>
    if length = 0 then (collecting initial message, shaSuccess)
    else if 8 ≤ length then (refused shaStateError, shaStateError)
    else (finished initial (bits message ++ (SecureHash.byteBits messageBits).take length), shaSuccess)
  | finished initial message =>
    if length = 0 then (finished initial message, shaSuccess) else (refused shaStateError, shaStateError)
  | refused code =>
    if length = 0 then (refused code, shaSuccess)
    else if 8 ≤ length then (refused shaStateError, shaStateError)
    else (refused code, code)

/-- A message is finished by the first result, and the result can be asked for again. -/
def result (size : Nat) : HashMachine → HashMachine × Nat × Option Bits
  | collecting initial message =>
    (finished initial (bits message), shaSuccess, some ((SecureHash.digest initial (bits message)).take size))
  | finished initial message =>
    (finished initial message, shaSuccess, some ((SecureHash.digest initial message).take size))
  | refused code => (refused code, code, none)

def step (machine : HashMachine) : HashCall → HashMachine × Nat × Option Bits
  | .reset224 => (collecting SecureHash.initial224 [], shaSuccess, none)
  | .reset256 => (collecting SecureHash.initial256 [], shaSuccess, none)
  | .input data =>
    ((machine.input (data.take (data.length % 2 ^ 32))).1, (machine.input (data.take (data.length % 2 ^ 32))).2, none)
  | .finalBits messageBits length =>
    ((machine.finalBits messageBits length.toNat).1, (machine.finalBits messageBits length.toNat).2, none)
  | .result224 => machine.result 224
  | .result256 => machine.result 256

def answers : HashMachine → List HashCall → List (Nat × Option Bits)
  | _, [] => []
  | machine, next :: calls => (machine.step next).2 :: answers (machine.step next).1 calls

end HashMachine

namespace SHA256

structure Collects (H0 : Vector UInt32 8) (message : Bytes) (context : SHA256Context) : Prop where
  streams : Streams H0 message context
  length : lengthOf context = 8 * message.length
  computed : context.computed = 0
  corrupted : context.corrupted = 0

/-- The machine that a context behaves as. -/
inductive Behaves (context : SHA256Context) : HashMachine → Prop
  | collecting {H0 : Vector UInt32 8} {message : Bytes} (collects : Collects H0 message context) :
    Behaves context (.collecting (hashValue H0) message)
  | finished {initial : Working} {message : Bits}
    (hash : hashValue context.intermediateHash = (SecureHash.blocks message).foldl SecureHash.compress initial)
    (computed : context.computed = 1) (corrupted : context.corrupted = 0) :
    Behaves context (.finished initial message)
  | refused (corrupted : context.corrupted ≠ 0)
    (after : context.computed ≠ 0 → context.corrupted = shaStateError) : Behaves context (.refused context.corrupted)

theorem reset_collects (context : SHA256Context) (H0 : Vector UInt32 8) : Collects H0 [] (reset context H0) where
  streams := ⟨Prod.ext rfl (@List.take_zero _ context.messageBlock.toList), Nat.succ_pos 63⟩
  length := by simp [lengthOf, reset]
  computed := rfl
  corrupted := rfl

variable {H0 : Vector UInt32 8} {message : Bytes} {context : SHA256Context}

theorem Collects.byte (collects : Collects H0 message context) (byte : UInt8) :
    ∃ after, inputByte context byte = some after ∧ after.computed = 0 ∧
      (8 * (message.length + 1) < 2 ^ 64 → Collects H0 (message ++ [byte]) after) ∧
      (2 ^ 64 ≤ 8 * (message.length + 1) → after.corrupted = 1) := by
  obtain ⟨written, put, puts⟩ := put_eq context byte collects.streams.room
  obtain ⟨counted, flag, -⟩ := addLength_eq written 8
  obtain ⟨same, index, hash, computed⟩ := addLength_block written 8
  have eight : (8 : UInt32).toNat = 8 := rfl
  have before : lengthOf written = 8 * message.length := by rw [puts.rest, ← collects.length]; rfl
  have fresh : written.computed = 0 := by rw [puts.rest]; exact collects.computed
  rw [before, eight] at counted flag
  unfold inputByte
  rw [put]
  show ∃ after, (if (addLength written 8).corrupted = 0 ∧ (addLength written 8).messageBlockIndex = messageBlockSize then
      some (processMessageBlock (addLength written 8)) else some (addLength written 8)) = some after ∧ _
  by_cases fits : 8 * (message.length + 1) < 2 ^ 64
  · have sound : (addLength written 8).corrupted = 0 := by
      rw [flag, if_neg (by omega)]
    have length : lengthOf (addLength written 8) = 8 * (message ++ [byte]).length := by
      rw [counted, List.length_append, List.length_singleton]
      omega
    by_cases full : written.messageBlockIndex = 64
    · rw [if_pos ⟨sound, index.trans full⟩]
      have onward := collects.streams.process puts full
      have block : (addLength written 8).messageBlock = written.messageBlock := by
        rw [(addLength_eq written 8).2.2]
      refine ⟨_, rfl, computed.trans fresh, fun _ => ⟨⟨?_, Nat.succ_pos 63⟩, length, computed.trans fresh, sound⟩,
        fun beyond => absurd fits (Nat.not_lt.mpr beyond)⟩
      show (compress (addLength written 8).intermediateHash (addLength written 8).messageBlock.toList,
        (addLength written 8).messageBlock.toList.take 0) = _
      rw [hash, block]
      exact onward.stream
    · have waiting : ¬ ((addLength written 8).corrupted = 0 ∧
          (addLength written 8).messageBlockIndex = messageBlockSize) := by
        rw [index]
        exact fun both => full both.2
      rw [if_neg waiting]
      have room : written.messageBlockIndex < 64 := by
        have next : written.messageBlockIndex = context.messageBlockIndex + 1 := puts.index
        have before := collects.streams.room
        omega
      refine ⟨_, rfl, computed.trans fresh, fun _ => ?_, fun beyond => absurd fits (Nat.not_lt.mpr beyond)⟩
      exact ⟨(collects.streams.put puts room).addLength 8, length, computed.trans fresh, sound⟩
  · have overflow : (addLength written 8).corrupted = 1 := by
      rw [flag, if_pos (by omega)]
    rw [if_neg (by rw [overflow]; exact fun both => Nat.one_ne_zero both.1)]
    exact ⟨_, rfl, computed.trans fresh, fun inside => absurd inside fits, fun _ => overflow⟩

theorem inputLoop_corrupted {context : SHA256Context} (corrupted : context.corrupted ≠ 0) (data : Bytes) :
    inputLoop context data = some context := by
  cases data with
  | nil => rfl
  | cons byte data => rw [inputLoop, if_pos corrupted]

/-- The loop takes the data, or stops at the byte that makes 2^64 bits. -/
theorem Collects.loop (collects : Collects H0 message context) (data : Bytes) :
    ∃ after, inputLoop context data = some after ∧
      (8 * (message.length + data.length) < 2 ^ 64 → Collects H0 (message ++ data) after) ∧
      (2 ^ 64 ≤ 8 * (message.length + data.length) → after.corrupted = 1 ∧ after.computed = 0) := by
  induction data generalizing message context with
  | nil =>
    refine ⟨context, rfl, fun _ => by rwa [List.append_nil], fun beyond => ?_⟩
    have bound : lengthOf context < 2 ^ 64 := by
      have low : context.lengthLow.toNat < 2 ^ 32 := context.lengthLow.toNat_lt
      have high : context.lengthHigh.toNat < 2 ^ 32 := context.lengthHigh.toNat_lt
      unfold lengthOf
      omega
    rw [collects.length] at bound
    exact absurd beyond (Nat.not_le.mpr bound)
  | cons byte data ih =>
    rw [List.length_cons]
    obtain ⟨middle, first, computed, inside, overflow⟩ := collects.byte byte
    rw [inputLoop, if_neg (not_not.mpr collects.corrupted), first]
    show ∃ after, inputLoop middle data = some after ∧ _
    by_cases fits : 8 * (message.length + 1) < 2 ^ 64
    · obtain ⟨after, rest, taken, refused⟩ := ih (inside fits)
      rw [List.length_append, List.length_singleton, Nat.add_assoc, Nat.add_comm 1, List.append_assoc] at taken
      rw [List.length_append, List.length_singleton, Nat.add_assoc, Nat.add_comm 1] at refused
      exact ⟨after, rest, taken, refused⟩
    · have corrupted := overflow (Nat.le_of_not_lt fits)
      rw [inputLoop_corrupted (by rw [corrupted]; exact Nat.one_ne_zero)]
      exact ⟨middle, rfl, fun within => absurd within (by omega), fun _ => ⟨corrupted, computed⟩⟩

theorem narrowed_toNat (data : Bytes) : (HashCall.narrowed data).toNat = data.length % 2 ^ 32 :=
  UInt32.toNat_ofNat'

theorem narrowed_zero (data : Bytes) :
    HashCall.narrowed data = 0 ↔ data.take (data.length % 2 ^ 32) = [] := by
  rw [← UInt32.toNat_inj, narrowed_toNat, List.take_eq_nil_iff]
  have zero : (0 : UInt32).toNat = 0 := rfl
  rw [zero]
  constructor
  · exact Or.inl
  · intro none
    rcases none with none | none
    · exact none
    · rw [none]
      rfl

theorem Behaves.input {machine : HashMachine} (behaves : Behaves context machine) (data : Bytes) :
    ∃ after, SHA256.input context data (HashCall.narrowed data) =
        some (after, (machine.input (data.take (data.length % 2 ^ 32))).2) ∧
      Behaves after (machine.input (data.take (data.length % 2 ^ 32))).1 := by
  unfold SHA256.input
  by_cases none : data.take (data.length % 2 ^ 32) = []
  · rw [if_pos ((narrowed_zero data).mpr none), none]
    cases behaves with
    | collecting collects =>
      have stays := Behaves.collecting collects
      refine ⟨context, rfl, ?_⟩
      simpa [HashMachine.input] using stays
    | finished hash computed corrupted => exact ⟨context, rfl, .finished hash computed corrupted⟩
    | refused corrupted after => exact ⟨context, rfl, .refused corrupted after⟩
  · rw [if_neg (mt (narrowed_zero data).mp none), narrowed_toNat]
    generalize data.take (data.length % 2 ^ 32) = taken at none
    cases behaves with
    | collecting collects =>
      obtain ⟨after, fed, inside, beyond⟩ := collects.loop taken
      rw [if_neg (not_not.mpr collects.computed), if_neg (not_not.mpr collects.corrupted), fed]
      dsimp only [HashMachine.input]
      split
      · next fits => exact ⟨after, rfl, .collecting (inside (fits.resolve_left none))⟩
      · next full =>
        obtain ⟨corrupted, computed⟩ := beyond (Nat.le_of_not_lt fun fits => full (.inr fits))
        have refused : Behaves after (.refused after.corrupted) :=
          .refused (by rw [corrupted]; exact Nat.one_ne_zero) fun done => absurd computed done
        rw [corrupted] at refused
        exact ⟨after, rfl, refused⟩
    | finished hash computed corrupted =>
      rw [if_pos (by rw [computed]; exact Nat.one_ne_zero)]
      dsimp only [HashMachine.input]
      rw [if_neg none]
      exact ⟨_, rfl, .refused (by exact Nat.succ_ne_zero 2) fun _ => rfl⟩
    | refused corrupted after =>
      dsimp only [HashMachine.input]
      rw [if_neg none]
      by_cases done : context.computed ≠ 0
      · rw [if_pos done, after done]
        exact ⟨_, rfl, .refused (by exact Nat.succ_ne_zero 2) fun _ => rfl⟩
      · rw [if_neg done, if_pos corrupted]
        exact ⟨context, rfl, .refused corrupted after⟩

theorem Collects.finalize (collects : Collects H0 message context) {counted : SHA256Context} {tail : Bits}
    {padByte : UInt8} (streams : Streams H0 message counted) (sound : counted.corrupted = 0) (short : tail.length < 8)
    (mark : SecureHash.byteBits padByte = tail ++ true :: List.replicate (7 - tail.length) false)
    (length : lengthOf counted = lengthOf context + tail.length) :
    ∃ after, SHA256.finalize counted padByte = some after ∧
      Behaves after (.finished (hashValue H0) (bits message ++ tail)) := by
  rw [collects.length] at length
  obtain ⟨after, finished, hash, computed, corrupted⟩ := finalize_eq streams short mark length
  exact ⟨after, finished, .finished hash computed (corrupted.trans sound)⟩

theorem Collects.finalBits (collects : Collects H0 message context) (messageBits : UInt8) {length : UInt32}
    (least : 0 < length.toNat) (most : length.toNat < 8) :
    ∃ after, SHA256.finalize (addLength context length)
        ((messageBits &&& masks.getD length.toNat 0) ||| markbit.getD length.toNat 0) = some after ∧
      Behaves after (.finished (hashValue H0) (bits message ++ (SecureHash.byteBits messageBits).take length.toNat)) := by
  have tail : ((SecureHash.byteBits messageBits).take length.toNat).length = length.toNat := by
    rw [List.length_take, SecureHash.byteBits_length]
    omega
  obtain ⟨counted, flag, -⟩ := addLength_eq context length
  -- whole bytes leave room for less than a byte below 2^64 bits
  have room : lengthOf context + length.toNat < 2 ^ 64 := by
    have low : context.lengthLow.toNat < 2 ^ 32 := context.lengthLow.toNat_lt
    have high : context.lengthHigh.toNat < 2 ^ 32 := context.lengthHigh.toNat_lt
    have whole := collects.length
    have bound : lengthOf context < 2 ^ 64 := by
      unfold lengthOf
      omega
    omega
  apply collects.finalize (collects.streams.addLength length)
  · rw [flag, if_neg (Nat.not_le.mpr room)]
  · rwa [tail]
  · rw [tail]
    exact finalByte_mark messageBits least most
  · rw [tail, counted, Nat.mod_eq_of_lt room]

theorem Behaves.finalBits {machine : HashMachine} (behaves : Behaves context machine) (messageBits : UInt8)
    (length : UInt32) :
    ∃ after, SHA256.finalBits context messageBits length = some (after, (machine.finalBits messageBits length.toNat).2) ∧
      Behaves after (machine.finalBits messageBits length.toNat).1 := by
  have zero : length = 0 ↔ length.toNat = 0 := by
    rw [← UInt32.toNat_inj]
    rfl
  have eight : 8 ≤ length ↔ 8 ≤ length.toNat := UInt32.le_iff_toNat_le
  unfold SHA256.finalBits
  by_cases none : length.toNat = 0
  · rw [if_pos (zero.mpr none)]
    cases behaves with
    | collecting collects =>
      dsimp only [HashMachine.finalBits]
      rw [if_pos none]
      exact ⟨context, rfl, .collecting collects⟩
    | finished hash computed corrupted =>
      dsimp only [HashMachine.finalBits]
      rw [if_pos none]
      exact ⟨context, rfl, .finished hash computed corrupted⟩
    | refused corrupted after =>
      dsimp only [HashMachine.finalBits]
      rw [if_pos none]
      exact ⟨context, rfl, .refused corrupted after⟩
  · have refuse (wrong : context.computed ≠ 0 ∨ 8 ≤ length.toNat) : ∃ after,
        (if context.computed ≠ 0 ∨ 8 ≤ length ∨ length = 0 then
          some ({ context with corrupted := shaStateError }, shaStateError)
        else if context.corrupted ≠ 0 then some (context, context.corrupted)
        else do
          let context := addLength context length
          let context ← SHA256.finalize context
            ((messageBits &&& masks.getD length.toNat 0) ||| markbit.getD length.toNat 0)
          return (context, shaSuccess)) = some (after, shaStateError) ∧
        Behaves after (.refused shaStateError) := by
      rw [if_pos (wrong.imp_right fun large => .inl (eight.mpr large))]
      exact ⟨_, rfl, .refused (by exact Nat.succ_ne_zero 2) fun _ => rfl⟩
    rw [if_neg (mt zero.mp none)]
    cases behaves with
    | collecting collects =>
      dsimp only [HashMachine.finalBits]
      rw [if_neg none]
      by_cases large : 8 ≤ length.toNat
      · rw [if_pos large]
        exact refuse (.inr large)
      · have right : ¬ (context.computed ≠ 0 ∨ 8 ≤ length ∨ length = 0) := by
          rw [eight, zero]
          exact fun wrong => wrong.elim (fun done => done collects.computed) fun bad => bad.elim large none
        obtain ⟨after, finished, behaves⟩ := collects.finalBits messageBits (Nat.pos_of_ne_zero none)
          (Nat.lt_of_not_le large)
        rw [if_neg large, if_neg right, if_neg (not_not.mpr collects.corrupted)]
        dsimp only
        rw [finished]
        exact ⟨after, rfl, behaves⟩
    | finished hash computed corrupted =>
      dsimp only [HashMachine.finalBits]
      rw [if_neg none]
      exact refuse (.inl (by rw [computed]; exact Nat.one_ne_zero))
    | refused corrupted after =>
      dsimp only [HashMachine.finalBits]
      rw [if_neg none]
      by_cases large : 8 ≤ length.toNat
      · rw [if_pos large]
        exact refuse (.inr large)
      · rw [if_neg large]
        by_cases done : context.computed ≠ 0
        · rw [if_pos (.inl done), after done]
          exact ⟨_, rfl, .refused (by exact Nat.succ_ne_zero 2) fun _ => rfl⟩
        · have right : ¬ (context.computed ≠ 0 ∨ 8 ≤ length ∨ length = 0) := by
            rw [eight, zero]
            exact fun wrong => wrong.elim done fun bad => bad.elim large none
          rw [if_neg right, if_pos corrupted]
          exact ⟨context, rfl, .refused corrupted after⟩

theorem digest_take (hash : Vector UInt32 8) {size : Nat} (within : size ≤ sha256HashSize) :
    bits ((List.range size).map (digestByte hash)) =
      ((hashValue hash).words.flatMap SecureHash.wordBits).take (8 * size) := by
  have shorter : (List.range size).map (digestByte hash) =
      ((List.range sha256HashSize).map (digestByte hash)).take size := by
    rw [← List.map_take, List.take_range, Nat.min_eq_left within]
  rw [shorter, ← digest_bits, Nat.mul_comm]
  exact (BlockStream.flatMap_split SecureHash.byteBits_length _ size).1.symm

theorem Behaves.result {machine : HashMachine} (behaves : Behaves context machine) {size : Nat}
    (within : size ≤ sha256HashSize) :
    ∃ after digest, resultN context size = some (after, (machine.result (8 * size)).2.1, digest) ∧
      digest.map bits = (machine.result (8 * size)).2.2 ∧ Behaves after (machine.result (8 * size)).1 := by
  -- a context that is finished gives the digest out of its intermediate hash
  have give {after : SHA256Context} {initial : Working} {message : Bits}
      (behaves : Behaves after (.finished initial message)) :
      bits ((List.range size).map (digestByte after.intermediateHash)) =
        (SecureHash.digest initial message).take (8 * size) := by
    cases behaves with
    | finished hash computed corrupted => rw [digest_take _ within, hash, SecureHash.digest]
  unfold resultN
  cases behaves with
  | collecting collects =>
    have short : ([] : Bits).length < 8 := Nat.succ_pos 7
    obtain ⟨after, finished, behaves⟩ := collects.finalize collects.streams collects.corrupted short resultByte_mark
      (Nat.add_zero _).symm
    rw [List.append_nil] at behaves
    rw [if_neg (not_not.mpr collects.corrupted), finalizeOnce, if_pos collects.computed, finished]
    exact ⟨after, _, rfl, congrArg some (give behaves), behaves⟩
  | finished hash computed corrupted =>
    have behaves := Behaves.finished hash computed corrupted
    rw [if_neg (not_not.mpr corrupted), finalizeOnce, if_neg (by rw [computed]; exact Nat.one_ne_zero)]
    exact ⟨context, _, rfl, congrArg some (give behaves), behaves⟩
  | refused corrupted after =>
    rw [if_pos corrupted]
    exact ⟨context, none, rfl, rfl, .refused corrupted after⟩

theorem Behaves.call {machine : HashMachine} (behaves : Behaves context machine) (next : HashCall) :
    ∃ after code digest, HashCall.call context next = some (after, code, digest) ∧
      (code, digest.map bits) = (machine.step next).2 ∧ Behaves after (machine.step next).1 := by
  cases next with
  | reset224 =>
    have fresh := Behaves.collecting (reset_collects context sha224H0)
    rw [sha224H0_eq] at fresh
    exact ⟨_, _, _, rfl, rfl, fresh⟩
  | reset256 =>
    have fresh := Behaves.collecting (reset_collects context sha256H0)
    rw [sha256H0_eq] at fresh
    exact ⟨_, _, _, rfl, rfl, fresh⟩
  | input data =>
    obtain ⟨after, fed, onward⟩ := behaves.input data
    refine ⟨after, _, none, ?_, rfl, onward⟩
    rw [HashCall.call, fed]
    rfl
  | finalBits messageBits length =>
    obtain ⟨after, fed, onward⟩ := behaves.finalBits messageBits length
    refine ⟨after, _, none, ?_, rfl, onward⟩
    rw [HashCall.call, fed]
    rfl
  | result224 =>
    obtain ⟨after, digest, given, same, onward⟩ := @Behaves.result _ _ behaves 28 (by decide)
    exact ⟨after, _, digest, given, Prod.ext rfl same, onward⟩
  | result256 =>
    obtain ⟨after, digest, given, same, onward⟩ := @Behaves.result _ _ behaves 32 (Nat.le_refl 32)
    exact ⟨after, _, digest, given, Prod.ext rfl same, onward⟩

theorem Behaves.answers {machine : HashMachine} (behaves : Behaves context machine) (calls : List HashCall) :
    (HashCall.answers context calls).map (List.map fun answer => (answer.1, answer.2.map bits)) =
      some (machine.answers calls) := by
  induction calls generalizing context machine with
  | nil => rfl
  | cons next calls ih =>
    obtain ⟨after, code, digest, called, same, onward⟩ := behaves.call next
    obtain ⟨later, answered, equal⟩ := Option.map_eq_some_iff.mp (ih onward)
    rw [HashCall.answers, called, HashMachine.answers, ← same, ← equal]
    show (HashCall.answers after calls >>= _).map _ = _
    rw [answered]
    rfl

/-- Whatever is called after a reset, and whatever was in the context before, no write leaves the message block, and
every code and digest is the machine's: a digest is that of the standard for the message that was fed. -/
theorem context_behaves_as_machine (context : SHA256Context) (calls : List HashCall) :
    (HashCall.answers context (.reset256 :: calls)).map (List.map fun answer => (answer.1, answer.2.map bits)) =
        some ((shaSuccess, none) :: HashMachine.answers (.collecting SecureHash.initial256 []) calls) ∧
      (HashCall.answers context (.reset224 :: calls)).map (List.map fun answer => (answer.1, answer.2.map bits)) =
        some ((shaSuccess, none) :: HashMachine.answers (.collecting SecureHash.initial224 []) calls) := by
  have first (H0 : Vector UInt32 8) := (Behaves.collecting (reset_collects context H0)).answers calls
  constructor
  · obtain ⟨later, answered, equal⟩ := Option.map_eq_some_iff.mp (first sha256H0)
    rw [← sha256H0_eq, ← equal, HashCall.answers, HashCall.call]
    show (HashCall.answers (reset context sha256H0) calls >>= _).map _ = _
    rw [answered]
    rfl
  · obtain ⟨later, answered, equal⟩ := Option.map_eq_some_iff.mp (first sha224H0)
    rw [← sha224H0_eq, ← equal, HashCall.answers, HashCall.call]
    show (HashCall.answers (reset context sha224H0) calls >>= _).map _ = _
    rw [answered]
    rfl

end SHA256

end Blockchain
