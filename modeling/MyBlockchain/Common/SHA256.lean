import MyBlockchain.Common.SHA256Helper

namespace Blockchain

/-- The eight variables `A` to `H` of `SHA224_256ProcessMessageBlock`. -/
structure WordBuffers where
  A : UInt32
  B : UInt32
  C : UInt32
  D : UInt32
  E : UInt32
  F : UInt32
  G : UInt32
  H : UInt32
  deriving DecidableEq, Repr

structure SHA256Context where
  intermediateHash : Vector UInt32 8
  lengthLow : UInt32
  lengthHigh : UInt32
  messageBlockIndex : Nat
  messageBlock : Vector UInt8 64
  computed : Nat
  corrupted : Nat
  deriving DecidableEq, Repr

namespace SHA256

def shaSuccess : Nat := 0
def shaNull : Nat := 1
def shaInputTooLong : Nat := 2
def shaStateError : Nat := 3
def shaBadParam : Nat := 4

def messageBlockSize : Nat := 64
def sha224HashSize : Nat := 28
def sha256HashSize : Nat := 32

def shr (bits word : UInt32) : UInt32 := word >>> bits
def rotr (bits word : UInt32) : UInt32 := (word >>> bits) ||| (word <<< (32 - bits))

def SIGMA0 (word : UInt32) : UInt32 := rotr 2 word ^^^ rotr 13 word ^^^ rotr 22 word
def SIGMA1 (word : UInt32) : UInt32 := rotr 6 word ^^^ rotr 11 word ^^^ rotr 25 word
def sigma0 (word : UInt32) : UInt32 := rotr 7 word ^^^ rotr 18 word ^^^ shr 3 word
def sigma1 (word : UInt32) : UInt32 := rotr 17 word ^^^ rotr 19 word ^^^ shr 10 word

def Ch (x y z : UInt32) : UInt32 := (x &&& y) ^^^ (~~~x &&& z)
def Maj (x y z : UInt32) : UInt32 := (x &&& y) ^^^ (x &&& z) ^^^ (y &&& z)

def sha224H0 : Vector UInt32 8 := #v[
  0xC1059ED8, 0x367CD507, 0x3070DD17, 0xF70E5939,
  0xFFC00B31, 0x68581511, 0x64F98FA7, 0xBEFA4FA4]

def sha256H0 : Vector UInt32 8 := #v[
  0x6A09E667, 0xBB67AE85, 0x3C6EF372, 0xA54FF53A,
  0x510E527F, 0x9B05688C, 0x1F83D9AB, 0x5BE0CD19]

def K : List UInt32 := [
  0x428a2f98, 0x71374491, 0xb5c0fbcf, 0xe9b5dba5, 0x3956c25b,
  0x59f111f1, 0x923f82a4, 0xab1c5ed5, 0xd807aa98, 0x12835b01,
  0x243185be, 0x550c7dc3, 0x72be5d74, 0x80deb1fe, 0x9bdc06a7,
  0xc19bf174, 0xe49b69c1, 0xefbe4786, 0x0fc19dc6, 0x240ca1cc,
  0x2de92c6f, 0x4a7484aa, 0x5cb0a9dc, 0x76f988da, 0x983e5152,
  0xa831c66d, 0xb00327c8, 0xbf597fc7, 0xc6e00bf3, 0xd5a79147,
  0x06ca6351, 0x14292967, 0x27b70a85, 0x2e1b2138, 0x4d2c6dfc,
  0x53380d13, 0x650a7354, 0x766a0abb, 0x81c2c92e, 0x92722c85,
  0xa2bfe8a1, 0xa81a664b, 0xc24b8b70, 0xc76c51a3, 0xd192e819,
  0xd6990624, 0xf40e3585, 0x106aa070, 0x19a4c116, 0x1e376c08,
  0x2748774c, 0x34b0bcb5, 0x391c0cb3, 0x4ed8aa4a, 0x5b9cca4f,
  0x682e6ff3, 0x748f82ee, 0x78a5636f, 0x84c87814, 0x8cc70208,
  0x90befffa, 0xa4506ceb, 0xbef9a3f7, 0xc67178f2]

/-- One of the first sixteen entries of `W`. -/
def messageWord (block : Bytes) (t4 : Nat) : UInt32 :=
  ((block.getD t4 0).toUInt32 <<< 24) ||| ((block.getD (t4 + 1) 0).toUInt32 <<< 16) |||
    ((block.getD (t4 + 2) 0).toUInt32 <<< 8) ||| (block.getD (t4 + 3) 0).toUInt32

def nextWord (W : List UInt32) (t : Nat) : UInt32 :=
  sigma1 (W.getD (t - 2) 0) + W.getD (t - 7) 0 + sigma0 (W.getD (t - 15) 0) + W.getD (t - 16) 0

def wordSequence (block : Bytes) : List UInt32 :=
  (List.range' 16 48).foldl (fun W t => W ++ [nextWord W t]) ((List.range 16).map fun t => messageWord block (4 * t))

def round (w : WordBuffers) (k word : UInt32) : WordBuffers :=
  let temp1 := w.H + SIGMA1 w.E + Ch w.E w.F w.G + k + word
  let temp2 := SIGMA0 w.A + Maj w.A w.B w.C
  { H := w.G, G := w.F, F := w.E, E := w.D + temp1, D := w.C, C := w.B, B := w.A, A := temp1 + temp2 }

def compress (hash : Vector UInt32 8) (block : Bytes) : Vector UInt32 8 :=
  let W := wordSequence block
  let start : WordBuffers :=
    { A := hash[0], B := hash[1], C := hash[2], D := hash[3], E := hash[4], F := hash[5], G := hash[6], H := hash[7] }
  let w := (List.range 64).foldl (fun w t => round w (K.getD t 0) (W.getD t 0)) start
  #v[hash[0] + w.A, hash[1] + w.B, hash[2] + w.C, hash[3] + w.D, hash[4] + w.E, hash[5] + w.F, hash[6] + w.G,
    hash[7] + w.H]

def processMessageBlock (context : SHA256Context) : SHA256Context :=
  { context with
    intermediateHash := compress context.intermediateHash context.messageBlock.toList, messageBlockIndex := 0 }

/-- `context->Message_Block[context->Message_Block_Index++] = byte`; `none` is a write past the array. -/
def put (context : SHA256Context) (byte : UInt8) : Option SHA256Context :=
  if inside : context.messageBlockIndex < 64 then
    some { context with
      messageBlock := context.messageBlock.set context.messageBlockIndex byte inside
      messageBlockIndex := context.messageBlockIndex + 1 }
  else none

/-- `SHA224_256AddLength` -/
def addLength (context : SHA256Context) (length : UInt32) : SHA256Context :=
  let addTemp := context.lengthLow
  let lengthLow := context.lengthLow + length
  if lengthLow < addTemp then
    let lengthHigh := context.lengthHigh + 1
    { context with lengthLow, lengthHigh, corrupted := if lengthHigh = 0 then 1 else 0 }
  else { context with lengthLow, corrupted := 0 }

/-- `SHA224_256Reset`: the message block keeps what is in it. -/
def reset (context : SHA256Context) (H0 : Vector UInt32 8) : SHA256Context :=
  { context with
    lengthLow := 0, lengthHigh := 0, messageBlockIndex := 0, intermediateHash := H0, computed := 0, corrupted := 0 }

def inputByte (context : SHA256Context) (byte : UInt8) : Option SHA256Context := do
  let context ← put context byte
  let context := addLength context 8
  if context.corrupted = 0 ∧ context.messageBlockIndex = messageBlockSize then
    return processMessageBlock context
  else return context

def inputLoop (context : SHA256Context) : Bytes → Option SHA256Context
  | [] => some context
  | byte :: message =>
    if context.corrupted ≠ 0 then some context
    else do
      let context ← inputByte context byte
      inputLoop context message

/-- `SHA256Input` of the first `length` bytes at `messageArray`, with its error code. -/
def input (context : SHA256Context) (messageArray : Bytes) (length : UInt32) : Option (SHA256Context × Nat) :=
  if length = 0 then some (context, shaSuccess)
  else if context.computed ≠ 0 then some ({ context with corrupted := shaStateError }, shaStateError)
  else if context.corrupted ≠ 0 then some (context, context.corrupted)
  else do
    let context ← inputLoop context (messageArray.take length.toNat)
    return (context, shaSuccess)

def padZeros (limit : Nat) : Nat → SHA256Context → Option SHA256Context
  | 0, context => some context
  | rounds + 1, context =>
    if context.messageBlockIndex < limit then do
      let context ← put context 0
      padZeros limit rounds context
    else some context

def storeLength (context : SHA256Context) : SHA256Context :=
  let high := context.lengthHigh
  let low := context.lengthLow
  { context with
    messageBlock := ((((((((context.messageBlock.set 56 (high >>> 24).toUInt8).set 57 (high >>> 16).toUInt8).set 58
      (high >>> 8).toUInt8).set 59 high.toUInt8).set 60 (low >>> 24).toUInt8).set 61 (low >>> 16).toUInt8).set 62
      (low >>> 8).toUInt8).set 63 low.toUInt8) }

/-- The pad byte, and where the length no longer fits behind it the rest of the block. -/
def padFirst (context : SHA256Context) (padByte : UInt8) : Option SHA256Context :=
  if messageBlockSize - 8 ≤ context.messageBlockIndex then do
    let context ← put context padByte
    let context ← padZeros messageBlockSize messageBlockSize context
    return processMessageBlock context
  else put context padByte

/-- `SHA224_256PadMessage` -/
def padMessage (context : SHA256Context) (padByte : UInt8) : Option SHA256Context := do
  let context ← padFirst context padByte
  let context ← padZeros (messageBlockSize - 8) messageBlockSize context
  return processMessageBlock (storeLength context)

def finalize (context : SHA256Context) (padByte : UInt8) : Option SHA256Context := do
  let context ← padMessage context padByte
  return { context with messageBlock := Vector.replicate 64 0, lengthLow := 0, lengthHigh := 0, computed := 1 }

def masks : List UInt8 := [0x00, 0x80, 0xC0, 0xE0, 0xF0, 0xF8, 0xFC, 0xFE]
def markbit : List UInt8 := [0x80, 0x40, 0x20, 0x10, 0x08, 0x04, 0x02, 0x01]

def finalBits (context : SHA256Context) (messageBits : UInt8) (length : UInt32) : Option (SHA256Context × Nat) :=
  if length = 0 then some (context, shaSuccess)
  else if context.computed ≠ 0 ∨ 8 ≤ length ∨ length = 0 then
    some ({ context with corrupted := shaStateError }, shaStateError)
  else if context.corrupted ≠ 0 then some (context, context.corrupted)
  else do
    let context := addLength context length
    let context ←
      finalize context ((messageBits &&& masks.getD length.toNat 0) ||| markbit.getD length.toNat 0)
    return (context, shaSuccess)

def digestByte (hash : Vector UInt32 8) (i : Nat) : UInt8 :=
  (hash.toList.getD (i >>> 2) 0 >>> (UInt32.ofNat (8 * (3 - (i &&& 3))))).toUInt8

def finalizeOnce (context : SHA256Context) : Option SHA256Context :=
  if context.computed = 0 then finalize context 0x80 else some context

/-- `SHA224_256ResultN`; the digest is `none` when the caller's array is left alone. -/
def resultN (context : SHA256Context) (hashSize : Nat) : Option (SHA256Context × Nat × Option Bytes) :=
  if context.corrupted ≠ 0 then some (context, context.corrupted, none)
  else do
    let context ← finalizeOnce context
    return (context, shaSuccess, some ((List.range hashSize).map (digestByte context.intermediateHash)))

end SHA256

end Blockchain
