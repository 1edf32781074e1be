import Mathlib.Algebra.Ring.Nat
import Mathlib.Data.List.Basic
import MyBlockchain.Transaction.MockTransaction

namespace Blockchain

namespace Base64Text

def letters (text : String) : Bytes := text.toList.map fun letter => UInt8.ofNat letter.toNat

def chars (url : Bool) : Bytes :=
  letters "ABCDEFGHIJKLMNOPQRSTUVWXYZ" ++ letters "abcdefghijklmnopqrstuvwxyz" ++ letters "0123456789" ++
    letters (if url then "-_" else "+/")

def newline : UInt8 := 10

/-- `none` is the exception. -/
def posOfChar (chr : UInt8) : Option Nat :=
  if 65 ≤ chr.toNat ∧ chr.toNat ≤ 90 then some (chr.toNat - 65)
  else if 97 ≤ chr.toNat ∧ chr.toNat ≤ 122 then some (chr.toNat - 97 + (90 - 65) + 1)
  else if 48 ≤ chr.toNat ∧ chr.toNat ≤ 57 then some (chr.toNat - 48 + (90 - 65) + (122 - 97) + 2)
  -- '+' or '-'
  else if chr.toNat = 43 ∨ chr.toNat = 45 then some 62
  -- '/' or '_'
  else if chr.toNat = 47 ∨ chr.toNat = 95 then some 63
  else none

def trailingChar (url : Bool) : UInt8 := if url then 46 else 61

/-- What a round of `base64_encode` pushes, with the positions of the `unsigned int` that wraps. -/
def encodeRound (url : Bool) (bytes : Bytes) (pos : Nat) : Bytes :=
  let at_ (offset : Nat) : Nat := (pos + offset) % 2 ^ 32
  let byte (offset : Nat) : UInt8 := bytes.getD (at_ offset) 0
  let char (index : UInt8) : UInt8 := (chars url).getD index.toNat 0
  char ((byte 0 &&& 0xfc) >>> 2) ::
    if at_ 1 < bytes.length then
      char (((byte 0 &&& 0x03) <<< 4) + ((byte 1 &&& 0xf0) >>> 4)) ::
        if at_ 2 < bytes.length then
          [char (((byte 1 &&& 0x0f) <<< 2) + ((byte 2 &&& 0xc0) >>> 6)), char (byte 2 &&& 0x3f)]
        else [char ((byte 1 &&& 0x0f) <<< 2), trailingChar url]
    else [char ((byte 0 &&& 0x03) <<< 4), trailingChar url, trailingChar url]

/-- `none` when the rounds do not last. -/
def encodeLoop (url : Bool) (bytes : Bytes) : Nat → Nat → Bytes → Option Bytes
  | 0, _, _ => none
  | rounds + 1, pos, ret =>
    if pos < bytes.length then
      encodeLoop url bytes rounds ((pos + 3) % 2 ^ 32) (ret ++ encodeRound url bytes pos)
    else some ret

/-- `base64_encode`, if it returns after so many rounds. -/
def encode (rounds : Nat) (bytes : Bytes) (url : Bool) : Option Bytes := encodeLoop url bytes rounds 0 []

def insertLoop (distance : Nat) : Nat → Nat → Bytes → Option Bytes
  | 0, _, _ => none
  | rounds + 1, pos, str =>
    if pos < str.length then insertLoop distance rounds (pos + (distance + 1)) (str.insertIdx pos newline) else some str

def insertLinebreaks (rounds : Nat) (str : Bytes) (distance : Nat) : Option Bytes :=
  if str.length = 0 then some [] else insertLoop distance rounds distance str

def encodeWithLineBreaks (lineLength rounds : Nat) (bytes : Bytes) : Option Bytes := do
  let text ← encode rounds bytes false
  insertLinebreaks rounds text lineLength

def encodePem (rounds : Nat) (bytes : Bytes) : Option Bytes := encodeWithLineBreaks 64 rounds bytes
def encodeMime (rounds : Nat) (bytes : Bytes) : Option Bytes := encodeWithLineBreaks 76 rounds bytes

/-- `=` or `.` -/
def isTrailing (chr : UInt8) : Bool := chr.toNat = 61 || chr.toNat = 46

/-- What a round of `decode` pushes. A string has a zero at its end. -/
def decodeRound (text : Bytes) (pos : Nat) : Option Bytes := do
  let char (offset : Nat) : UInt8 := text.getD (pos + offset) 0
  let posOfChar1 ← posOfChar (char 1)
  let posOfChar0 ← posOfChar (char 0)
  let ret := [UInt8.ofNat ((posOfChar0 <<< 2) + ((posOfChar1 &&& 0x30) >>> 4))]
  if pos + 2 < text.length ∧ isTrailing (char 2) = false then
    let posOfChar2 ← posOfChar (char 2)
    let ret := ret ++ [UInt8.ofNat (((posOfChar1 &&& 0x0f) <<< 4) + ((posOfChar2 &&& 0x3c) >>> 2))]
    if pos + 3 < text.length ∧ isTrailing (char 3) = false then
      let posOfChar3 ← posOfChar (char 3)
      return ret ++ [UInt8.ofNat (((posOfChar2 &&& 0x03) <<< 6) + posOfChar3)]
    else return ret
  else return ret

/-- Each round moves `pos` by four: there are no more rounds than characters. -/
def decodeLoop (text : Bytes) : Nat → Nat → Bytes → Option Bytes
  | 0, _, ret => some ret
  | rounds + 1, pos, ret =>
    if pos < text.length then do
      let pushed ← decodeRound text pos
      decodeLoop text rounds (pos + 4) (ret ++ pushed)
    else some ret

def decode (text : Bytes) (removeLinebreaks : Bool) : Option Bytes :=
  let text := if removeLinebreaks then text.filter (· ≠ newline) else text
  if text.isEmpty then some [] else decodeLoop text text.length 0 []

end Base64Text

end Blockchain
