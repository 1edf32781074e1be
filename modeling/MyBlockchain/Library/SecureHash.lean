import Mathlib.Data.Nat.NthRoot.Defs
import Mathlib.Data.Nat.Prime.Defs
import Mathlib.Data.Nat.Sqrt
import MyBlockchain.Library.BlockStream

/-! The hash functions of FIPS 180-2 for 32-bit words, on strings of bits. -/

namespace SecureHash

abbrev Bits := List Bool
abbrev Word := BitVec 32

def byteBits (byte : UInt8) : Bits := (List.range 8).map byte.toBitVec.getMsbD
def bits (bytes : List UInt8) : Bits := bytes.flatMap byteBits
def wordBits (w : Word) : Bits := (List.range 32).map w.getMsbD
def word (string : Bits) : Word := (BitVec.ofBoolListBE string).setWidth 32

def choose (x y z : Word) : Word := (x &&& y) ^^^ (~~~x &&& z)
def majority (x y z : Word) : Word := (x &&& y) ^^^ (x &&& z) ^^^ (y &&& z)

def bigSigma0 (x : Word) : Word := x.rotateRight 2 ^^^ x.rotateRight 13 ^^^ x.rotateRight 22
def bigSigma1 (x : Word) : Word := x.rotateRight 6 ^^^ x.rotateRight 11 ^^^ x.rotateRight 25
def smallSigma0 (x : Word) : Word := x.rotateRight 7 ^^^ x.rotateRight 18 ^^^ x >>> 3
def smallSigma1 (x : Word) : Word := x.rotateRight 17 ^^^ x.rotateRight 19 ^^^ x >>> 10

/-- The first sixty-four primes, sieved by the numbers up to the square root of the last. -/
def primes : List Nat :=
  (List.range 312).filter fun n => 2 ≤ n && (List.range 18).all fun d => d < 2 || n ≤ d || n % d != 0

/-- The first thirty-two bits of the fractional part of a prime's cube root. -/
def K (t : Nat) : Word := BitVec.ofNat 32 (Nat.nthRoot 3 (primes.getD t 0 * 2 ^ 96))

/-- The working variables, and the hash value. -/
structure Working where
  a : Word
  b : Word
  c : Word
  d : Word
  e : Word
  f : Word
  g : Word
  h : Word
  deriving DecidableEq

namespace Working

def add (v w : Working) : Working :=
  ⟨v.a + w.a, v.b + w.b, v.c + w.c, v.d + w.d, v.e + w.e, v.f + w.f, v.g + w.g, v.h + w.h⟩

def words (v : Working) : List Word := [v.a, v.b, v.c, v.d, v.e, v.f, v.g, v.h]

def ofWords (word : Nat → Word) : Working :=
  ⟨word 0, word 1, word 2, word 3, word 4, word 5, word 6, word 7⟩

end Working

/-- Of the square roots of the first eight primes, the first thirty-two bits of the fractional parts. -/
def initial256 : Working := .ofWords fun i => BitVec.ofNat 32 (Nat.sqrt (primes.getD i 0 * 2 ^ 64))

/-- Of the square roots of the next eight primes, the second thirty-two bits. -/
def initial224 : Working := .ofWords fun i => BitVec.ofNat 32 (Nat.sqrt (primes.getD (8 + i) 0 * 2 ^ 128))

def schedule (block : Nat → Word) (t : Nat) : Word :=
  if _ : t < 16 then block t
  else
    smallSigma1 (schedule block (t - 2)) + schedule block (t - 7) + smallSigma0 (schedule block (t - 15)) +
      schedule block (t - 16)
termination_by t

def step (v : Working) (k w : Word) : Working :=
  let t1 := v.h + bigSigma1 v.e + choose v.e v.f v.g + k + w
  let t2 := bigSigma0 v.a + majority v.a v.b v.c
  { h := v.g, g := v.f, f := v.e, e := v.d + t1, d := v.c, c := v.b, b := v.a, a := t1 + t2 }

def blockWord (block : Bits) (t : Nat) : Word := word ((block.drop (32 * t)).take 32)

def compress (v : Working) (block : Bits) : Working :=
  v.add ((List.range 64).foldl (fun v t => step v (K t) (schedule (blockWord block) t)) v)

def paddingZeros (length : Nat) : Nat := (512 + 447 - length % 512) % 512

def lengthBits (length : Nat) : Bits := (List.range 64).map (BitVec.ofNat 64 length).getMsbD

def pad (message : Bits) : Bits :=
  message ++ (true :: (List.replicate (paddingZeros message.length) false ++ lengthBits message.length))

def blocks (message : Bits) : List Bits := BlockStream.cut 512 ((pad message).length / 512) (pad message)

def digest (initial : Working) (message : Bits) : Bits :=
  ((blocks message).foldl compress initial).words.flatMap wordBits

def sha256 (message : Bits) : Bits := digest initial256 message
def sha224 (message : Bits) : Bits := (digest initial224 message).take 224

theorem mem_primes (n : Nat) : n ∈ primes ↔ n < 312 ∧ n.Prime := by
  unfold primes
  rw [List.mem_filter, List.mem_range]
  apply and_congr_right
  intro bound
  simp only [Bool.and_eq_true, decide_eq_true_eq, List.all_eq_true, List.mem_range, Bool.or_eq_true, bne_iff_ne]
  constructor
  · rintro ⟨two, free⟩
    rw [Nat.prime_def_le_sqrt]
    refine ⟨two, fun d least below divides => ?_⟩
    have smaller : d < n := Nat.lt_of_le_of_lt below (Nat.sqrt_lt_self two)
    have root : n.sqrt < 18 := Nat.sqrt_lt.mpr (by omega)
    rcases free d (by omega) with (small | large) | remainder
    · omega
    · omega
    · exact remainder (Nat.mod_eq_zero_of_dvd divides)
  · intro prime
    refine ⟨prime.two_le, fun d _ => ?_⟩
    by_cases tested : 2 ≤ d ∧ d < n
    · right
      intro divides
      exact (Nat.prime_def_lt'.mp prime).2 d tested.1 tested.2 (Nat.dvd_of_mod_eq_zero divides)
    · left
      omega

theorem primes_eq : primes = [
    2, 3, 5, 7, 11, 13, 17, 19, 23, 29, 31, 37, 41, 43, 47, 53, 59, 61, 67, 71, 73, 79, 83, 89, 97, 101, 103, 107, 109,
    113, 127, 131, 137, 139, 149, 151, 157, 163, 167, 173, 179, 181, 191, 193, 197, 199, 211, 223, 227, 229, 233, 239,
    241, 251, 257, 263, 269, 271, 277, 281, 283, 293, 307, 311] := by decide +kernel

theorem byteBits_length (byte : UInt8) : (byteBits byte).length = 8 := by simp [byteBits]

@[simp] theorem bits_nil : bits [] = [] := rfl

theorem bits_cons (byte : UInt8) (bytes : List UInt8) : bits (byte :: bytes) = byteBits byte ++ bits bytes := rfl

theorem bits_append (bytes more : List UInt8) : bits (bytes ++ more) = bits bytes ++ bits more :=
  List.flatMap_append

@[simp] theorem bits_length (bytes : List UInt8) : (bits bytes).length = 8 * bytes.length := by
  induction bytes with
  | nil => rfl
  | cons byte bytes ih => rw [bits_cons, List.length_append, byteBits_length, ih, List.length_cons, Nat.mul_succ,
      Nat.add_comm]

theorem byteBits_injective {byte other : UInt8} (same : byteBits byte = byteBits other) : byte = other := by
  apply UInt8.toBitVec_inj.mp
  apply BitVec.eq_of_getMsbD_eq
  intro i inside
  have entry := congrArg (·[i]?) same
  simpa [byteBits, inside] using entry

theorem flatMap_injective {α γ : Type*} {width : Nat} {image : α → List γ} (positive : 0 < width)
    (uniform : ∀ item, (image item).length = width) (injective : ∀ item other, image item = image other → item = other)
    {items others : List α} (same : items.flatMap image = others.flatMap image) : items = others := by
  have filled (item : α) (rest : List γ) : image item ++ rest ≠ [] := by
    intro empty
    have size := congrArg List.length empty
    rw [List.length_append, uniform, List.length_nil] at size
    omega
  induction items generalizing others with
  | nil =>
    cases others with
    | nil => rfl
    | cons other others => exact absurd same.symm (filled other _)
  | cons item items ih =>
    cases others with
    | nil => exact absurd same (filled item _)
    | cons other others =>
      rw [List.flatMap_cons, List.flatMap_cons] at same
      obtain ⟨first, rest⟩ := List.append_inj same ((uniform item).trans (uniform other).symm)
      rw [injective item other first, ih rest]

theorem bits_injective {bytes other : List UInt8} (same : bits bytes = bits other) : bytes = other :=
  flatMap_injective (Nat.succ_pos 7) byteBits_length (fun _ _ => byteBits_injective) same

theorem wordBits_length (w : Word) : (wordBits w).length = 32 := by simp [wordBits]

theorem wordBits_injective {w w' : Word} (same : wordBits w = wordBits w') : w = w' := by
  apply BitVec.eq_of_getMsbD_eq
  intro i inside
  have entry := congrArg (·[i]?) same
  simpa [wordBits, inside] using entry

theorem word_getMsbD {string : Bits} (size : string.length = 32) (i : Nat) :
    (word string).getMsbD i = string.getD i false := by
  simp [word, BitVec.getMsbD_setWidth, BitVec.getMsbD_ofBoolListBE, size]

theorem sha256_length (message : Bits) : (sha256 message).length = 256 := by
  simp [sha256, digest, Working.words, wordBits_length]

theorem words_injective {v w : Working}
    (same : v.words.flatMap wordBits = w.words.flatMap wordBits) : v = w := by
  have equal := flatMap_injective (Nat.succ_pos 31) wordBits_length (fun _ _ => wordBits_injective) same
  cases v
  cases w
  simpa [Working.words] using equal

theorem schedule_input {block : Nat → Word} {t : Nat} (input : t < 16) : schedule block t = block t := by
  rw [schedule, dif_pos input]

theorem schedule_later {block : Nat → Word} {t : Nat} (later : 16 ≤ t) :
    schedule block t = smallSigma1 (schedule block (t - 2)) + schedule block (t - 7) +
      smallSigma0 (schedule block (t - 15)) + schedule block (t - 16) := by
  rw [schedule, dif_neg (Nat.not_lt.mpr later)]

theorem lengthBits_length (length : Nat) : (lengthBits length).length = 64 := by simp [lengthBits]

theorem lengthBits_injective {length other : Nat} (below : length < 2 ^ 64) (below' : other < 2 ^ 64)
    (same : lengthBits length = lengthBits other) : length = other := by
  have equal : BitVec.ofNat 64 length = BitVec.ofNat 64 other := by
    apply BitVec.eq_of_getMsbD_eq
    intro i inside
    have entry := congrArg (·[i]?) same
    simpa [lengthBits, inside] using entry
  have values := congrArg BitVec.toNat equal
  rwa [BitVec.toNat_ofNat, BitVec.toNat_ofNat, Nat.mod_eq_of_lt below, Nat.mod_eq_of_lt below'] at values

theorem pad_length (message : Bits) :
    (pad message).length = message.length + 1 + paddingZeros message.length + 64 := by
  simp only [pad, List.length_append, List.length_cons, List.length_replicate, lengthBits_length]
  omega

theorem paddingZeros_least (length : Nat) : (length + 1 + paddingZeros length + 64) % 512 = 0 ∧
    ∀ zeros, (length + 1 + zeros + 64) % 512 = 0 → paddingZeros length ≤ zeros := by
  unfold paddingZeros
  constructor
  · omega
  · intro zeros fits
    omega

theorem pad_whole (message : Bits) : (pad message).length = (pad message).length / 512 * 512 := by
  have fits := (paddingZeros_least message.length).1
  rw [← pad_length] at fits
  omega

theorem blocks_flatten (message : Bits) : (blocks message).flatten = pad message :=
  BlockStream.cut_flatten (pad_whole message)

theorem block_length (message : Bits) : ∀ block ∈ blocks message, block.length = 512 :=
  BlockStream.cut_length (pad_whole message)

theorem blocks_nonempty (message : Bits) : blocks message ≠ [] := by
  intro none
  have empty := blocks_flatten message
  rw [none, List.flatten_nil] at empty
  have positive := pad_length message
  rw [← empty, List.length_nil] at positive
  omega

theorem last_block (message : Bits) {init : List Bits} {last : Bits} (split : blocks message = init ++ [last]) :
    last.drop 448 = lengthBits message.length := by
  have size : last.length = 512 := block_length message last (by rw [split]; simp)
  have flat := blocks_flatten message
  rw [split, List.flatten_append, List.flatten_singleton, pad] at flat
  have cut : init.flatten ++ last.take 448 ++ last.drop 448 =
      message ++ (true :: List.replicate (paddingZeros message.length) false) ++ lengthBits message.length := by
    rw [List.append_assoc, List.take_append_drop, flat, List.append_assoc]
    rfl
  have tails : (last.drop 448).length = (lengthBits message.length).length := by
    rw [List.length_drop, size, lengthBits_length]
  exact (List.append_inj' cut tails).2

theorem pad_injective {message other : Bits} (below : message.length < 2 ^ 64) (below' : other.length < 2 ^ 64)
    (same : pad message = pad other) : message = other := by
  have parts : message ++ (true :: List.replicate (paddingZeros message.length) false) ++ lengthBits message.length =
      other ++ (true :: List.replicate (paddingZeros other.length) false) ++ lengthBits other.length := by
    simpa only [pad, List.append_assoc, List.cons_append] using same
  have tails : (lengthBits message.length).length = (lengthBits other.length).length := by
    rw [lengthBits_length, lengthBits_length]
  have lengths := lengthBits_injective below below' (List.append_inj' parts tails).2
  exact (List.append_inj same lengths).1

theorem blocks_strengthened {message other : Bits} (below : message.length < 2 ^ 64)
    (below' : other.length < 2 ^ 64) (differ : (blocks message).length ≠ (blocks other).length) :
    blocks message ≠ [] ∧ blocks other ≠ [] ∧ (blocks message).getLast? ≠ (blocks other).getLast? := by
  refine ⟨blocks_nonempty message, blocks_nonempty other, fun same => differ ?_⟩
  have last := List.dropLast_append_getLast (blocks_nonempty message)
  have last' := List.dropLast_append_getLast (blocks_nonempty other)
  rw [List.getLast?_eq_some_getLast (blocks_nonempty message),
    List.getLast?_eq_some_getLast (blocks_nonempty other)] at same
  have ends := (last_block message last.symm).symm.trans
    ((congrArg (List.drop 448) (Option.some.inj same)).trans (last_block other last'.symm))
  have lengths := lengthBits_injective below below' ends
  rw [blocks, blocks, BlockStream.cut_count, BlockStream.cut_count, pad_length, pad_length, lengths]

theorem blocks_injective {message other : Bits} (below : message.length < 2 ^ 64) (below' : other.length < 2 ^ 64)
    (same : blocks message = blocks other) : message = other := by
  apply pad_injective below below'
  rw [← blocks_flatten, ← blocks_flatten, same]

end SecureHash
