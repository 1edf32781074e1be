import MyBlockchain.Common.SHA256
import MyBlockchain.Library.SecureHash

namespace Blockchain

namespace SHA256

open SecureHash (Word Working bits)

def hashValue (hash : Vector UInt32 8) : Working := .ofWords fun i => (hash.toList.getD i 0).toBitVec

theorem hashValue_injective {hash other : Vector UInt32 8} (same : hashValue hash = hashValue other) : hash = other := by
  have word (i : Nat) (inside : i < 8) : (hash.toList.getD i 0).toBitVec = (other.toList.getD i 0).toBitVec := by
    simp only [hashValue, Working.ofWords, Working.mk.injEq] at same
    obtain ⟨a, b, c, d, e, f, g, h⟩ := same
    rcases (show i = 0 ∨ i = 1 ∨ i = 2 ∨ i = 3 ∨ i = 4 ∨ i = 5 ∨ i = 6 ∨ i = 7 by omega) with
      rfl | rfl | rfl | rfl | rfl | rfl | rfl | rfl <;> assumption
  apply Vector.ext
  intro i inside
  have entry := UInt32.toBitVec_inj.mp (word i inside)
  simpa [List.getD_eq_getElem?_getD, inside] using entry

def working (w : WordBuffers) : Working :=
  ⟨w.A.toBitVec, w.B.toBitVec, w.C.toBitVec, w.D.toBitVec, w.E.toBitVec, w.F.toBitVec, w.G.toBitVec, w.H.toBitVec⟩

/-- The table is the one the standard derives from the cube roots of primes. -/
theorem K_eq {t : Nat} (inside : t < 64) : (K.getD t 0).toBitVec = SecureHash.K t := by
  unfold SecureHash.K
  rw [SecureHash.primes_eq]
  revert t
  decide +kernel

theorem sha256H0_eq : hashValue sha256H0 = SecureHash.initial256 := by
  unfold SecureHash.initial256
  rw [SecureHash.primes_eq]
  decide +kernel

theorem sha224H0_eq : hashValue sha224H0 = SecureHash.initial224 := by
  unfold SecureHash.initial224
  rw [SecureHash.primes_eq]
  decide +kernel

theorem SIGMA0_eq (w : UInt32) : (SIGMA0 w).toBitVec = SecureHash.bigSigma0 w.toBitVec := by
  simp [SIGMA0, SecureHash.bigSigma0, rotr, BitVec.rotateRight_def]

theorem SIGMA1_eq (w : UInt32) : (SIGMA1 w).toBitVec = SecureHash.bigSigma1 w.toBitVec := by
  simp [SIGMA1, SecureHash.bigSigma1, rotr, BitVec.rotateRight_def]

theorem sigma0_eq (w : UInt32) : (sigma0 w).toBitVec = SecureHash.smallSigma0 w.toBitVec := by
  simp [sigma0, SecureHash.smallSigma0, rotr, shr, BitVec.rotateRight_def]

theorem sigma1_eq (w : UInt32) : (sigma1 w).toBitVec = SecureHash.smallSigma1 w.toBitVec := by
  simp [sigma1, SecureHash.smallSigma1, rotr, shr, BitVec.rotateRight_def]

theorem Ch_eq (x y z : UInt32) : (Ch x y z).toBitVec = SecureHash.choose x.toBitVec y.toBitVec z.toBitVec := by
  simp [Ch, SecureHash.choose]

theorem Maj_eq (x y z : UInt32) : (Maj x y z).toBitVec = SecureHash.majority x.toBitVec y.toBitVec z.toBitVec := by
  simp [Maj, SecureHash.majority]

theorem round_eq (w : WordBuffers) (k word : UInt32) :
    working (round w k word) = SecureHash.step (working w) k.toBitVec word.toBitVec := by
  simp only [working, round, SecureHash.step, UInt32.toBitVec_add, SIGMA0_eq, SIGMA1_eq, Ch_eq, Maj_eq]

theorem bits_getD_cons (byte : UInt8) (bytes : Bytes) (i : Nat) :
    (bits (byte :: bytes)).getD i false =
      if i < 8 then byte.toBitVec.getMsbD i else (bits bytes).getD (i - 8) false := by
  rw [SecureHash.bits_cons, List.getD_eq_getElem?_getD, List.getD_eq_getElem?_getD]
  split
  · next inside =>
    rw [List.getElem?_append_left (by rwa [SecureHash.byteBits_length])]
    simp [SecureHash.byteBits, inside]
  · next later => rw [List.getElem?_append_right (by rw [SecureHash.byteBits_length]; omega),
      SecureHash.byteBits_length]

theorem messageWord_four (first second third fourth : UInt8) (rest : Bytes) :
    (messageWord (first :: second :: third :: fourth :: rest) 0).toBitVec =
      SecureHash.word (bits [first, second, third, fourth]) := by
  apply BitVec.eq_of_getMsbD_eq
  intro i inside
  rw [SecureHash.word_getMsbD (by simp), bits_getD_cons, bits_getD_cons, bits_getD_cons, bits_getD_cons]
  have past (byte : UInt8) (j : Nat) (beyond : 8 ≤ j) : byte.toBitVec.getMsbD j = false :=
    BitVec.getMsbD_of_ge _ _ beyond
  simp only [messageWord, List.getD_cons_zero, List.getD_cons_succ, UInt32.toBitVec_or, BitVec.getMsbD_or]
  by_cases one : i < 8
  · simp [one, show ¬ 8 ≤ i by omega, show ¬ 16 ≤ i by omega, show ¬ 24 ≤ i by omega]
  · by_cases two : i < 16
    · simp [one, show 8 ≤ i by omega, show ¬ 16 ≤ i by omega, show ¬ 24 ≤ i by omega, show i - 8 < 8 by omega]
    · by_cases three : i < 24
      · simp [one, past _ i (by omega), show 16 ≤ i by omega, show ¬ 24 ≤ i by omega, show ¬ i - 8 < 8 by omega,
          show i - 8 - 8 < 8 by omega, show i - 16 = i - 8 - 8 by omega]
      · simp [one, past _ i (by omega), past _ (i - 8) (by omega),
          show 24 ≤ i by omega, show ¬ i - 8 < 8 by omega, show ¬ i - 8 - 8 < 8 by omega,
          show i - 8 - 8 - 8 < 8 by omega, show i - 24 = i - 8 - 8 - 8 by omega]

theorem messageWord_drop (block : Bytes) (t4 : Nat) : messageWord block t4 = messageWord (block.drop t4) 0 := by
  simp [messageWord, List.getD_eq_getElem?_getD, List.getElem?_drop]

theorem messageWord_eq {block : Bytes} (size : block.length = 64) {t : Nat} (inside : t < 16) :
    (messageWord block (4 * t)).toBitVec = SecureHash.blockWord (bits block) t := by
  have four : 4 ≤ (block.drop (4 * t)).length := by
    rw [List.length_drop]
    omega
  have word : (bits (block.drop (4 * t))).take 32 = bits ((block.drop (4 * t)).take 4) :=
    (BlockStream.flatMap_split SecureHash.byteBits_length _ 4).1
  rw [messageWord_drop, SecureHash.blockWord, show 32 * t = 4 * t * 8 by omega, bits,
    (BlockStream.flatMap_split SecureHash.byteBits_length block (4 * t)).2, ← bits, word]
  match split : block.drop (4 * t) with
  | first :: second :: third :: fourth :: rest => exact messageWord_four first second third fourth rest
  | [] | [_] | [_, _] | [_, _, _] =>
    rw [split] at four
    simp at four

theorem wordSequence_extends {block : Bytes} (size : block.length = 64) (n : Nat) :
    let W := (List.range' 16 n).foldl (fun W t => W ++ [nextWord W t])
      ((List.range 16).map fun t => messageWord block (4 * t))
    W.length = 16 + n ∧ ∀ t < 16 + n, (W.getD t 0).toBitVec = SecureHash.schedule (SecureHash.blockWord (bits block)) t := by
  induction n with
  | zero =>
    refine ⟨by simp, fun t inside => ?_⟩
    have input : t < 16 := inside
    rw [SecureHash.schedule_input input, ← messageWord_eq size input]
    simp [List.getD_eq_getElem?_getD, input]
  | succ n ih =>
    simp only [List.range'_concat, Nat.one_mul, List.foldl_append, List.foldl_cons, List.foldl_nil] at ih ⊢
    generalize (List.range' 16 n).foldl (fun W t => W ++ [nextWord W t])
      ((List.range 16).map fun t => messageWord block (4 * t)) = W at ih ⊢
    obtain ⟨filled, words⟩ := ih
    refine ⟨by rw [List.length_append, filled]; rfl, fun t inside => ?_⟩
    by_cases last : t = 16 + n
    · have recent (back : Nat) (some : 0 < back) (first : back ≤ 16) :=
        words (16 + n - back) (by omega)
      rw [last, List.getD_eq_getElem?_getD, ← filled, List.getElem?_concat_length, Option.getD_some, filled, nextWord,
        SecureHash.schedule_later (by omega)]
      simp only [UInt32.toBitVec_add, sigma0_eq, sigma1_eq, recent 2 (by omega) (by omega),
        recent 7 (by omega) (by omega), recent 15 (by omega) (by omega), recent 16 (by omega) (by omega)]
    · rw [List.getD_eq_getElem?_getD, List.getElem?_append_left (by omega), ← List.getD_eq_getElem?_getD]
      exact words t (by omega)

theorem wordSequence_eq {block : Bytes} (size : block.length = 64) {t : Nat} (inside : t < 64) :
    ((wordSequence block).getD t 0).toBitVec = SecureHash.schedule (SecureHash.blockWord (bits block)) t :=
  (wordSequence_extends size 48).2 t inside

theorem rounds_eq {block : Bytes} (size : block.length = 64) (ts : List Nat) (inside : ∀ t ∈ ts, t < 64)
    (w : WordBuffers) :
    working (ts.foldl (fun w t => round w (K.getD t 0) ((wordSequence block).getD t 0)) w) =
      ts.foldl (fun v t => SecureHash.step v (SecureHash.K t)
        (SecureHash.schedule (SecureHash.blockWord (bits block)) t)) (working w) := by
  induction ts generalizing w with
  | nil => rfl
  | cons t ts ih =>
    have first : t < 64 := inside t (List.mem_cons_self ..)
    rw [List.foldl_cons, List.foldl_cons, ih fun other member => inside other (List.mem_cons_of_mem _ member),
      round_eq, K_eq first, wordSequence_eq size first]

theorem compress_eq {block : Bytes} (size : block.length = 64) (hash : Vector UInt32 8) :
    hashValue (compress hash block) = SecureHash.compress (hashValue hash) (bits block) := by
  have rounds := rounds_eq size (List.range 64) (fun t member => List.mem_range.mp member)
    ⟨hash[0], hash[1], hash[2], hash[3], hash[4], hash[5], hash[6], hash[7]⟩
  have start : working ⟨hash[0], hash[1], hash[2], hash[3], hash[4], hash[5], hash[6], hash[7]⟩ = hashValue hash := by
    simp [working, hashValue, Working.ofWords, List.getD_eq_getElem?_getD]
  rw [SecureHash.compress, ← start, ← rounds, start]
  simp [compress, hashValue, Working.ofWords, Working.add, working, List.getD_eq_getElem?_getD]

theorem word_bytes (w : UInt32) :
    bits [(w >>> 24).toUInt8, (w >>> 16).toUInt8, (w >>> 8).toUInt8, w.toUInt8] = SecureHash.wordBits w.toBitVec := by
  simp [bits, SecureHash.byteBits, SecureHash.wordBits, List.range_succ, BitVec.getMsbD_setWidth]

theorem digestByte_eq (hash : Vector UInt32 8) (i : Nat) {j : Nat} (inside : j < 4) :
    digestByte hash (4 * i + j) = (hash.toList.getD i 0 >>> UInt32.ofNat (8 * (3 - j))).toUInt8 := by
  have index : (4 * i + j) >>> 2 = i := by
    rw [Nat.shiftRight_eq_div_pow]
    omega
  have place : (4 * i + j) &&& 3 = j := by
    rw [Nat.and_two_pow_sub_one_eq_mod _ 2]
    omega
  rw [digestByte, index, place]

theorem digest_bits (hash : Vector UInt32 8) :
    bits ((List.range sha256HashSize).map (digestByte hash)) = (hashValue hash).words.flatMap SecureHash.wordBits := by
  have grouped (f : Nat → UInt8) : (List.range sha256HashSize).map f =
      (List.range 8).flatMap fun i => [f (4 * i + 0), f (4 * i + 1), f (4 * i + 2), f (4 * i + 3)] := rfl
  have words : (hashValue hash).words = (List.range 8).map fun i => (hash.toList.getD i 0).toBitVec := rfl
  rw [grouped, words, bits, List.flatMap_assoc, List.flatMap_map]
  congr 1
  funext i
  rw [digestByte_eq hash i (by omega), digestByte_eq hash i (by omega), digestByte_eq hash i (by omega),
    digestByte_eq hash i (by omega), ← word_bytes]
  simp [bits]

end SHA256

end Blockchain
