import Mathlib.Algebra.Ring.Nat

namespace Varint

def groups : Nat → Nat → List UInt8
  | 0, value => [UInt8.ofNat value]
  | rounds + 1, value =>
    if 128 ≤ value then UInt8.ofNat (128 + value % 128) :: groups rounds (value / 128)
    else [UInt8.ofNat value]

def encode (value : Nat) : List UInt8 := groups value value

/-- The value at the front of some bytes, with what follows, when it ends within `limit` bytes. -/
def decode : Nat → List UInt8 → Option (Nat × List UInt8)
  | 0, _ | _ + 1, [] => none
  | limit + 1, byte :: rest =>
    if byte < 128 then some (byte.toNat, rest)
    else (decode limit rest).map fun (high, rest) => (byte.toNat - 128 + 128 * high, rest)

theorem groups_enough {value rounds : Nat} (enough : value ≤ rounds) (more : Nat) :
    groups (rounds + more) value = groups rounds value := by
  induction rounds generalizing value with
  | zero =>
    obtain rfl := Nat.le_zero.mp enough
    cases more <;> rfl
  | succ rounds ih =>
    rw [Nat.add_right_comm, groups, groups]
    split
    · rw [ih (by omega)]
    · rfl

theorem encode_small {value : Nat} (small : value < 128) : encode value = [UInt8.ofNat value] := by
  cases value with
  | zero => rfl
  | succ value => rw [encode, groups, if_neg (by omega)]

theorem encode_large {value : Nat} (large : 128 ≤ value) :
    encode value = UInt8.ofNat (128 + value % 128) :: encode (value / 128) := by
  obtain ⟨rounds, rfl⟩ : ∃ rounds, value = rounds + 1 := ⟨value - 1, by omega⟩
  have enough := groups_enough (Nat.le_refl ((rounds + 1) / 128)) (rounds - (rounds + 1) / 128)
  rw [encode, groups, if_pos large, encode, ← enough]
  congr 2
  omega

theorem ofNat_small_inj {first second : Nat} (less : first < 256) (other : second < 256)
    (same : UInt8.ofNat first = UInt8.ofNat second) : first = second := by
  have values := congrArg UInt8.toNat same
  simpa [Nat.mod_eq_of_lt less, Nat.mod_eq_of_lt other] using values

theorem encode_append_inj {first second : Nat} {after other : List UInt8}
    (same : encode first ++ after = encode second ++ other) : first = second ∧ after = other := by
  induction first using Nat.strongRecOn generalizing second with
  | ind first ih =>
    rcases Nat.lt_or_ge first 128 with small | large <;> rcases Nat.lt_or_ge second 128 with smaller | larger
    · simp only [encode_small small, encode_small smaller, List.singleton_append, List.cons.injEq] at same
      exact ⟨ofNat_small_inj (by omega) (by omega) same.1, same.2⟩
    · simp only [encode_small small, encode_large larger, List.cons_append, List.cons.injEq] at same
      have low := ofNat_small_inj (by omega) (by omega) same.1
      omega
    · simp only [encode_large large, encode_small smaller, List.cons_append, List.cons.injEq] at same
      have low := ofNat_small_inj (by omega) (by omega) same.1
      omega
    · simp only [encode_large large, encode_large larger, List.cons_append, List.cons.injEq] at same
      have low := ofNat_small_inj (by omega) (by omega) same.1
      obtain ⟨high, rest⟩ := ih (first / 128) (by omega) same.2
      exact ⟨by omega, rest⟩

theorem decode_encode {limit value : Nat} (fits : value < 128 ^ limit) (positive : limit ≠ 0)
    (rest : List UInt8) : decode limit (encode value ++ rest) = some (value, rest) := by
  induction limit generalizing value with
  | zero => contradiction
  | succ limit ih =>
    by_cases large : 128 ≤ value
    · have nonzero : limit ≠ 0 := by
        rintro rfl
        omega
      have byte : (UInt8.ofNat (128 + value % 128)).toNat = 128 + value % 128 := by
        rw [UInt8.toNat_ofNat']
        omega
      have high : ¬ UInt8.ofNat (128 + value % 128) < 128 := by
        rw [UInt8.lt_iff_toNat_lt, byte]
        simp
      have part : value / 128 < 128 ^ limit := by
        rw [Nat.pow_succ] at fits
        exact Nat.div_lt_of_lt_mul (by omega)
      have value_eq : 128 + value % 128 - 128 + 128 * (value / 128) = value := by omega
      rw [encode_large large, List.cons_append, decode, if_neg high, ih part nonzero]
      simp only [Option.map_some, byte, value_eq]
    · have byte : (UInt8.ofNat value).toNat = value := by
        rw [UInt8.toNat_ofNat']
        omega
      have low : UInt8.ofNat value < 128 := by
        rw [UInt8.lt_iff_toNat_lt, byte]
        exact Nat.lt_of_not_le large
      rw [encode_small (by omega), List.singleton_append, decode, if_pos low, byte]

theorem encode_length_pos (value : Nat) : 0 < (encode value).length := by
  by_cases large : 128 ≤ value
  · rw [encode_large large]
    exact Nat.succ_pos _
  · rw [encode_small (by omega)]
    exact Nat.one_pos

theorem lt_pow_encode_length (value : Nat) : value < 128 ^ (encode value).length := by
  induction value using Nat.strongRecOn with
  | ind value ih =>
    by_cases large : 128 ≤ value
    · have high := ih (value / 128) (by omega)
      rw [encode_large large, List.length_cons, Nat.pow_succ]
      omega
    · rw [encode_small (by omega), List.length_singleton]
      omega

theorem encode_length_le {value limit : Nat} (fits : value < 128 ^ limit) (positive : limit ≠ 0) :
    (encode value).length ≤ limit := by
  induction limit generalizing value with
  | zero => contradiction
  | succ limit ih =>
    by_cases large : 128 ≤ value
    · have nonzero : limit ≠ 0 := by
        rintro rfl
        omega
      have part : value / 128 < 128 ^ limit := by
        rw [Nat.pow_succ] at fits
        exact Nat.div_lt_of_lt_mul (by omega)
      rw [encode_large large, List.length_cons]
      exact Nat.succ_le_succ (ih part nonzero)
    · rw [encode_small (by omega)]
      exact Nat.succ_le_succ (Nat.zero_le limit)

theorem decode_append {limit value : Nat} {bytes rest : List UInt8} (read : decode limit bytes = some (value, rest))
    (more : List UInt8) : decode limit (bytes ++ more) = some (value, rest ++ more) := by
  induction limit generalizing bytes value with
  | zero => cases read
  | succ limit ih =>
    cases bytes with
    | nil => cases read
    | cons byte bytes =>
      rw [List.cons_append]
      unfold decode at read ⊢
      split at read
      · next low =>
        obtain ⟨rfl, rfl⟩ := Prod.mk.inj (Option.some.inj read)
        rw [if_pos low]
      · next high =>
        obtain ⟨⟨part, left⟩, found, same⟩ := Option.map_eq_some_iff.mp read
        obtain ⟨rfl, rfl⟩ := Prod.mk.inj same
        rw [if_neg high, ih found, Option.map_some]

theorem decode_split {limit value : Nat} {bytes rest : List UInt8} (read : decode limit bytes = some (value, rest)) :
    ∃ front, bytes = front ++ rest ∧ decode limit front = some (value, []) := by
  induction limit generalizing bytes value with
  | zero => cases read
  | succ limit ih =>
    cases bytes with
    | nil => cases read
    | cons byte bytes =>
      unfold decode at read
      split at read
      · next low =>
        obtain ⟨rfl, rfl⟩ := Prod.mk.inj (Option.some.inj read)
        refine ⟨[byte], rfl, ?_⟩
        rw [decode, if_pos low]
      · next high =>
        obtain ⟨⟨part, left⟩, found, same⟩ := Option.map_eq_some_iff.mp read
        obtain ⟨rfl, rfl⟩ := Prod.mk.inj same
        obtain ⟨front, rfl, whole⟩ := ih found
        refine ⟨byte :: front, rfl, ?_⟩
        rw [decode, if_neg high, whole, Option.map_some]

def delimited (bytes : List UInt8) : List UInt8 := encode bytes.length ++ bytes

theorem delimited_append_inj {first second after other : List UInt8}
    (same : delimited first ++ after = delimited second ++ other) : first = second ∧ after = other := by
  rw [delimited, delimited, List.append_assoc, List.append_assoc] at same
  obtain ⟨lengths, bytes⟩ := encode_append_inj same
  exact List.append_inj bytes lengths

end Varint
