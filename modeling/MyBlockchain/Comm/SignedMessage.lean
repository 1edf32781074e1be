import MyBlockchain.Comm.CommController
import MyBlockchain.Library.Decimal

namespace Blockchain

theorem decimal_eq (value : Nat) : decimal value = Decimal.digits value := rfl

namespace EpochResponse

variable {first second : EpochResponse}

def Same (first second : EpochResponse) : Prop :=
  first.epoch = second.epoch ∧ first.request.batchHash = second.request.batchHash ∧ first.nonce = second.nonce

/-- The second epoch has further digits, which are the first bytes of the first hash; the last bytes of the
second hash are in turn the first digits of the first nonce. -/
def Moves (first second : EpochResponse) : Prop :=
  ∃ epochDigits kept nonceDigits, epochDigits ≠ [] ∧
    decimal second.epoch = decimal first.epoch ++ epochDigits ∧
    first.request.batchHash = epochDigits ++ kept ∧
    second.request.batchHash = kept ++ nonceDigits ∧
    decimal first.nonce = nonceDigits ++ decimal second.nonce

theorem Same.message (same : first.Same second) : first.message = second.message := by
  obtain ⟨epoch, batchHash, nonce⟩ := same
  rw [EpochResponse.message, EpochResponse.message, epoch, batchHash, nonce]

theorem Moves.message (moves : first.Moves second) : first.message = second.message := by
  obtain ⟨epochDigits, kept, nonceDigits, -, epoch, firstHash, secondHash, nonce⟩ := moves
  rw [EpochResponse.message, EpochResponse.message, epoch, firstHash, secondHash, nonce]
  simp

theorem same_or_moves (fits : second.epoch < 2 ^ 32) (firstLength : first.request.batchHash.length = 32)
    (secondLength : second.request.batchHash.length = 32)
    (shorter : (decimal first.epoch).length ≤ (decimal second.epoch).length)
    (equal : first.message = second.message) : first.Same second ∨ first.Moves second := by
  unfold EpochResponse.message at equal
  rw [List.append_assoc, List.append_assoc] at equal
  -- the digits of the first epoch begin those of the second
  obtain ⟨epochDigits, epoch⟩ : decimal first.epoch <+: decimal second.epoch :=
    List.prefix_of_prefix_length_le (List.prefix_append _ _) (by rw [equal]; exact List.prefix_append _ _) shorter
  have few : epochDigits.length ≤ 10 := by
    have digits : (decimal second.epoch).length ≤ 10 := (Decimal.length_digits_le (by decide)).mpr (by omega)
    rw [← epoch, List.length_append] at digits
    omega
  rw [← epoch, List.append_assoc] at equal
  have rest := List.append_cancel_left equal
  -- they are too few to go beyond the first hash
  obtain ⟨kept, firstHash⟩ : epochDigits <+: first.request.batchHash :=
    List.prefix_of_prefix_length_le (List.prefix_append _ _) (by rw [← rest]; exact List.prefix_append _ _) (by omega)
  rw [← firstHash, List.append_assoc] at rest
  have hashes := List.append_cancel_left rest
  obtain ⟨nonceDigits, secondHash⟩ : kept <+: second.request.batchHash := by
    refine List.prefix_of_prefix_length_le (List.prefix_append _ _) (by rw [hashes]; exact List.prefix_append _ _) ?_
    rw [secondLength, ← firstLength, ← firstHash, List.length_append]
    omega
  rw [← secondHash, List.append_assoc] at hashes
  have nonce := List.append_cancel_left hashes
  by_cases none : epochDigits = []
  · left
    subst none
    have length : nonceDigits = [] := by
      rw [← firstHash, List.nil_append] at firstLength
      rw [← secondHash, List.length_append] at secondLength
      exact List.eq_nil_of_length_eq_zero (by omega)
    subst length
    rw [List.append_nil] at epoch secondHash
    exact ⟨Decimal.digits_injective epoch, firstHash.symm.trans secondHash, Decimal.digits_injective nonce⟩
  · exact .inr ⟨epochDigits, kept, nonceDigits, none, epoch.symm, firstHash.symm, secondHash.symm, nonce⟩

theorem Moves.longer (moves : first.Moves second) :
    (decimal first.epoch).length < (decimal second.epoch).length := by
  obtain ⟨epochDigits, kept, nonceDigits, some, epoch, -⟩ := moves
  rw [epoch, List.length_append]
  exact Nat.lt_add_of_pos_right (List.length_pos_iff.mpr some)

end EpochResponse

/-- Two signed messages are equal if and only if the fields are, or digits of one epoch have become part of the
hash and its last bytes part of the nonce; between epochs of the same number of digits that cannot happen. -/
theorem signed_message_iff {first second : EpochResponse} (firstFits : first.epoch < 2 ^ 32)
    (secondFits : second.epoch < 2 ^ 32) (firstLength : first.request.batchHash.length = 32)
    (secondLength : second.request.batchHash.length = 32) :
    (first.message = second.message ↔ first.Same second ∨ first.Moves second ∨ second.Moves first) ∧
    ((decimal first.epoch).length = (decimal second.epoch).length →
      first.message = second.message → first.Same second) := by
  have equal_iff : first.message = second.message ↔
      first.Same second ∨ first.Moves second ∨ second.Moves first := by
    constructor
    · intro equal
      rcases Nat.le_total (decimal first.epoch).length (decimal second.epoch).length with shorter | shorter
      · rcases EpochResponse.same_or_moves secondFits firstLength secondLength shorter equal with same | moves
        · exact .inl same
        · exact .inr (.inl moves)
      · rcases EpochResponse.same_or_moves firstFits secondLength firstLength shorter equal.symm with same | moves
        · exact .inl ⟨same.1.symm, same.2.1.symm, same.2.2.symm⟩
        · exact .inr (.inr moves)
    · rintro (same | moves | moves)
      · exact same.message
      · exact moves.message
      · exact moves.message.symm
  refine ⟨equal_iff, fun digits equal => ?_⟩
  rcases equal_iff.mp equal with same | moves | moves
  · exact same
  · exact absurd moves.longer (by omega)
  · exact absurd moves.longer (by omega)

section MovedDigits

def shortEpoch : EpochResponse where
  epoch := 1
  request := { requestBatchSize := 1, batchHash := 50 :: List.replicate 31 0 }
  nonce := 34
  signature := []

def longEpoch : EpochResponse where
  epoch := 12
  request := { requestBatchSize := 1, batchHash := List.replicate 31 0 ++ [51] }
  nonce := 4
  signature := []

theorem signed_message_iff_moved : shortEpoch.message = longEpoch.message ↔
    shortEpoch.Same longEpoch ∨ shortEpoch.Moves longEpoch ∨ longEpoch.Moves shortEpoch :=
  (signed_message_iff (by decide) (by decide) (by decide) (by decide)).1

theorem moved_digits_same_message : shortEpoch.epoch < 2 ^ 32 ∧ longEpoch.epoch < 2 ^ 32 ∧
    shortEpoch.nonce < 2 ^ 32 ∧ longEpoch.nonce < 2 ^ 32 ∧ shortEpoch.request.batchHash.length = 32 ∧
    longEpoch.request.batchHash.length = 32 ∧ shortEpoch.message = longEpoch.message ∧
    ¬ shortEpoch.Same longEpoch := by
  refine ⟨by decide, by decide, by decide, by decide, by decide, by decide, by decide, fun same => ?_⟩
  exact absurd same.1 (by decide)

end MovedDigits

end Blockchain
