import Mathlib.Algebra.Ring.Nat
import Mathlib.Data.List.TakeWhile

namespace Decimal

/-- The ASCII characters of a number, as `std::to_string` writes an unsigned one. -/
def digits (value : Nat) : List UInt8 := (Nat.toDigits 10 value).map fun digit => UInt8.ofNat digit.toNat

def isDigit (byte : UInt8) : Bool := 48 ≤ byte.toNat && byte.toNat ≤ 57

def value (bytes : List UInt8) : Nat := bytes.foldl (fun high byte => 10 * high + (byte.toNat - 48)) 0

theorem toNat_ofNat_digit {digit : Char} (isDigit : digit.isDigit) :
    48 ≤ digit.toNat ∧ digit.toNat ≤ 57 ∧ (UInt8.ofNat digit.toNat).toNat = digit.toNat := by
  obtain ⟨low, high⟩ := Char.isDigit_iff_toNat.mp isDigit
  have low : 48 ≤ digit.toNat := low
  have high : digit.toNat ≤ 57 := high
  exact ⟨low, high, UInt8.toNat_ofNat_of_lt' (Nat.lt_of_le_of_lt high (by decide))⟩

theorem isDigit_of_mem_digits {n : Nat} {byte : UInt8} (member : byte ∈ digits n) : isDigit byte = true := by
  obtain ⟨digit, listed, rfl⟩ := List.mem_map.mp member
  have bounds := toNat_ofNat_digit (Nat.isDigit_of_mem_toDigits (by decide) (by decide) listed)
  simp [isDigit, bounds]

theorem value_digits (n : Nat) : value (digits n) = n := by
  have each : ∀ (chars : List Char) (high : Nat), (∀ digit ∈ chars, digit.isDigit) →
      (chars.map fun digit => UInt8.ofNat digit.toNat).foldl (fun high byte => 10 * high + (byte.toNat - 48)) high =
        Nat.ofDigitChars 10 chars high := by
    intro chars
    induction chars with
    | nil => exact fun _ _ => rfl
    | cons digit rest ih =>
      intro high all
      have bounds := toNat_ofNat_digit (all digit (.head _))
      rw [List.map_cons, List.foldl_cons, bounds.2.2, Nat.ofDigitChars_cons]
      exact ih _ fun other member => all other (.tail _ member)
  rw [value, digits, each _ _ fun digit member => Nat.isDigit_of_mem_toDigits (by decide) (by decide) member]
  exact Nat.ofDigitChars_ten_toDigits

theorem digits_injective : Function.Injective digits := by
  intro first second same
  rw [← value_digits first, same, value_digits]

theorem digits_ne_nil (n : Nat) : digits n ≠ [] := by
  simp [digits]

theorem length_digits_le {n k : Nat} (positive : 0 < k) : (digits n).length ≤ k ↔ n < 10 ^ k := by
  rw [digits, List.length_map]
  exact Nat.length_toDigits_le_iff (by decide) positive

/-- `std::to_string` of a signed number. -/
def intDigits (value : Int) : List UInt8 :=
  if value < 0 then 45 :: digits value.natAbs else digits value.natAbs

def FitsInt (value : Int) : Prop := -2147483648 ≤ value ∧ value ≤ 2147483647

instance (value : Int) : Decidable (FitsInt value) := inferInstanceAs (Decidable (_ ∧ _))

def isSpace (byte : UInt8) : Bool := byte = 32 || 9 ≤ byte.toNat && byte.toNat ≤ 13

def sign : List UInt8 → Bool × List UInt8
  | 45 :: rest => (true, rest)
  | 43 :: rest => (false, rest)
  | text => (false, text)

/-- `std::stoi`: blanks, a sign and digits are read, and what follows is left; `none` is an exception. -/
def stoi (bytes : List UInt8) : Option Int :=
  let (negative, text) := sign (bytes.dropWhile isSpace)
  let number := text.takeWhile isDigit
  let signed : Int := if negative then -(value number : Int) else value number
  if number = [] then none else if FitsInt signed then some signed else none

theorem takeWhile_digits (n : Nat) : (digits n).takeWhile isDigit = digits n :=
  List.takeWhile_eq_self_iff.mpr fun _ member => isDigit_of_mem_digits member

theorem digits_cons (n : Nat) : ∃ first rest, digits n = first :: rest ∧ isDigit first = true := by
  cases found : digits n with
  | nil => exact absurd found (digits_ne_nil n)
  | cons first rest => exact ⟨first, rest, rfl, isDigit_of_mem_digits (by rw [found]; exact .head _)⟩

theorem not_isSpace_of_isDigit {byte : UInt8} (digit : isDigit byte = true) : isSpace byte = false := by
  have bounds : 48 ≤ byte.toNat ∧ byte.toNat ≤ 57 := by simpa [isDigit] using digit
  have differs : byte ≠ 32 := by
    rintro rfl
    exact absurd bounds.1 (by decide)
  simp only [isSpace, differs, decide_false, Bool.false_or, Bool.and_eq_false_iff, decide_eq_false_iff_not]
  omega

theorem sign_of_isDigit {first : UInt8} (rest : List UInt8) (digit : isDigit first = true) :
    sign (first :: rest) = (false, first :: rest) := by
  have bounds : 48 ≤ first.toNat ∧ first.toNat ≤ 57 := by simpa [isDigit] using digit
  unfold sign
  split
  · next same =>
    cases same
    exact absurd bounds.1 (by decide)
  · next same =>
    cases same
    exact absurd bounds.1 (by decide)
  · rfl

theorem stoi_intDigits {n : Int} (fits : FitsInt n) : stoi (intDigits n) = some n := by
  obtain ⟨first, rest, cons, digit⟩ := digits_cons n.natAbs
  have read : ∀ negative : Bool, (if negative = true then -(n.natAbs : Int) else n.natAbs) = n →
      (if (digits n.natAbs).takeWhile isDigit = [] then none
        else if FitsInt (if negative = true then -(value ((digits n.natAbs).takeWhile isDigit) : Int)
          else value ((digits n.natAbs).takeWhile isDigit))
        then some (if negative = true then -(value ((digits n.natAbs).takeWhile isDigit) : Int)
          else value ((digits n.natAbs).takeWhile isDigit))
        else none) = some n := by
    intro negative same
    rw [takeWhile_digits, value_digits, if_neg (digits_ne_nil _), same, if_pos fits]
  unfold stoi intDigits
  by_cases negative : n < 0
  · rw [if_pos negative, List.dropWhile_cons_of_neg (by decide)]
    exact read true (by rw [if_pos rfl]; omega)
  · rw [if_neg negative, cons, List.dropWhile_cons_of_neg (by simp [not_isSpace_of_isDigit digit]),
      sign_of_isDigit rest digit, ← cons]
    exact read false (by rw [if_neg (by decide)]; omega)

end Decimal
