import Mathlib.Algebra.Ring.Nat
import Mathlib.Data.List.TakeWhile
import Mathlib.Tactic.IntervalCases

/-!
# Decimal numbers in text

What is written for a number, if need be with zeros in front, and how much of a text that starts
with digits is a number.
-/

namespace Pmgd.Decimal

def decimal (number : Nat) : List Char :=
  Nat.toDigits 10 number

/-- At least so many digits. -/
def padded (width number : Nat) : List Char :=
  List.replicate (width - (decimal number).length) '0' ++ decimal number

def signedDecimal (number : Int) : List Char :=
  if number < 0 then '-' :: decimal number.natAbs else decimal number.natAbs

/-- The number that digits are written for. -/
def number (digits : List Char) : Nat :=
  Nat.ofDigitChars 10 digits 0

variable {width value : Nat} {digits rest : List Char}

theorem isDigit_decimal : ∀ c ∈ decimal value, c.isDigit = true :=
  fun _ member => Nat.isDigit_of_mem_toDigits (by decide) (by decide) member

theorem isDigit_padded : ∀ c ∈ padded width value, c.isDigit = true := by
  intro c member
  rcases List.mem_append.mp member with zero | digit
  · rw [List.eq_of_mem_replicate zero]
    rfl
  · exact isDigit_decimal c digit

theorem decimal_ne_nil : decimal value ≠ [] :=
  Nat.toDigits_ne_nil

/-- A number other than zero does not start with a zero. -/
theorem exists_decimal_eq_cons (positive : 0 < value) :
    ∃ first rest, decimal value = first :: rest ∧ first ≠ '0' := by
  induction value using Nat.strong_induction_on with
  | _ value induction =>
      by_cases small : value < 10
      · refine ⟨value.digitChar, [], Nat.toDigits_of_lt_base small, ?_⟩
        interval_cases value <;> decide
      · have isDecimal : decimal value = decimal (value / 10) ++ [(value % 10).digitChar] :=
          Nat.toDigits_of_base_le (by decide) (by omega)
        obtain ⟨first, rest, isStart, notZero⟩ := induction (value / 10) (by omega) (by omega)
        rw [isDecimal, isStart]
        exact ⟨first, rest ++ [(value % 10).digitChar], rfl, notZero⟩

theorem number_decimal : number (decimal value) = value :=
  Nat.ofDigitChars_ten_toDigits

theorem number_padded : number (padded width value) = value := by
  rw [number, padded, Nat.ofDigitChars_append, Nat.ofDigitChars_replicate_zero, Nat.mul_zero]
  exact number_decimal

theorem length_decimal_le (positive : 0 < width) (small : value < 10 ^ width) :
    (decimal value).length ≤ width :=
  (Nat.length_toDigits_le_iff (by decide) positive).mpr small

theorem length_padded (positive : 0 < width) (small : value < 10 ^ width) :
    (padded width value).length = width := by
  rw [padded, List.length_append, List.length_replicate]
  exact Nat.sub_add_cancel (length_decimal_le positive small)

/-- A run of characters of a kind up to where another kind follows. -/
theorem span_of_stops {kind : Char → Bool} {run : List Char} (inside : ∀ c ∈ run, kind c = true)
    (stops : ∀ c ∈ rest.head?, kind c = false) :
    (run ++ rest).takeWhile kind = run ∧ (run ++ rest).dropWhile kind = rest := by
  have atRest : rest.takeWhile kind = [] ∧ rest.dropWhile kind = rest := by
    cases rest with
    | nil => exact ⟨rfl, rfl⟩
    | cons c rest =>
        have other : kind c = false := stops c rfl
        simp [other]
  rw [List.takeWhile_append_of_pos inside, List.dropWhile_append_of_pos inside, atRest.1, atRest.2,
    List.append_nil]
  exact ⟨rfl, rfl⟩

end Pmgd.Decimal
