import Mathlib.Algebra.Order.Group.Int
import Mathlib.Algebra.Ring.Int.Defs
import Mathlib.Data.List.Lex
import Mathlib.Tactic.Linarith

/-!
# Numbers with mixed radices

Digits of different radices behind a leading part, which may be negative.  The numbers are ordered
as their leading parts and digits are.
-/

namespace Pmgd

/-- The digits follow the leading part, each with its radix. -/
def mixedRadix : Int → List Int → List Int → Int
  | lead, radix :: radices, digit :: digits =>
      mixedRadix (lead * radix + digit) radices digits
  | lead, _, _ => lead

/-- The digits are less than their radices. -/
def Digits : List Int → List Int → Prop :=
  List.Forall₂ fun radix digit => 0 ≤ digit ∧ digit < radix

variable {radix lead other digit otherDigit : Int} {radices first second : List Int}

theorem digit_lt_iff (low : 0 ≤ digit) (high : digit < radix) (otherLow : 0 ≤ otherDigit)
    (otherHigh : otherDigit < radix) :
    lead * radix + digit < other * radix + otherDigit ↔
      lead < other ∨ lead = other ∧ digit < otherDigit := by
  rcases Int.lt_trichotomy lead other with less | rfl | greater
  · have above : (lead + 1) * radix ≤ other * radix :=
      Int.mul_le_mul_of_nonneg_right less (by omega)
    rw [Int.add_mul] at above
    omega
  · omega
  · have above : (other + 1) * radix ≤ lead * radix :=
      Int.mul_le_mul_of_nonneg_right greater (by omega)
    rw [Int.add_mul] at above
    omega

theorem digit_eq_iff (low : 0 ≤ digit) (high : digit < radix) (otherLow : 0 ≤ otherDigit)
    (otherHigh : otherDigit < radix) :
    lead * radix + digit = other * radix + otherDigit ↔ lead = other ∧ digit = otherDigit := by
  have less : lead * radix + digit < other * radix + otherDigit ↔ _ :=
    digit_lt_iff low high otherLow otherHigh
  have greater : other * radix + otherDigit < lead * radix + digit ↔ _ :=
    digit_lt_iff otherLow otherHigh low high
  omega

theorem mixedRadix_eq_iff (isFirst : Digits radices first) (isSecond : Digits radices second) :
    mixedRadix lead radices first = mixedRadix other radices second ↔
      lead = other ∧ first = second := by
  induction isFirst generalizing second lead other with
  | nil =>
      cases isSecond
      simp [mixedRadix]
  | cons inRange _ ih =>
      cases isSecond with
      | cons otherRange isRest =>
          rw [mixedRadix, mixedRadix, ih isRest,
            digit_eq_iff inRange.1 inRange.2 otherRange.1 otherRange.2, List.cons.injEq, and_assoc]

/-- The order of the numbers. -/
theorem mixedRadix_lt_iff (isFirst : Digits radices first) (isSecond : Digits radices second) :
    mixedRadix lead radices first < mixedRadix other radices second ↔
      lead < other ∨ lead = other ∧ first < second := by
  induction isFirst generalizing second lead other with
  | nil =>
      cases isSecond
      simp [mixedRadix]
  | cons inRange _ ih =>
      cases isSecond with
      | cons otherRange isRest =>
          rw [mixedRadix, mixedRadix, ih isRest,
            digit_lt_iff inRange.1 inRange.2 otherRange.1 otherRange.2,
            digit_eq_iff inRange.1 inRange.2 otherRange.1 otherRange.2, List.cons_lt_cons_iff]
          grind

end Pmgd
