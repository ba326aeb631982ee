import Mathlib.Algebra.Ring.Nat
import Mathlib.Algebra.Order.Group.Int
import Mathlib.Data.List.Lex
import Mathlib.Order.Fin.Basic
import Mathlib.Tactic.Common

/-!
# Strings as keys of an index

A key has the transformed string: its first bytes inline, filled up with zeros, the others behind
a pointer, and its length.
-/

namespace Pmgd.StringKeys

/-- The bytes of a `std::string`, which is compared byte by byte. -/
abbrev Bytes :=
  List (Fin 256)

theorem numBytes_ne_zero : (256 : Nat) ≠ 0 := by
  decide

instance bytes_neZero : NeZero 256 :=
  ⟨numBytes_ne_zero⟩

/-- `PREFIX_LEN`. -/
def prefixLen : Nat :=
  8

/-- The first bytes, with zeros behind the end. -/
def padded : Nat → Bytes → Bytes
  | 0, _ => []
  | num + 1, [] => 0 :: padded num []
  | num + 1, byte :: bytes => byte :: padded num bytes

/-- `memcmp`, as far as both arguments go. -/
def memcmp : Bytes → Bytes → Int
  | byte :: bytes, other :: others =>
      if byte = other then memcmp bytes others else byte.val - other.val
  | _, _ => 0

/-- An `IndexString` of a transformed string. -/
structure IndexString where
  transformed : Bytes
  deriving Repr

namespace IndexString

/-- `_prefix`. -/
def inlined (key : IndexString) : Bytes :=
  padded prefixLen key.transformed

/-- `_remainder`. -/
def remainder (key : IndexString) : Bytes :=
  key.transformed.drop prefixLen

/-- `_len`, a `uint32_t`. -/
def len (key : IndexString) : Nat :=
  key.transformed.length % 2 ^ 32

/-- `compare`; the difference of the lengths is converted to an `int`. -/
def compare (key istr : IndexString) : Int :=
  let retVal := memcmp key.inlined istr.inlined
  if retVal ≠ 0 then retVal
  else
    let shorter := if key.len > istr.len then istr.len else key.len
    let retVal :=
      if shorter > prefixLen then
        memcmp (key.remainder.take (shorter - prefixLen)) (istr.remainder.take (shorter - prefixLen))
      else 0
    if retVal ≠ 0 then retVal else Int.bmod (key.len - istr.len) (2 ^ 32)

/-- The byte order of the transformed strings. -/
instance : LinearOrder IndexString :=
  LinearOrder.lift' transformed fun _ _ same => congrArg mk same

end IndexString

/-! ## Comparisons -/

section Memcmp

variable {first second : Bytes}

theorem memcmp_swap (first second : Bytes) : memcmp second first = -memcmp first second := by
  induction first generalizing second with
  | nil => cases second <;> rfl
  | cons byte bytes ih =>
      cases second with
      | nil => rfl
      | cons other others =>
          rw [memcmp, memcmp]
          by_cases same : byte = other
          · rw [if_pos same, if_pos same.symm, ih]
          · rw [if_neg same, if_neg (Ne.symm same)]
            omega

theorem memcmp_take (first second : Bytes) (num : Nat)
    (short : min first.length second.length ≤ num) :
    memcmp (first.take num) (second.take num) = memcmp first second := by
  induction first generalizing second num with
  | nil => cases num <;> cases second <;> rfl
  | cons byte bytes ih =>
      cases second with
      | nil => cases num <;> rfl
      | cons other others =>
          cases num with
          | zero => simp at short
          | succ num =>
              rw [List.take_succ_cons, List.take_succ_cons, memcmp, memcmp, ih others num]
              simpa using short

theorem memcmp_eq_zero_iff : memcmp first second = 0 ↔ first <+: second ∨ second <+: first := by
  induction first generalizing second with
  | nil => simp [memcmp]
  | cons byte bytes ih =>
      cases second with
      | nil => simp [memcmp]
      | cons other others =>
          rw [memcmp, List.cons_prefix_cons, List.cons_prefix_cons]
          by_cases same : byte = other
          · rw [if_pos same, ih]
            simp [same]
          · have different : byte.val ≠ other.val := fun equal => same (Fin.ext equal)
            rw [if_neg same]
            constructor
            · intro isZero
              omega
            · rintro (⟨equal, -⟩ | ⟨equal, -⟩)
              · exact absurd equal same
              · exact absurd equal.symm same

theorem length_padded (num : Nat) (bytes : Bytes) : (padded num bytes).length = num := by
  induction num generalizing bytes with
  | zero => rfl
  | succ num ih => cases bytes <;> simp [padded, ih]

theorem memcmp_padded_eq_zero_iff {num : Nat} :
    memcmp (padded num first) (padded num second) = 0 ↔ padded num first = padded num second := by
  have sameLength : (padded num first).length = (padded num second).length := by
    rw [length_padded, length_padded]
  rw [memcmp_eq_zero_iff]
  constructor
  · rintro (isPrefix | isPrefix)
    · exact isPrefix.eq_of_length sameLength
    · exact (isPrefix.eq_of_length sameLength.symm).symm
  · intro same
    exact Or.inl (same ▸ List.prefix_rfl)

/-- The order of strings by their common part and then by their lengths. -/
theorem lt_iff_memcmp : first < second ↔
    memcmp first second < 0 ∨ memcmp first second = 0 ∧ first.length < second.length := by
  induction first generalizing second with
  | nil => cases second <;> simp [memcmp]
  | cons byte bytes ih =>
      cases second with
      | nil => simp [memcmp]
      | cons other others =>
          rw [List.cons_lt_cons_iff, memcmp]
          by_cases same : byte = other
          · rw [if_pos same, ih]
            simp [same]
          · have different : byte.val ≠ other.val := fun equal => same (Fin.ext equal)
            rw [if_neg same, Fin.lt_def]
            omega

/-- What comes first within the padded part comes first. -/
theorem lt_of_memcmp_padded {num : Nat}
    (less : memcmp (padded num first) (padded num second) < 0) : first < second := by
  induction num generalizing first second with
  | zero => exact absurd less (lt_irrefl 0)
  | succ num ih =>
      cases first with
      | nil =>
          cases second with
          | nil =>
              have swap := memcmp_swap (padded (num + 1) []) (padded (num + 1) [])
              omega
          | cons other others => exact List.nil_lt_cons other others
      | cons byte bytes =>
          cases second with
          | nil =>
              rw [padded, padded, memcmp] at less
              split_ifs at less with isZero
              · exact absurd (ih less) (List.not_lt_nil bytes)
              · have isZero' : ((0 : Fin 256).val : Int) = 0 := rfl
                omega
          | cons other others =>
              rw [padded, padded, memcmp] at less
              rw [List.cons_lt_cons_iff]
              split_ifs at less with same
              · exact Or.inr ⟨same, ih less⟩
              · left
                rw [Fin.lt_def]
                omega

/-- When the padded parts are alike, the others decide, or the lengths. -/
theorem lt_iff_of_padded {num : Nat} (same : memcmp (padded num first) (padded num second) = 0) :
    first < second ↔
      memcmp (first.drop num) (second.drop num) < 0 ∨
        memcmp (first.drop num) (second.drop num) = 0 ∧ first.length < second.length := by
  induction num generalizing first second with
  | zero => exact lt_iff_memcmp
  | succ num ih =>
      cases first with
      | nil => cases second <;> simp [memcmp]
      | cons byte bytes =>
          cases second with
          | nil => simp [memcmp]
          | cons other others =>
              rw [padded, padded, memcmp] at same
              split_ifs at same with equal
              · rw [List.cons_lt_cons_iff, ih same]
                simp [equal]
              · exact absurd (Fin.ext (by omega)) equal

end Memcmp

namespace IndexString

variable {key istr : IndexString}

/-- Without the pieces: the padded parts, the others, the lengths. -/
theorem compare_eq_bmod (short : key.transformed.length < 2 ^ 32)
    (otherShort : istr.transformed.length < 2 ^ 32) :
    key.compare istr =
      if memcmp key.inlined istr.inlined ≠ 0 then memcmp key.inlined istr.inlined
      else if memcmp key.remainder istr.remainder ≠ 0 then memcmp key.remainder istr.remainder
      else Int.bmod ((key.transformed.length : Int) - istr.transformed.length) (2 ^ 32) := by
  have isLen : key.len = key.transformed.length := Nat.mod_eq_of_lt short
  have isOtherLen : istr.len = istr.transformed.length := Nat.mod_eq_of_lt otherShort
  have isShorter : (if key.len > istr.len then istr.len else key.len) =
      min key.transformed.length istr.transformed.length := by
    rw [isLen, isOtherLen, min_def]
    split_ifs <;> omega
  have rest : (if min key.transformed.length istr.transformed.length > prefixLen then
        memcmp (key.remainder.take (min key.transformed.length istr.transformed.length - prefixLen))
          (istr.remainder.take (min key.transformed.length istr.transformed.length - prefixLen))
      else 0) = memcmp key.remainder istr.remainder := by
    by_cases isLong : min key.transformed.length istr.transformed.length > prefixLen
    · rw [if_pos isLong]
      apply memcmp_take
      rw [remainder, remainder, List.length_drop, List.length_drop]
      omega
    · rw [if_neg isLong, remainder, remainder]
      have oneShort : key.transformed.length ≤ prefixLen ∨ istr.transformed.length ≤ prefixLen := by
        omega
      rcases oneShort with keyShort | istrShort
      · rw [List.drop_eq_nil_of_le keyShort, memcmp]
        simp
      · rw [List.drop_eq_nil_of_le istrShort]
        cases key.transformed.drop prefixLen <;> rfl
  rw [compare]
  dsimp only
  rw [isShorter, rest, isLen, isOtherLen]

theorem compare_eq (short : key.transformed.length < 2 ^ 31)
    (otherShort : istr.transformed.length < 2 ^ 31) :
    key.compare istr =
      if memcmp key.inlined istr.inlined ≠ 0 then memcmp key.inlined istr.inlined
      else if memcmp key.remainder istr.remainder ≠ 0 then memcmp key.remainder istr.remainder
      else (key.transformed.length : Int) - istr.transformed.length := by
  have isDifference : Int.bmod ((key.transformed.length : Int) - istr.transformed.length) (2 ^ 32) =
      key.transformed.length - istr.transformed.length :=
    Int.bmod_eq_of_le (by omega) (by omega)
  rw [compare_eq_bmod (by omega) (by omega), isDifference]

/-- The comparison is that of the byte order, for strings of less than 2 GiB. -/
theorem compare_neg_iff (short : key.transformed.length < 2 ^ 31)
    (otherShort : istr.transformed.length < 2 ^ 31) : key.compare istr < 0 ↔ key < istr := by
  have isLess : key < istr ↔ key.transformed < istr.transformed := Iff.rfl
  rw [isLess, compare_eq short otherShort]
  by_cases differ : memcmp key.inlined istr.inlined ≠ 0
  · rw [if_pos differ]
    constructor
    · exact lt_of_memcmp_padded
    · intro less
      by_contra notLess
      have greater : memcmp istr.inlined key.inlined < 0 := by
        rw [memcmp_swap key.inlined]
        omega
      exact absurd (lt_of_memcmp_padded greater) less.asymm
  · rw [if_neg differ, lt_iff_of_padded (not_not.mp differ), ← remainder, ← remainder]
    generalize memcmp key.remainder istr.remainder = sign
    split_ifs with decided <;> omega

theorem compare_eq_zero_iff (short : key.transformed.length < 2 ^ 31)
    (otherShort : istr.transformed.length < 2 ^ 31) : key.compare istr = 0 ↔ key = istr := by
  have less := compare_neg_iff short otherShort
  have greater := compare_neg_iff otherShort short
  have swap : istr.compare key = -key.compare istr := by
    rw [compare_eq short otherShort, compare_eq otherShort short, memcmp_swap key.inlined,
      memcmp_swap key.remainder]
    split_ifs <;> omega
  rcases lt_trichotomy key istr with before | rfl | after
  · have isNegative := less.mpr before
    exact iff_of_false isNegative.ne before.ne
  · have notLess := less.not.mpr (lt_irrefl key)
    exact iff_of_true (by omega) rfl
  · have isNegative := greater.mpr after
    exact iff_of_false (by omega) after.ne'

theorem compare_pos_iff (short : key.transformed.length < 2 ^ 31)
    (otherShort : istr.transformed.length < 2 ^ 31) : 0 < key.compare istr ↔ istr < key := by
  have less := compare_neg_iff short otherShort
  have equal := compare_eq_zero_iff short otherShort
  rcases lt_trichotomy key istr with before | rfl | after
  · have isNegative := less.mpr before
    exact iff_of_false (by omega) before.asymm
  · have isZero := equal.mpr rfl
    exact iff_of_false (by omega) (lt_irrefl key)
  · have notNegative := less.not.mpr after.asymm
    have notZero := equal.not.mpr after.ne'
    exact iff_of_true (by omega) after

/-- The comparison has the sign of the byte order. -/
structure Agrees (key istr : IndexString) : Prop where
  less : key.compare istr < 0 ↔ key < istr
  equal : key.compare istr = 0 ↔ key = istr
  greater : 0 < key.compare istr ↔ istr < key

/-- The inline parts are alike, and one of the others starts with the other one. -/
def SameStart (key istr : IndexString) : Prop :=
  key.inlined = istr.inlined ∧
    (key.remainder <+: istr.remainder ∨ istr.remainder <+: key.remainder)

instance (key istr : IndexString) : Decidable (SameStart key istr) :=
  inferInstanceAs (Decidable (_ ∧ _))

/-- An `int` has the difference of the lengths. -/
def DifferenceFits (key istr : IndexString) : Prop :=
  -2 ^ 31 ≤ (key.transformed.length : Int) - istr.transformed.length ∧
    (key.transformed.length : Int) - istr.transformed.length < 2 ^ 31

instance (key istr : IndexString) : Decidable (DifferenceFits key istr) :=
  inferInstanceAs (Decidable (_ ∧ _))

theorem sameStart_iff : SameStart key istr ↔
    memcmp key.inlined istr.inlined = 0 ∧ memcmp key.remainder istr.remainder = 0 := by
  rw [SameStart, inlined, inlined, memcmp_padded_eq_zero_iff, memcmp_eq_zero_iff]

/-- Two strings are different, or neither is in front of the other one. -/
theorem agrees_of_less {result : Int} (isResult : key.compare istr = result)
    (less : result < 0 ↔ key < istr) (greater : 0 < result ↔ istr < key) : Agrees key istr := by
  refine ⟨isResult ▸ less, ?_, isResult ▸ greater⟩
  rw [isResult]
  rcases lt_trichotomy key istr with before | rfl | after
  · have isNegative := less.mpr before
    exact iff_of_false isNegative.ne before.ne
  · have notLess := less.not.mpr (lt_irrefl key)
    have notGreater := greater.not.mpr (lt_irrefl key)
    exact iff_of_true (by omega) rfl
  · have isPositive := greater.mpr after
    exact iff_of_false isPositive.ne' after.ne'

/-- The inline parts decide. -/
theorem agrees_of_inlined (short : key.transformed.length < 2 ^ 32)
    (otherShort : istr.transformed.length < 2 ^ 32)
    (differ : memcmp key.inlined istr.inlined ≠ 0) : Agrees key istr := by
  have isResult := compare_eq_bmod short otherShort
  rw [if_pos differ] at isResult
  have swap := memcmp_swap key.inlined istr.inlined
  have forward : memcmp key.inlined istr.inlined < 0 → key < istr := lt_of_memcmp_padded
  have backward : memcmp istr.inlined key.inlined < 0 → istr < key := lt_of_memcmp_padded
  apply agrees_of_less isResult
  · refine ⟨forward, fun before => ?_⟩
    by_contra notLess
    exact absurd (backward (by omega)) before.asymm
  · refine ⟨fun isPositive => backward (by omega), fun after => ?_⟩
    by_contra notGreater
    exact absurd (forward (by omega)) after.asymm

/-- The conversion to `int` turns the sign of a difference around for which it has no room. -/
theorem bmod_of_wide {num other : Nat} (short : num < 2 ^ 32) (otherShort : other < 2 ^ 32)
    (wide : ¬ (-2 ^ 31 ≤ (num : Int) - other ∧ (num : Int) - other < 2 ^ 31)) :
    num < other ∧ 0 < Int.bmod ((num : Int) - other) (2 ^ 32) ∨
      other < num ∧ Int.bmod ((num : Int) - other) (2 ^ 32) < 0 := by
  rcases not_and_or.mp wide with isLow | isHigh
  · left
    have isBmod : Int.bmod ((num : Int) - other) (2 ^ 32) = num - other + 2 ^ 32 := by
      rw [← Int.add_bmod_right]
      exact Int.bmod_eq_of_le (by omega) (by omega)
    omega
  · right
    have isBmod : Int.bmod ((num : Int) - other) (2 ^ 32) = num - other - 2 ^ 32 := by
      rw [← Int.sub_bmod_right]
      exact Int.bmod_eq_of_le (by omega) (by omega)
    omega

section SameStart

variable (short : key.transformed.length < 2 ^ 32) (otherShort : istr.transformed.length < 2 ^ 32)
  (start : SameStart key istr)
include start

/-- Of strings with the same start the shorter one comes first. -/
theorem SameStart.lt_iff : key < istr ↔ key.transformed.length < istr.transformed.length := by
  obtain ⟨sameInlined, sameRest⟩ := sameStart_iff.mp start
  have less : key < istr ↔ _ := lt_iff_of_padded sameInlined
  rw [← remainder, ← remainder] at less
  rw [less]
  omega

omit start in
theorem SameStart.symm (start : SameStart key istr) : SameStart istr key :=
  ⟨start.1.symm, start.2.symm⟩

include short otherShort

theorem SameStart.compare_eq : key.compare istr =
    Int.bmod ((key.transformed.length : Int) - istr.transformed.length) (2 ^ 32) := by
  obtain ⟨sameInlined, sameRest⟩ := sameStart_iff.mp start
  rw [compare_eq_bmod short otherShort, if_neg (not_not.mpr sameInlined),
    if_neg (not_not.mpr sameRest)]

theorem SameStart.agrees (fits : DifferenceFits key istr) : Agrees key istr := by
  have isResult : key.compare istr = key.transformed.length - istr.transformed.length := by
    rw [start.compare_eq short otherShort]
    exact Int.bmod_eq_of_le (by unfold DifferenceFits at fits; omega)
      (by unfold DifferenceFits at fits; omega)
  apply agrees_of_less isResult
  · rw [start.lt_iff]
    omega
  · rw [start.symm.lt_iff]
    omega

theorem SameStart.fits (agrees : Agrees key istr) : DifferenceFits key istr := by
  by_contra wide
  have isResult := start.compare_eq short otherShort
  rcases bmod_of_wide short otherShort wide with ⟨before, isBmod⟩ | ⟨after, isBmod⟩
  · have isNegative := agrees.less.mpr (start.lt_iff.mpr before)
    omega
  · have isPositive := agrees.greater.mpr (start.symm.lt_iff.mpr after)
    omega

end SameStart

/-- The inline parts or the others decide. -/
theorem agrees_of_not_sameStart (short : key.transformed.length < 2 ^ 32)
    (otherShort : istr.transformed.length < 2 ^ 32) (differ : ¬ SameStart key istr) :
    Agrees key istr := by
  by_cases differInlined : memcmp key.inlined istr.inlined ≠ 0
  · exact agrees_of_inlined short otherShort differInlined
  have sameInlined := not_not.mp differInlined
  have decided : memcmp key.remainder istr.remainder ≠ 0 := fun sameRest =>
    differ (sameStart_iff.mpr ⟨sameInlined, sameRest⟩)
  have swap := memcmp_swap key.inlined istr.inlined
  have swapRest := memcmp_swap key.remainder istr.remainder
  have less : key < istr ↔ _ := lt_iff_of_padded sameInlined
  have greater : istr < key ↔ _ := lt_iff_of_padded (by rw [← inlined, ← inlined, swap]; omega)
  rw [← remainder, ← remainder] at less greater
  have isResult := compare_eq_bmod short otherShort
  rw [if_neg differInlined, if_pos decided] at isResult
  apply agrees_of_less isResult
  · rw [less]
    omega
  · rw [greater]
    omega

/-- For strings shorter than 4 GiB the comparison has the sign of the byte order exactly if an
`int` has the difference of the lengths, where they decide. -/
theorem agrees_iff (short : key.transformed.length < 2 ^ 32)
    (otherShort : istr.transformed.length < 2 ^ 32) :
    Agrees key istr ↔ (SameStart key istr → DifferenceFits key istr) := by
  constructor
  · exact fun agrees start => start.fits short otherShort agrees
  · intro fits
    by_cases start : SameStart key istr
    · exact start.agrees short otherShort (fits start)
    · exact agrees_of_not_sameStart short otherShort start

theorem agrees_iff_zeros : Agrees ⟨[97]⟩ ⟨[97, 0, 0]⟩ :=
  (agrees_iff (by decide) (by decide)).mpr (by decide)

theorem padded_replicate {num count : Nat} {byte : Fin 256} (long : num ≤ count) :
    padded num (List.replicate count byte) = List.replicate num byte := by
  induction num generalizing count with
  | zero => rfl
  | succ num ih =>
      cases count with
      | zero => omega
      | succ count =>
          rw [List.replicate_succ, padded, ih (by omega)]
          rfl

/-- Of two strings of one letter the longer one may come first. -/
theorem not_agrees_of_long : ¬ ∀ key istr : IndexString, key.transformed.length < 2 ^ 32 →
    istr.transformed.length < 2 ^ 32 → Agrees key istr := by
  intro always
  let long : IndexString := ⟨List.replicate (2 ^ 31 + prefixLen) 97⟩
  let short : IndexString := ⟨List.replicate prefixLen 97⟩
  have isLength : long.transformed.length = 2 ^ 31 + prefixLen := List.length_replicate
  have longFits : long.transformed.length < 2 ^ 32 := by
    rw [isLength]
    decide
  have shortFits : short.transformed.length < 2 ^ 32 := by decide
  have isInlined : long.inlined = short.inlined := by
    rw [inlined, inlined, padded_replicate (Nat.le_add_left _ _), padded_replicate le_rfl]
  have nothing : short.remainder = [] := List.drop_eq_nil_of_le le_rfl
  have start : SameStart long short := ⟨isInlined, Or.inr (nothing ▸ List.nil_prefix)⟩
  have fits := start.fits longFits shortFits (always long short longFits shortFits)
  rw [DifferenceFits, isLength] at fits
  exact absurd fits.2 (by decide)

/-- Keys that are all compared right are in a strict total order. -/
theorem isStrictTotalOrder {keys : Set IndexString}
    (agrees : ∀ key ∈ keys, ∀ istr ∈ keys, Agrees key istr) :
    IsStrictTotalOrder keys fun key istr => key.val.compare istr.val < 0 := by
  have isLess : (fun key istr : keys => key.val.compare istr.val < 0) = (· < ·) := by
    ext key istr
    exact (agrees key key.property istr istr.property).less
  rw [isLess]
  infer_instance

end IndexString

end Pmgd.StringKeys
