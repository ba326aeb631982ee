import Pmgd.Lib.MixedRadix
import Pmgd.PropertyCodec

/-!
# Times as keys

A `Time` is nine bytes: a union of a signed number and of bit-fields, the year in front, and the
fields of the time zone.  Times are compared as the numbers.
-/

namespace Pmgd

/-- `struct tm`. -/
structure Tm where
  tmSec : Int
  tmMin : Int
  tmHour : Int
  tmMday : Int
  tmMon : Int
  tmYear : Int
  tmIsdst : Int

namespace Time

/-! ## Bit-fields -/

/-- A store to a bit-field. -/
def setField {width total : Nat} (offset : Nat) (value : BitVec width) (word : BitVec total) :
    BitVec total :=
  word &&& ~~~((BitVec.allOnes width).setWidth total <<< offset) |||
    value.setWidth total <<< offset

section Fields

variable (time : Time)

def unused : BitVec 4 := time.timeVal.extractLsb' 0 4
def usec : BitVec 20 := time.timeVal.extractLsb' 4 20
def sec : BitVec 6 := time.timeVal.extractLsb' 24 6
def min : BitVec 6 := time.timeVal.extractLsb' 30 6
def hour : BitVec 5 := time.timeVal.extractLsb' 36 5
def day : BitVec 5 := time.timeVal.extractLsb' 41 5
def mon : BitVec 4 := time.timeVal.extractLsb' 46 4
def year : BitVec 14 := time.timeVal.extractLsb' 50 14
def tzMin : BitVec 2 := time.timeZone.toBitVec.extractLsb' 0 2
def tzHour : BitVec 5 := time.timeZone.toBitVec.extractLsb' 2 5
def tzSpare : BitVec 1 := time.timeZone.toBitVec.extractLsb' 7 1

/-- The fields of a time, of which only the year is signed. -/
def fields : List Int :=
  [time.year.toInt, time.mon.toNat, time.day.toNat, time.hour.toNat, time.min.toNat,
    time.sec.toNat, time.usec.toNat]

end Fields

/-- `operator<`. -/
def operatorLess (time t : Time) : Bool :=
  time.timeVal.slt t.timeVal

/-- `operator==`. -/
def operatorEq (time t : Time) : Bool :=
  time.timeVal == t.timeVal

/-- `Time(tm, usec, hr_offset, min_offset)`; `timegm` brings the fields into their ranges.  The
byte with the time zone may have had any value. -/
def ofTm (timegm : Tm → Tm) (timeZone : UInt8) (tm : Tm) (usec : Nat) (hrOffset minOffset : Int) :
    Time :=
  let utcTm := timegm { tm with
    tmHour := tm.tmHour - hrOffset
    tmMin := tm.tmMin - minOffset * (if hrOffset ≥ 0 then 1 else -1)
    tmIsdst := -1 }
  { timeVal :=
      setField 50 (BitVec.ofInt 14 (utcTm.tmYear + 1900)) <|
      setField 46 (BitVec.ofInt 4 (utcTm.tmMon + 1)) <|
      setField 41 (BitVec.ofInt 5 utcTm.tmMday) <|
      setField 36 (BitVec.ofInt 5 utcTm.tmHour) <|
      setField 30 (BitVec.ofInt 6 utcTm.tmMin) <|
      setField 24 (BitVec.ofInt 6 utcTm.tmSec) <|
      setField 4 (BitVec.ofNat 20 usec) 0
    timeZone := ⟨
      setField 7 (0 : BitVec 1) <|
      setField 2 (BitVec.ofInt 5 hrOffset) <|
      setField 0 (BitVec.ofInt 2 (minOffset.tdiv 15)) timeZone.toBitVec⟩ }

/-! ## What the constructors leave -/

theorem extractLsb'_setField {width total offset : Nat} {value : BitVec width} {word : BitVec total}
    (inside : offset + width ≤ total) :
    (setField offset value word).extractLsb' offset width = value := by
  ext i small
  have inWord : offset + i < total := by omega
  simp [setField, small, inWord]

theorem extractLsb'_setField_of_apart {width total offset other len : Nat} {value : BitVec width}
    {word : BitVec total} (apart : other + len ≤ offset ∨ offset + width ≤ other) :
    (setField offset value word).extractLsb' other len = word.extractLsb' other len := by
  ext i small
  have outside : other + i < offset ∨ width ≤ other + i - offset := by omega
  rcases outside with before | behind
  · simp [setField, before]
    exact BitVec.lt_of_getLsbD
  · simp [setField, behind]
    exact BitVec.lt_of_getLsbD

variable {timegm : Tm → Tm} {timeZone : UInt8} {tm : Tm} {usec : Nat} {hrOffset minOffset : Int}

/-- The constructor leaves the spare bits 0. -/
theorem unused_ofTm : (ofTm timegm timeZone tm usec hrOffset minOffset).unused = 0 := by
  unfold ofTm unused
  dsimp only
  simp (disch := decide) only [extractLsb'_setField_of_apart]
  rfl

/-- The fields are those that `timegm` has given, as far as they go into their widths. -/
theorem fields_ofTm {utcTm : Tm} (isUtc : ∀ tm, timegm tm = utcTm) :
    (ofTm timegm timeZone tm usec hrOffset minOffset).fields =
      [(BitVec.ofInt 14 (utcTm.tmYear + 1900)).toInt, (BitVec.ofInt 4 (utcTm.tmMon + 1)).toNat,
        (BitVec.ofInt 5 utcTm.tmMday).toNat, (BitVec.ofInt 5 utcTm.tmHour).toNat,
        (BitVec.ofInt 6 utcTm.tmMin).toNat, (BitVec.ofInt 6 utcTm.tmSec).toNat,
        (BitVec.ofNat 20 usec).toNat] := by
  unfold ofTm fields year mon day hour min sec Time.usec
  simp (disch := decide) only [isUtc, extractLsb'_setField, extractLsb'_setField_of_apart]

/-- There is a time for all values of the fields within their widths. -/
theorem exists_fields {year : Int} {mon day hour min sec usec : Nat}
    (isYear : -8192 ≤ year ∧ year ≤ 8191) (isMon : mon < 2 ^ 4) (isDay : day < 2 ^ 5)
    (isHour : hour < 2 ^ 5) (isMin : min < 2 ^ 6) (isSec : sec < 2 ^ 6) (isUsec : usec < 2 ^ 20) :
    ∃ time : Time, time.unused = 0 ∧ time.fields = [year, mon, day, hour, min, sec, usec] := by
  let utcTm : Tm := ⟨sec, min, hour, day, mon - 1, year - 1900, 0⟩
  refine ⟨ofTm (fun _ => utcTm) 0 utcTm usec 0 0, unused_ofTm, ?_⟩
  have unsigned {width num : Nat} (less : num < 2 ^ width) :
      (BitVec.ofInt width num).toNat = num := by
    rw [BitVec.ofInt_natCast, BitVec.toNat_ofNat, Nat.mod_eq_of_lt less]
  have isMonth : utcTm.tmMon + 1 = mon := Int.sub_add_cancel _ _
  have sameYear : utcTm.tmYear + 1900 = year := Int.sub_add_cancel _ _
  have signed : (BitVec.ofInt 14 year).toInt = year := by
    rw [BitVec.toInt_ofInt]
    exact Int.bmod_eq_of_le (by omega) (by omega)
  rw [fields_ofTm fun _ => rfl, isMonth, sameYear, signed, unsigned isMon, unsigned isDay,
    unsigned isHour, unsigned isMin, unsigned isSec, BitVec.toNat_ofNat, Nat.mod_eq_of_lt isUsec]

/-! ## The order -/

/-- The radices of the fields behind the year, and of the spare bits. -/
def radices : List Int :=
  [2 ^ 4, 2 ^ 5, 2 ^ 5, 2 ^ 6, 2 ^ 6, 2 ^ 20, 2 ^ 4]

/-- The fields behind the year, and the spare bits. -/
def digits (time : Time) : List Int :=
  [time.mon.toNat, time.day.toNat, time.hour.toNat, time.min.toNat, time.sec.toNat,
    time.usec.toNat, time.unused.toNat]

variable (time t : Time)

theorem digits_inRange : Digits radices time.digits := by
  have range {width : Nat} (value : BitVec width) :
      0 ≤ (value.toNat : Int) ∧ (value.toNat : Int) < 2 ^ width :=
    ⟨Int.natCast_nonneg _, by exact_mod_cast value.isLt⟩
  unfold Digits radices digits
  simp only [List.forall₂_cons, List.forall₂_nil_left_iff, and_true]
  exact ⟨range _, range _, range _, range _, range _, range _, range _⟩

/-- The year is in front of the other fields. -/
theorem toInt_eq_year (word : BitVec 64) :
    word.toInt = (word.extractLsb' 50 14).toInt * 2 ^ 50 + (word.toNat % 2 ^ 50 : Nat) := by
  have isHigh : word.toNat / 2 ^ 50 < 2 ^ 14 := Nat.div_lt_of_lt_mul word.isLt
  have split : 2 ^ 50 * (word.toNat / 2 ^ 50) + word.toNat % 2 ^ 50 = word.toNat :=
    Nat.div_add_mod word.toNat (2 ^ 50)
  have low := Nat.mod_lt word.toNat (Nat.two_pow_pos 50)
  rw [BitVec.toInt_eq_toNat_cond, BitVec.toInt_eq_toNat_cond, BitVec.extractLsb'_toNat,
    Nat.shiftRight_eq_div_pow, Nat.mod_eq_of_lt isHigh]
  generalize word.toNat / 2 ^ 50 = high at *
  generalize word.toNat % 2 ^ 50 = rest at *
  rw [← split]
  split_ifs <;> omega

/-- A word up to a bit, by the field that ends there and the bits below the field. -/
theorem mod_eq_field (word low width : Nat) : word % 2 ^ (low + width) =
    word / 2 ^ low % 2 ^ width * 2 ^ low + word % 2 ^ low := by
  rw [Nat.pow_add, Nat.mod_mul, Nat.add_comm, Nat.mul_comm]

theorem mod_eq_fields (word : Nat) : word % 2 ^ 50 =
    (((((word / 2 ^ 46 % 2 ^ 4 * 2 ^ 5 + word / 2 ^ 41 % 2 ^ 5) * 2 ^ 5 +
      word / 2 ^ 36 % 2 ^ 5) * 2 ^ 6 + word / 2 ^ 30 % 2 ^ 6) * 2 ^ 6 +
      word / 2 ^ 24 % 2 ^ 6) * 2 ^ 20 + word / 2 ^ 4 % 2 ^ 20) * 2 ^ 4 + word / 2 ^ 0 % 2 ^ 4 := by
  have noBits : word % 2 ^ 0 = 0 := Nat.mod_one word
  rw [mod_eq_field word 46 4, mod_eq_field word 41 5, mod_eq_field word 36 5,
    mod_eq_field word 30 6, mod_eq_field word 24 6, mod_eq_field word 4 20,
    mod_eq_field word 0 4, noBits]
  ring

/-- The number is that of the fields. -/
theorem toInt_timeVal :
    time.timeVal.toInt = mixedRadix time.year.toInt radices time.digits := by
  rw [toInt_eq_year, mod_eq_fields]
  simp only [radices, digits, mixedRadix, year, mon, day, hour, min, sec, usec, unused,
    BitVec.extractLsb'_toNat, Nat.shiftRight_eq_div_pow]
  generalize (time.timeVal.extractLsb' 50 14).toInt = yearValue
  push_cast
  ring

variable {time t}

/-- Without the spare bits, times are in the order of their fields, and alike if the fields are;
the time zone is not looked at. -/
theorem comparesChronologically (unused : time.unused = 0) (otherUnused : t.unused = 0) :
    (time.operatorLess t = true ↔ time.fields < t.fields) ∧
      (time.operatorEq t = true ↔ time.fields = t.fields) := by
  constructor
  · rw [operatorLess, BitVec.slt_iff_toInt_lt, toInt_timeVal, toInt_timeVal,
      mixedRadix_lt_iff time.digits_inRange t.digits_inRange]
    simp only [fields, digits, unused, otherUnused, List.cons_lt_cons_iff, lt_irrefl, or_false,
      and_false]
  · rw [operatorEq, beq_iff_eq, ← BitVec.toInt_inj, toInt_timeVal, toInt_timeVal,
      mixedRadix_eq_iff time.digits_inRange t.digits_inRange]
    simp only [fields, digits, unused, otherUnused, List.cons.injEq]

/-- The last microsecond of a year before the year 0, and the first one of the next year. -/
def endOfYear : Time :=
  ofTm id 0 ⟨59, 59, 23, 31, 11, -1901, 0⟩ 999999 0 0

def newYear : Time :=
  ofTm id 7 ⟨0, 0, 0, 1, 0, -1900, 0⟩ 0 0 0

theorem comparesChronologically_newYear :
    (endOfYear.operatorLess newYear = true ↔ endOfYear.fields < newYear.fields) ∧
      (endOfYear.operatorEq newYear = true ↔ endOfYear.fields = newYear.fields) :=
  comparesChronologically unused_ofTm unused_ofTm

example : endOfYear.fields = [-1, 12, 31, 23, 59, 59, 999999] := by decide

end Time

end Pmgd
