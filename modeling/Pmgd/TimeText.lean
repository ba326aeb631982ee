import Pmgd.Lib.Decimal
import Pmgd.LocalTimes

/-!
# Times as text

`time_to_string` writes a time in the format of ISO 8601, and `string_to_tm` reads this format and
a second one.  A text that was written with the offset of the time zone gives the time back.
-/

namespace Pmgd

open Calendar Decimal

/-! ## `strptime` -/

/-- The fields of a `struct tm` that are numbers in text. -/
inductive TmField
  | year
  | month
  | day
  | hour
  | minute
  | second

namespace TmField

/-- The least and the largest number, and how many digits are read at most. -/
def range : TmField → Nat × Nat × Nat
  | year => (0, 9999, 4)
  | month => (1, 12, 2)
  | day => (1, 31, 2)
  | hour => (0, 23, 2)
  | minute => (0, 59, 2)
  | second => (0, 61, 2)

def set (value : Nat) (tm : Tm) : TmField → Tm
  | year => { tm with tmYear := value - 1900 }
  | month => { tm with tmMon := value - 1 }
  | day => { tm with tmMday := value }
  | hour => { tm with tmHour := value }
  | minute => { tm with tmMin := value }
  | second => { tm with tmSec := value }

end TmField

/-- What a format of `strptime` consists of. -/
inductive Conversion
  | number (field : TmField)
  | weekday
  | monthName
  | literal (c : Char)
  | blank

/-- `isspace`. -/
def isSpace (c : Char) : Bool :=
  c = ' ' || (9 ≤ c.toNat && c.toNat ≤ 13)

/-- The further digits of a number. -/
def getDigits (high : Nat) : Nat → Nat → List Char → Nat × List Char
  | count + 1, value, c :: rest =>
      if value * 10 ≤ high && c.isDigit then
        getDigits high count (10 * value + (c.toNat - '0'.toNat)) rest
      else (value, c :: rest)
  | _, value, text => (value, text)

/-- A number of at most `count` digits. -/
def getNumber (low high count : Nat) (text : List Char) : Option (Nat × List Char) :=
  match text.dropWhile isSpace with
  | [] => none
  | c :: rest =>
      if c.isDigit then
        let (value, rest) := getDigits high (count - 1) (c.toNat - '0'.toNat) rest
        if low ≤ value ∧ value ≤ high then some (value, rest) else none
      else none

/-- The first of some names that a text starts with, in any case. -/
def getName (names : List (List Char)) (text : List Char) : Option (Nat × List Char) :=
  (names.zipIdx.find? fun name =>
    (text.take name.1.length).map Char.toLower = name.1.map Char.toLower).map fun name =>
      (name.2, text.drop name.1.length)

/-- A name in full or its first three letters. -/
def getLongName (names : List (List Char)) (text : List Char) : Option (Nat × List Char) :=
  getName names text <|> getName (names.map fun name => name.take 3) text

def weekdays : List (List Char) :=
  ["Sunday".toList, "Monday".toList, "Tuesday".toList, "Wednesday".toList, "Thursday".toList,
    "Friday".toList, "Saturday".toList]

def months : List (List Char) :=
  ["January".toList, "February".toList, "March".toList, "April".toList, "May".toList,
    "June".toList, "July".toList, "August".toList, "September".toList, "October".toList,
    "November".toList, "December".toList]

/-- `strptime`: the fields read so far, and the rest of the text unless it returned `NULL`. -/
def strptime : List Conversion → Tm → List Char → Tm × Option (List Char)
  | [], tm, text => (tm, some text)
  | .number field :: format, tm, text =>
      match getNumber field.range.1 field.range.2.1 field.range.2.2 text with
      | none => (tm, none)
      | some (value, rest) => strptime format (field.set value tm) rest
  | .weekday :: format, tm, text =>
      match getLongName weekdays text with
      | none => (tm, none)
      | some (_, rest) => strptime format tm rest
  | .monthName :: format, tm, text =>
      match getLongName months text with
      | none => (tm, none)
      | some (month, rest) => strptime format { tm with tmMon := month } rest
  | .literal c :: format, tm, text =>
      match text with
      | [] => (tm, none)
      | other :: rest => if other = c then strptime format tm rest else (tm, none)
  | .blank :: format, tm, text => strptime format tm (text.dropWhile isSpace)

/-- `%F`. -/
def dateFormat : List Conversion :=
  [.number .year, .literal '-', .number .month, .literal '-', .number .day]

/-- `%R`. -/
def minuteFormat : List Conversion :=
  [.number .hour, .literal ':', .number .minute]

/-- `%T`. -/
def timeFormat : List Conversion :=
  minuteFormat ++ [.literal ':', .number .second]

/-! ## The functions -/

/-- What `strtol` reads: the number, how many characters it takes, and the rest of the text. -/
def strtol (text : List Char) : Int × Nat × List Char :=
  let spaces := text.takeWhile isSpace
  let signed := text.dropWhile isSpace
  let (sign, unsigned) := match signed with
    | '-' :: rest => ((-1 : Int), rest)
    | '+' :: rest => (1, rest)
    | rest => (1, rest)
  let digits := unsigned.takeWhile Char.isDigit
  if digits = [] then (0, 0, text)
  else (sign * number digits, spaces.length + (signed.length - unsigned.length) + digits.length,
    unsigned.dropWhile Char.isDigit)

/-- `atoi`. -/
def atoi (text : List Char) : Int :=
  (strtol text).1

/-- `get_timezone`. -/
def getTimezone (str : List Char) (tzLen : Nat) : Int × Int :=
  match str with
  | '+' :: rest =>
      if tzLen = 5 then (atoi (rest.take 2), atoi ((rest.drop 2).take 2)) else (0, 0)
  | '-' :: rest =>
      if tzLen = 5 then (-atoi (rest.take 2), atoi ((rest.drop 2).take 2)) else (0, 0)
  | first :: mid :: last :: _ =>
      if tzLen = 3 ∧ last.toUpper = 'T' then
        if mid.toUpper = 'D' ∨ mid.toUpper = 'S' then
          let summer : Int := if mid.toUpper = 'D' then 1 else 0
          if first.toUpper = 'E' then (summer - 5, 0)
          else if first.toUpper = 'C' then (summer - 6, 0)
          else if first.toUpper = 'M' then (summer - 7, 0)
          else if first.toUpper = 'P' then (summer - 8, 0)
          else (0, 0)
        else (0, 0)
      else (0, 0)
  | _ => (0, 0)

/-- What `string_to_tm` stores. -/
structure ParsedTime where
  tm : Tm
  usec : Nat
  hrOffset : Int
  minOffset : Int

/-- The part of `string_to_tm` for a date with a weekday, and a year behind the time zone. -/
def weekdayToTm (text : List Char) (tm : Tm) (usec : Nat) : Option ParsedTime :=
  match strptime ([.weekday, .blank, .monthName, .blank, .number .day, .blank] ++ timeFormat ++
      [.blank]) tm text with
  | (_, none) => none
  | (tm, some leftOver) =>
      if tm.tmMday = 0 then none
      else
        let tzLen := (leftOver.takeWhile fun c => ¬ (c = ' ' ∨ c = '\t')).length
        if tzLen = 0 ∨ tzLen = leftOver.length then none
        else
          let (hrOffset, minOffset) := getTimezone leftOver tzLen
          match strptime [.number .year] tm (leftOver.drop tzLen) with
          | (_, none) => none
          | (tm, some _) => some ⟨tm, usec, hrOffset, minOffset⟩

/-- The fraction of a second; the factor depends on the number of digits. -/
def fraction (text : List Char) : Option (Nat × List Char) :=
  let (value, consumed, rest) := strtol text
  let scaled (factor : Int) : Option (Nat × List Char) :=
    some ((value * factor % 2 ^ 64).toNat, rest)
  match consumed with
  | 1 => scaled 100000
  | 2 => scaled 10000
  | 3 => scaled 1000
  | 6 => scaled 1
  | _ => none

/-- The part of `string_to_tm` behind the seconds. -/
def zoneToTm (text : List Char) (tm : Tm) (usec : Nat) (leftOver : List Char) :
    Option ParsedTime :=
  match strptime (.literal '+' :: minuteFormat) tm leftOver with
  | (tz, some _) => some ⟨tm, usec, tz.tmHour, tz.tmMin⟩
  | (_, none) =>
      match strptime (.literal '-' :: minuteFormat) tm leftOver with
      | (tz, some _) => some ⟨tm, usec, -tz.tmHour, tz.tmMin⟩
      | (_, none) =>
          if leftOver.head? = some '+' ∨ leftOver.head? = some '-' then
            let (tmp, consumed, _) := strtol leftOver
            if consumed = 5 then some ⟨tm, usec, tmp.tdiv 100, (tmp.tmod 100).natAbs⟩ else none
          else weekdayToTm text tm usec

/-- The part of `string_to_tm` behind a date and a time of day. -/
def secondsToTm (text : List Char) (tm : Tm) : List Char → Option ParsedTime
  | [] => some ⟨tm, 0, 0, 0⟩
  | '.' :: leftOver =>
      match fraction leftOver with
      | none => none
      | some (usec, []) => some ⟨tm, usec, 0, 0⟩
      | some (usec, leftOver) => zoneToTm text tm usec leftOver
  | leftOver => zoneToTm text tm 0 leftOver

/-- `string_to_tm`; `none` is the result `false`. -/
def stringToTm (tstr : List Char) : Option ParsedTime :=
  let text := tstr.takeWhile fun c => c.toNat ≠ 0
  match strptime dateFormat ⟨0, 0, 0, 0, 0, 0, 0⟩ text with
  | (tm, none) => weekdayToTm text tm 0
  | (tm, some []) => some ⟨tm, 0, 0, 0⟩
  | (tm, some leftOver) =>
      match strptime (.literal 'T' :: timeFormat) tm leftOver with
      | (tm, none) => weekdayToTm text tm 0
      | (tm, some leftOver) => secondsToTm text tm leftOver

namespace Time

/-- `strftime` with `%FT%T`. -/
def strftime (tm : Tm) : List Char :=
  signedDecimal (tm.tmYear + 1900) ++ '-' :: padded 2 (tm.tmMon + 1).toNat ++
    '-' :: padded 2 tm.tmMday.toNat ++ 'T' :: padded 2 tm.tmHour.toNat ++
    ':' :: padded 2 tm.tmMin.toNat ++ ':' :: padded 2 tm.tmSec.toNat

/-- `time_to_string`. -/
def timeToString (time : Time) (utc : Bool) : List Char :=
  let usec := time.usec.toNat
  let str := strftime (if utc then time.getUtc else time.getTm)
  let str := str ++
    if 0 < usec then
      if usec % 1000 = 0 then '.' :: padded 3 (usec / 1000) else '.' :: padded 6 usec
    else []
  let tzHour := time.tzHour.toInt
  str ++
    if utc then ['Z']
    else (if tzHour < 0 then '-' else '+') :: padded 2 tzHour.natAbs ++
      ':' :: padded 2 (time.tzMin.toNat * 15)

end Time

/-! ## Numbers in a format -/

section Numbers

variable {low high count value : Nat} {digits rest : List Char} {format : List Conversion} {tm : Tm}

theorem le_ofDigitChars (digits : List Char) (value : Nat) :
    value ≤ Nat.ofDigitChars 10 digits value := by
  rw [Nat.ofDigitChars_eq_ofDigitChars_zero]
  have positive : 0 < 10 ^ digits.length := Nat.pos_of_ne_zero (by simp)
  have enough := Nat.le_mul_of_pos_left value positive
  omega

theorem getDigits_eq (areDigits : ∀ c ∈ digits, c.isDigit = true)
    (inRange : Nat.ofDigitChars 10 digits value ≤ high) (few : digits.length ≤ count)
    (stops : digits.length = count ∨ ∀ c ∈ rest.head?, c.isDigit = false) :
    getDigits high count value (digits ++ rest) = (Nat.ofDigitChars 10 digits value, rest) := by
  induction digits generalizing count value with
  | nil =>
      rw [List.nil_append, Nat.ofDigitChars_nil]
      cases count with
      | zero => rw [getDigits]; nofun
      | succ count =>
          have notDigit := stops.resolve_left (Nat.succ_ne_zero count).symm
          cases rest with
          | nil => rw [getDigits]; nofun
          | cons c rest =>
              have other : c.isDigit = false := notDigit c rfl
              rw [getDigits, other, Bool.and_false, if_neg Bool.false_ne_true]
  | cons c digits ih =>
      obtain ⟨count, rfl⟩ : ∃ left, count = left + 1 :=
        ⟨count - 1, by simp only [List.length_cons] at few; omega⟩
      have isDigit := areDigits c List.mem_cons_self
      rw [Nat.ofDigitChars_cons] at inRange ⊢
      have enough := le_ofDigitChars digits (10 * value + (c.toNat - '0'.toNat))
      have inside : value * 10 ≤ high := by omega
      rw [List.cons_append, getDigits, decide_eq_true inside, isDigit, Bool.and_self, if_pos rfl]
      refine ih (fun c member => areDigits c (List.mem_cons_of_mem _ member)) inRange
        (Nat.le_of_succ_le_succ few) (stops.imp_left ?_)
      exact Nat.succ.inj

theorem isSpace_of_isDigit {c : Char} (isDigit : c.isDigit = true) : isSpace c = false := by
  have digit : 48 ≤ c.toNat := by
    simp only [Char.isDigit, Bool.and_eq_true, decide_eq_true_eq] at isDigit
    exact isDigit.1
  have notBlank : c ≠ ' ' := by
    rintro rfl
    exact absurd digit (by decide)
  simp only [isSpace, Bool.or_eq_false_iff, decide_eq_false_iff_not, Bool.and_eq_false_iff]
  exact ⟨notBlank, .inr (by omega)⟩

theorem getNumber_eq (some_ : digits ≠ []) (areDigits : ∀ c ∈ digits, c.isDigit = true)
    (notLess : low ≤ number digits) (notMore : number digits ≤ high) (few : digits.length ≤ count)
    (stops : digits.length = count ∨ ∀ c ∈ rest.head?, c.isDigit = false) :
    getNumber low high count (digits ++ rest) = some (number digits, rest) := by
  cases digits with
  | nil => exact absurd rfl some_
  | cons c digits =>
      have isDigit := areDigits c List.mem_cons_self
      have notSpace := isSpace_of_isDigit isDigit
      have isNumber : number (c :: digits) = Nat.ofDigitChars 10 digits (c.toNat - '0'.toNat) := by
        rw [number, Nat.ofDigitChars_cons, Nat.mul_zero, Nat.zero_add]
      rw [isNumber] at notLess notMore ⊢
      rw [List.length_cons] at few stops
      rw [getNumber, List.cons_append, List.dropWhile_cons_of_neg (by simp [notSpace])]
      dsimp only
      rw [if_pos isDigit, getDigits_eq (fun c member => areDigits c (List.mem_cons_of_mem _ member))
        notMore (by omega) (stops.imp_left (by omega))]
      exact if_pos ⟨notLess, notMore⟩

theorem strptime_nil : strptime [] tm rest = (tm, some rest) :=
  rfl

theorem strptime_number {field : TmField} {text : List Char}
    (isRead : getNumber field.range.1 field.range.2.1 field.range.2.2 text = some (value, rest)) :
    strptime (.number field :: format) tm text = strptime format (field.set value tm) rest := by
  rw [strptime, isRead]

theorem strptime_padded {field : TmField} (isTwo : field.range.2.2 = 2) (small : value < 100)
    (notLess : field.range.1 ≤ value) (notMore : value ≤ field.range.2.1) :
    strptime (.number field :: format) tm (padded 2 value ++ rest) =
      strptime format (field.set value tm) rest := by
  have isLength : (padded 2 value).length = 2 := length_padded (by decide) small
  have isNumber : number (padded 2 value) = value := number_padded
  have some_ : padded 2 value ≠ [] := fun none => by rw [none] at isLength; cases isLength
  apply strptime_number
  rw [getNumber_eq some_ isDigit_padded (isNumber.symm ▸ notLess) (isNumber.symm ▸ notMore)
    (isLength.trans isTwo.symm).le (.inl (isLength.trans isTwo.symm)), isNumber]

theorem strptime_year (small : value ≤ 9999) (stops : ∀ c ∈ rest.head?, c.isDigit = false) :
    strptime (.number .year :: format) tm (decimal value ++ rest) =
      strptime format (TmField.year.set value tm) rest := by
  have few : (decimal value).length ≤ 4 := length_decimal_le (by decide) (by omega)
  have isRead : getNumber TmField.year.range.1 TmField.year.range.2.1 TmField.year.range.2.2
      (decimal value ++ rest) = some (number (decimal value), rest) :=
    getNumber_eq decimal_ne_nil isDigit_decimal (Nat.zero_le _) (number_decimal.trans_le small) few
      (.inr stops)
  rw [strptime_number isRead, number_decimal]

theorem strptime_literal (c : Char) :
    strptime (.literal c :: format) tm (c :: rest) = strptime format tm rest :=
  if_pos rfl

theorem strtol_digits (some_ : digits ≠ []) (areDigits : ∀ c ∈ digits, c.isDigit = true)
    (stops : ∀ c ∈ rest.head?, c.isDigit = false) :
    strtol (digits ++ rest) = ((number digits : Int), digits.length, rest) := by
  obtain ⟨isRun, isRest⟩ := span_of_stops areDigits stops
  cases digits with
  | nil => exact absurd rfl some_
  | cons c digits =>
      have isDigit := areDigits c List.mem_cons_self
      have notSpace := isSpace_of_isDigit isDigit
      rw [List.cons_append] at isRun isRest ⊢
      rw [strtol, List.takeWhile_cons_of_neg (by simp [notSpace]),
        List.dropWhile_cons_of_neg (by simp [notSpace])]
      split
      next sign unsigned isSigned =>
        split at isSigned
        · next rest isMinus =>
            obtain rfl : c = '-' := (List.cons.inj isMinus).1
            exact absurd isDigit (by decide)
        · next rest isPlus =>
            obtain rfl : c = '+' := (List.cons.inj isPlus).1
            exact absurd isDigit (by decide)
        · obtain ⟨rfl, rfl⟩ := Prod.mk.inj isSigned
          rw [isRun, isRest, if_neg some_, one_mul, List.length_nil, Nat.sub_self, Nat.zero_add]

/-- A fraction of a second in three or in six digits. -/
theorem fraction_eq (isLength : digits.length = 3 ∨ digits.length = 6)
    (areDigits : ∀ c ∈ digits, c.isDigit = true) (stops : ∀ c ∈ rest.head?, c.isDigit = false) :
    fraction (digits ++ rest) =
      some ((if digits.length = 3 then number digits * 1000 else number digits) % 2 ^ 64,
        rest) := by
  have some_ : digits ≠ [] := by
    rintro rfl
    simp at isLength
  rw [fraction, strtol_digits some_ areDigits stops]
  dsimp only
  rcases isLength with three | six
  · rw [three, if_pos rfl]
    have isScaled : ((number digits : Int) * 1000 % 2 ^ 64).toNat =
        number digits * 1000 % 2 ^ 64 := Int.toNat_natCast (number digits * 1000 % 2 ^ 64)
    exact congrArg (fun value => some (value, rest)) isScaled
  · rw [six, if_neg (by decide), mul_one]
    have isScaled : ((number digits : Int) % 2 ^ 64).toNat = number digits % 2 ^ 64 :=
      Int.toNat_natCast (number digits % 2 ^ 64)
    exact congrArg (fun value => some (value, rest)) isScaled

end Numbers

/-! ## From text to text -/

namespace Time

section RoundTrip

variable {time : Time} {tm : Tm} {rest tail : List Char}

/-- The part of `strftime` behind the date. -/
def clockText (tm : Tm) : List Char :=
  'T' :: padded 2 tm.tmHour.toNat ++ ':' :: padded 2 tm.tmMin.toNat ++
    ':' :: padded 2 tm.tmSec.toNat

theorem strptime_date (normal : tm.date.Normal) (notBefore : -1900 ≤ tm.tmYear)
    (notAfter : tm.tmYear ≤ 8099) :
    strptime dateFormat ⟨0, 0, 0, 0, 0, 0, 0⟩ (strftime tm ++ tail) =
      (⟨0, 0, 0, tm.tmMday, tm.tmMon, tm.tmYear, 0⟩, some (clockText tm ++ tail)) := by
  obtain ⟨_, _⟩ := normal.month
  obtain ⟨_, _⟩ := normal.day
  have lastDay := normal.day_le
  simp only [Tm.date] at *
  have isYear : signedDecimal (tm.tmYear + 1900) = decimal (tm.tmYear + 1900).toNat := by
    rw [signedDecimal, if_neg (by omega)]
    congr 1
    omega
  rw [strftime, clockText, isYear]
  simp only [List.append_assoc, List.cons_append]
  rw [dateFormat, strptime_year (by omega) (by rintro _ ⟨⟩; rfl), strptime_literal,
    strptime_padded rfl (by omega) (by simp only [TmField.range]; omega)
      (by simp only [TmField.range]; omega), strptime_literal,
    strptime_padded rfl (by omega) (by simp only [TmField.range]; omega)
      (by simp only [TmField.range]; omega), strptime_nil]
  simp only [TmField.set]
  congr 2 <;> omega

theorem strptime_clock (normal : tm.date.Normal) {day month year isdst : Int} :
    strptime (.literal 'T' :: timeFormat) ⟨0, 0, 0, day, month, year, isdst⟩
        (clockText tm ++ tail) =
      (⟨tm.tmSec, tm.tmMin, tm.tmHour, day, month, year, isdst⟩, some tail) := by
  obtain ⟨_, _⟩ := normal.hour
  obtain ⟨_, _⟩ := normal.minute
  obtain ⟨_, _⟩ := normal.second
  simp only [Tm.date] at *
  rw [clockText, timeFormat, minuteFormat]
  simp only [List.append_assoc, List.cons_append, List.nil_append]
  rw [strptime_literal, strptime_padded rfl (by omega) (by simp only [TmField.range]; omega)
      (by simp only [TmField.range]; omega), strptime_literal,
    strptime_padded rfl (by omega) (by simp only [TmField.range]; omega)
      (by simp only [TmField.range]; omega), strptime_literal,
    strptime_padded rfl (by omega) (by simp only [TmField.range]; omega)
      (by simp only [TmField.range]; omega), strptime_nil]
  simp only [TmField.set]
  congr 2 <;> omega

/-- The time zone in the text of a time. -/
def zoneText (time : Time) : List Char :=
  (if time.tzHour.toInt < 0 then '-' else '+') :: padded 2 time.tzHour.toInt.natAbs ++
    ':' :: padded 2 (time.tzMin.toNat * 15)

theorem zoneToTm_zoneText (text : List Char) (tm : Tm) (usec : Nat) :
    zoneToTm text tm usec time.zoneText =
      some ⟨tm, usec, time.tzHour.toInt, 15 * time.tzMin.toNat⟩ := by
  have notBefore := BitVec.le_toInt time.tzHour
  have notAfter := BitVec.toInt_lt (x := time.tzHour)
  have lastMin := time.tzMin.isLt
  have minutes (tm : Tm) : strptime minuteFormat tm
      (padded 2 time.tzHour.toInt.natAbs ++ ':' :: padded 2 (time.tzMin.toNat * 15)) =
        ({ tm with tmHour := time.tzHour.toInt.natAbs, tmMin := (time.tzMin.toNat * 15 : Nat) },
          some []) := by
    have noTail : padded 2 (time.tzMin.toNat * 15) = padded 2 (time.tzMin.toNat * 15) ++ [] :=
      (List.append_nil _).symm
    rw [noTail, minuteFormat, strptime_padded rfl (by omega) (Nat.zero_le _)
      (by simp only [TmField.range]; omega), strptime_literal, strptime_padded rfl (by omega)
        (Nat.zero_le _) (by simp only [TmField.range]; omega), strptime_nil]
    rfl
  rw [zoneToTm, zoneText]
  by_cases west : time.tzHour.toInt < 0
  · have notPlus (tm : Tm) (rest : List Char) :
        strptime (.literal '+' :: minuteFormat) tm ('-' :: rest) = (tm, none) := by
      rw [strptime, if_neg (by decide)]
    rw [if_pos west, List.cons_append, notPlus, strptime_literal, minutes]
    refine congrArg some ((ParsedTime.mk.injEq _ _ _ _ _ _ _ _).mpr ⟨rfl, rfl, ?_, ?_⟩) <;>
      dsimp only <;> omega
  · rw [if_neg west, List.cons_append, strptime_literal, minutes]
    refine congrArg some ((ParsedTime.mk.injEq _ _ _ _ _ _ _ _).mpr ⟨rfl, rfl, ?_, ?_⟩) <;>
      dsimp only <;> omega

/-- The fraction of a second in the text of a time. -/
def fractionText (usec : Nat) : List Char :=
  if 0 < usec then
    if usec % 1000 = 0 then '.' :: padded 3 (usec / 1000) else '.' :: padded 6 usec
  else []

theorem timeToString_eq (time : Time) : time.timeToString false =
    strftime time.getTm ++ (fractionText time.usec.toNat ++ time.zoneText) := by
  rw [timeToString, fractionText, zoneText, if_neg Bool.false_ne_true, if_neg Bool.false_ne_true,
    List.append_assoc]

theorem fraction_fractionText {usec : Nat} (small : usec < 1000000) (some_ : 0 < usec)
    (stops : ∀ c ∈ rest.head?, c.isDigit = false) :
    ∃ digits, fractionText usec = '.' :: digits ∧
      fraction (digits ++ rest) = some (usec, rest) := by
  rw [fractionText, if_pos some_]
  by_cases whole : usec % 1000 = 0
  · have three : (padded 3 (usec / 1000)).length = 3 := length_padded (by decide) (by omega)
    refine ⟨padded 3 (usec / 1000), if_pos whole, ?_⟩
    rw [fraction_eq (.inl three) isDigit_padded stops, if_pos three, number_padded]
    congr 2
    omega
  · have six : (padded 6 usec).length = 6 := length_padded (by decide) (by omega)
    refine ⟨padded 6 usec, if_neg whole, ?_⟩
    rw [fraction_eq (.inr six) isDigit_padded stops, if_neg (by omega), number_padded]
    congr 2
    omega

theorem secondsToTm_eq (text : List Char) (tm : Tm) (small : time.usec.toNat < 1000000) :
    secondsToTm text tm (fractionText time.usec.toNat ++ time.zoneText) =
      some ⟨tm, time.usec.toNat, time.tzHour.toInt, 15 * time.tzMin.toNat⟩ := by
  have atZone := @zoneToTm_zoneText time text tm
  by_cases some_ : 0 < time.usec.toNat
  · have stops : ∀ c ∈ time.zoneText.head?, c.isDigit = false := by
      rintro c isHead
      obtain rfl : (if time.tzHour.toInt < 0 then '-' else '+') = c := Option.some.inj isHead
      split_ifs <;> rfl
    obtain ⟨digits, isText, isRead⟩ := fraction_fractionText small some_ stops
    obtain ⟨sign, more, isZone⟩ : ∃ sign more, time.zoneText = sign :: more := ⟨_, _, rfl⟩
    rw [isZone] at isRead atZone
    rw [isText, isZone, List.cons_append, secondsToTm, isRead]
    exact atZone _
  · obtain isZero : time.usec.toNat = 0 := by omega
    have noFraction : fractionText time.usec.toNat = [] := if_neg some_
    rw [noFraction, List.nil_append, isZero, ← atZone 0]
    by_cases west : time.tzHour.toInt < 0
    · rw [zoneText, if_pos west]
      rfl
    · rw [zoneText, if_neg west]
      rfl

/-- The characters of times in text. -/
def IsTimeChar (c : Char) : Prop :=
  c.isDigit = true ∨ c ∈ ['-', 'T', ':', '.', '+']

theorem isTimeChar_timeToString (time : Time) : ∀ c ∈ time.timeToString false, IsTimeChar c := by
  have digits {width value : Nat} : ∀ c ∈ padded width value, IsTimeChar c :=
    fun c member => .inl (isDigit_padded c member)
  have decimals {value : Nat} : ∀ c ∈ decimal value, IsTimeChar c :=
    fun c member => .inl (isDigit_decimal c member)
  have sign : IsTimeChar '-' := .inr (by decide)
  have plus : IsTimeChar '+' := .inr (by decide)
  have colon : IsTimeChar ':' := .inr (by decide)
  have dot : IsTimeChar '.' := .inr (by decide)
  have letter : IsTimeChar 'T' := .inr (by decide)
  have isYear (year : Int) : ∀ c ∈ signedDecimal year, IsTimeChar c := by
    rw [signedDecimal]
    split_ifs
    · exact List.forall_mem_cons.mpr ⟨sign, decimals⟩
    · exact decimals
  have isFraction (usec : Nat) : ∀ c ∈ fractionText usec, IsTimeChar c := by
    rw [fractionText]
    split_ifs
    · exact List.forall_mem_cons.mpr ⟨dot, digits⟩
    · exact List.forall_mem_cons.mpr ⟨dot, digits⟩
    · exact List.forall_mem_nil _
  have isSign : IsTimeChar (if time.tzHour.toInt < 0 then '-' else '+') := by
    split_ifs
    · exact sign
    · exact plus
  rw [timeToString_eq, strftime, zoneText]
  simp only [List.forall_mem_append, List.forall_mem_cons]
  exact ⟨⟨⟨⟨⟨⟨isYear _, sign, digits⟩, sign, digits⟩, letter, digits⟩, colon, digits⟩, colon,
    digits⟩, isFraction _, ⟨isSign, digits⟩, colon, digits⟩

theorem IsTimeChar.toNat_ne_zero {c : Char} (isChar : IsTimeChar c) : c.toNat ≠ 0 := by
  rintro isZero
  have isNul : c = Char.ofNat 0 := by rw [← isZero, Char.ofNat_toNat]
  subst isNul
  rcases isChar with digit | member
  · cases digit
  · exact absurd member (by decide)

/-- A time that was written with its time zone is read back. -/
theorem stringToTm_eq (normal : time.Normal) (notBefore : 0 ≤ time.getTm.date.year)
    (notAfter : time.getTm.date.year ≤ 9999) :
    stringToTm (time.timeToString false) =
      some ⟨time.getTm, time.usec.toNat, time.tzHour.toInt, 15 * time.tzMin.toNat⟩ := by
  have isNormal : time.getTm.date.Normal := by
    rw [date_getTm]
    exact DateTime.normal_ofSeconds _
  have noNul : (time.timeToString false).takeWhile (fun c => c.toNat ≠ 0) =
      time.timeToString false := by
    apply List.takeWhile_eq_self_iff.mpr
    intro c member
    exact decide_eq_true (isTimeChar_timeToString time c member).toNat_ne_zero
  simp only [Tm.date] at notBefore notAfter
  have dateRead := @strptime_date time.getTm (fractionText time.usec.toNat ++ time.zoneText)
    isNormal (by omega) (by omega)
  have clockRead := @strptime_clock time.getTm (fractionText time.usec.toNat ++ time.zoneText)
    isNormal time.getTm.tmMday time.getTm.tmMon time.getTm.tmYear 0
  obtain ⟨rest, isClock⟩ : ∃ rest, clockText time.getTm ++
      (fractionText time.usec.toNat ++ time.zoneText) = 'T' :: rest := ⟨_, rfl⟩
  rw [isClock] at dateRead clockRead
  have behind := @secondsToTm_eq time (time.timeToString false) time.getTm normal.usec
  rw [stringToTm, noNul]
  nth_rewrite 1 [timeToString_eq]
  rw [dateRead]
  dsimp only
  rw [clockRead]
  exact behind

/-- Through text a time is the same again. -/
theorem ofTm_of_timeToString (normal : time.Normal) (notBefore : 0 ≤ time.getTm.date.year)
    (notAfter : time.getTm.date.year ≤ 9999) :
    ∃ parsed, stringToTm (time.timeToString false) = some parsed ∧ ∀ timeZone,
      ofTm Tm.timegm timeZone parsed.tm parsed.usec parsed.hrOffset parsed.minOffset = time :=
  ⟨_, stringToTm_eq normal notBefore notAfter, ofTm_getTm normal⟩

theorem ofTm_of_timeToString_march :
    let time := ofTm Tm.timegm 0 marchTm 250000 5 30
    ∃ parsed, stringToTm (time.timeToString false) = some parsed ∧ ∀ timeZone,
      ofTm Tm.timegm timeZone parsed.tm parsed.usec parsed.hrOffset parsed.minOffset = time :=
  ofTm_of_timeToString normal_march (by decide) (by decide)

end RoundTrip

end Time

end Pmgd
