import Mathlib.Algebra.Order.Ring.Int
import Mathlib.Data.List.Lex
import Mathlib.Tactic.Common

/-!
# The Gregorian calendar

Dates with times of day as numbers of seconds, for all years.  Fields out of their ranges count on:
an hour before midnight is one of the day before.  Each second has one normal date.
-/

namespace Pmgd.Calendar

/-- A date and a time of day. -/
@[ext]
structure DateTime where
  year : Int
  month : Int
  day : Int
  hour : Int
  minute : Int
  second : Int
  deriving DecidableEq

/-- The days before a year, from the year 1 on. -/
def yearStart (year : Int) : Int :=
  365 * (year - 1) + (year - 1) / 4 - (year - 1) / 100 + (year - 1) / 400

def isLeap (year : Int) : Bool :=
  year % 4 = 0 ∧ (year % 100 ≠ 0 ∨ year % 400 = 0)

/-- The days of a year before a month; January is 0. -/
def monthStart (leap : Bool) : Nat → Nat
  | 0 => 0
  | 1 => 31
  | 2 => 59 + leap.toNat
  | 3 => 90 + leap.toNat
  | 4 => 120 + leap.toNat
  | 5 => 151 + leap.toNat
  | 6 => 181 + leap.toNat
  | 7 => 212 + leap.toNat
  | 8 => 243 + leap.toNat
  | 9 => 273 + leap.toNat
  | 10 => 304 + leap.toNat
  | 11 => 334 + leap.toNat
  | _ => 365 + leap.toNat

/-- The month that a day of a year is in. -/
def monthOf (leap : Bool) (day : Nat) : Nat :=
  (List.range 11).countP fun month => monthStart leap (month + 1) ≤ day

/-- The year that a day is in; the average length of a year leads to it or to one beside it. -/
def yearOf (day : Int) : Int :=
  let guess := 400 * day / 146097 + 1
  if day < yearStart guess then guess - 1
  else if yearStart (guess + 1) ≤ day then guess + 1
  else guess

theorem yearStart_succ (year : Int) :
    yearStart (year + 1) = yearStart year + 365 + (isLeap year).toNat := by
  have four : year / 4 = (year - 1) / 4 + if year % 4 = 0 then 1 else 0 := by
    split_ifs <;> omega
  have hundred : year / 100 = (year - 1) / 100 + if year % 100 = 0 then 1 else 0 := by
    split_ifs <;> omega
  have fourHundred : year / 400 = (year - 1) / 400 + if year % 400 = 0 then 1 else 0 := by
    split_ifs <;> omega
  have ofHundred : year % 400 = 0 → year % 100 = 0 := by omega
  have ofFour : year % 100 = 0 → year % 4 = 0 := by omega
  rw [yearStart, yearStart, isLeap, Int.add_sub_cancel, four, hundred, fourHundred]
  generalize (year - 1) / 4 = a, (year - 1) / 100 = b, (year - 1) / 400 = c
  clear four hundred fourHundred
  by_cases isFour : year % 4 = 0
  · by_cases isHundred : year % 100 = 0
    · by_cases isFourHundred : year % 400 = 0
      · simp [isFour, isHundred, isFourHundred]
        omega
      · simp [isFour, isHundred, isFourHundred]
        omega
    · simp [isFour, isHundred, mt ofHundred isHundred]
      omega
  · have notHundred := mt ofFour isFour
    simp [isFour, notHundred, mt ofHundred notHundred]
    omega

theorem yearStart_le {year other : Int} (le : year ≤ other) : yearStart year ≤ yearStart other := by
  rw [yearStart, yearStart]
  omega

theorem yearStart_bounds (year : Int) : 146097 * (year - 1) - 699 ≤ 400 * yearStart year ∧
    400 * yearStart year ≤ 146097 * (year - 1) + 396 := by
  rw [yearStart]
  omega

theorem yearOf_spec (day : Int) : yearStart (yearOf day) ≤ day ∧ day < yearStart (yearOf day + 1) := by
  have isGuess : 146097 * (400 * day / 146097) ≤ 400 * day ∧
      400 * day < 146097 * (400 * day / 146097) + 146097 := by omega
  rw [yearOf]
  generalize 400 * day / 146097 = guess at *
  have before := yearStart_bounds (guess + 1 - 1)
  have after := yearStart_bounds (guess + 1 + 1 + 1)
  split_ifs with early late
  · refine ⟨by omega, ?_⟩
    rwa [Int.sub_add_cancel]
  · exact ⟨late, by omega⟩
  · exact ⟨not_lt.mp early, not_le.mp late⟩

theorem yearOf_eq {day year : Int} (notBefore : yearStart year ≤ day)
    (notAfter : day < yearStart (year + 1)) : yearOf day = year := by
  obtain ⟨from_, until_⟩ := yearOf_spec day
  by_contra differs
  rcases lt_or_gt_of_ne differs with earlier | later
  · have := yearStart_le (show yearOf day + 1 ≤ year from earlier)
    omega
  · have := yearStart_le (show year + 1 ≤ yearOf day from later)
    omega

/-! ## Months -/

/-- If what has a property comes first, the number of those that have it is where it ends. -/
theorem countP_range_spec {holds : Nat → Bool}
    (before : ∀ place, holds (place + 1) = true → holds place = true) (count : Nat) :
    (List.range count).countP holds ≤ count ∧
      (∀ place < (List.range count).countP holds, holds place = true) ∧
        ((List.range count).countP holds < count →
          holds ((List.range count).countP holds) = false) := by
  have upTo {first : Nat} : ∀ more, holds (first + more) = true → holds first = true := by
    intro more
    induction more with
    | zero => exact id
    | succ more induction => exact fun last => induction (before _ last)
  induction count with
  | zero => exact ⟨Nat.le_refl 0, fun place inside => absurd inside place.not_lt_zero,
      fun inside => absurd inside (Nat.lt_irrefl 0)⟩
  | succ count induction =>
      obtain ⟨notMore, all, isEnd⟩ := induction
      rw [List.range_succ, List.countP_append, List.countP_singleton]
      cases last : holds count with
      | false =>
          rw [if_neg Bool.false_ne_true, Nat.add_zero]
          refine ⟨Nat.le_succ_of_le notMore, all, fun _ => ?_⟩
          rcases Nat.lt_or_eq_of_le notMore with inside | same
          · exact isEnd inside
          · rwa [same]
      | true =>
          have same : (List.range count).countP holds = count := by
            by_contra different
            have inside := Nat.lt_of_le_of_ne notMore different
            obtain ⟨more, isCount⟩ := Nat.exists_eq_add_of_lt inside
            have earlier := @upTo ((List.range count).countP holds) (more + 1)
            rw [← Nat.add_assoc, ← isCount] at earlier
            rw [isEnd inside] at earlier
            cases earlier last
          rw [same] at all ⊢
          refine ⟨Nat.le_refl _, fun place inside => ?_, fun inside => absurd inside
            (Nat.lt_irrefl _)⟩
          rcases Nat.lt_succ_iff_lt_or_eq.mp inside with earlier | rfl
          · exact all place earlier
          · exact last

theorem monthStart_le_succ (leap : Bool) (month : Nat) :
    monthStart leap month ≤ monthStart leap (month + 1) := by
  by_cases inYear : month < 12
  · revert month
    cases leap <;> decide
  · obtain ⟨more, rfl⟩ := Nat.exists_eq_add_of_le (Nat.le_of_not_lt inYear)
    rw [Nat.add_comm]
    rfl

theorem monthOf_spec (leap : Bool) (day : Nat) (inYear : day < 365 + leap.toNat) :
    monthOf leap day < 12 ∧ monthStart leap (monthOf leap day) ≤ day ∧
      day < monthStart leap (monthOf leap day + 1) := by
  have before (month : Nat) (notAfter : decide (monthStart leap (month + 2) ≤ day) = true) :
      decide (monthStart leap (month + 1) ≤ day) = true :=
    decide_eq_true ((monthStart_le_succ leap _).trans (of_decide_eq_true notAfter))
  obtain ⟨isMonth, started, notNext⟩ :=
    @countP_range_spec (fun month => monthStart leap (month + 1) ≤ day) before 11
  rw [← monthOf] at isMonth started notNext
  refine ⟨Nat.lt_succ_of_le isMonth, ?_, ?_⟩
  · cases isFirst : monthOf leap day with
    | zero => exact Nat.zero_le day
    | succ month => exact of_decide_eq_true (started month (isFirst ▸ Nat.lt_succ_self month))
  · rcases Nat.lt_or_eq_of_le isMonth with inside | isLast
    · exact Nat.lt_of_not_le (of_decide_eq_false (notNext inside))
    · rw [isLast]
      exact inYear

theorem monthStart_le (leap : Bool) : ∀ month < 12, ∀ other < 13, month < other →
    monthStart leap (month + 1) ≤ monthStart leap other := by
  cases leap <;> decide

theorem monthOf_eq (leap : Bool) : ∀ month < 12, ∀ day < 366, monthStart leap month ≤ day →
    day < monthStart leap (month + 1) → monthOf leap day = month := by
  intro month inYear day _ notBefore notAfter
  have inside : day < 365 + leap.toNat :=
    Nat.lt_of_lt_of_le notAfter (monthStart_le leap month inYear 12 (by decide) inYear)
  obtain ⟨isMonth, from_, until_⟩ := monthOf_spec leap day inside
  rcases Nat.lt_trichotomy (monthOf leap day) month with earlier | same | later
  · have before := monthStart_le leap _ isMonth month (Nat.lt_succ_of_lt inYear) earlier
    omega
  · exact same
  · have behind := monthStart_le leap month inYear _ (Nat.lt_succ_of_lt isMonth) later
    omega

/-! ## Seconds -/

namespace DateTime

/-- The days before a date; a month out of range counts on into another year. -/
def dayNumber (date : DateTime) : Int :=
  let year := date.year + (date.month - 1) / 12
  yearStart year + monthStart (isLeap year) ((date.month - 1) % 12).toNat + date.day - 1

def seconds (date : DateTime) : Int :=
  86400 * date.dayNumber + 3600 * date.hour + 60 * date.minute + date.second

def ofSeconds (seconds : Int) : DateTime :=
  let day := seconds / 86400
  let year := yearOf day
  let dayOfYear := (day - yearStart year).toNat
  let month := monthOf (isLeap year) dayOfYear
  { year := year
    month := month + 1
    day := dayOfYear - monthStart (isLeap year) month + 1
    hour := seconds % 86400 / 3600
    minute := seconds % 3600 / 60
    second := seconds % 60 }

/-- All fields in their ranges. -/
structure Normal (date : DateTime) : Prop where
  month : 1 ≤ date.month ∧ date.month ≤ 12
  day : 1 ≤ date.day ∧ date.day + monthStart (isLeap date.year) (date.month - 1).toNat ≤
    monthStart (isLeap date.year) date.month.toNat
  hour : 0 ≤ date.hour ∧ date.hour < 24
  minute : 0 ≤ date.minute ∧ date.minute < 60
  second : 0 ≤ date.second ∧ date.second < 60

variable {date other : DateTime}

theorem Normal.day_le (normal : date.Normal) : date.day ≤ 31 := by
  have lengths (leap : Bool) : ∀ month < 13, monthStart leap month ≤
      monthStart leap (month - 1) + 31 := by
    cases leap <;> decide
  obtain ⟨_, _⟩ := normal.month
  have isLast := normal.day.2
  have length := lengths (isLeap date.year) date.month.toNat (by omega)
  have isMonth : date.month.toNat - 1 = (date.month - 1).toNat := by omega
  rw [isMonth] at length
  omega

theorem Normal.dayNumber_eq (normal : date.Normal) : date.dayNumber = yearStart date.year +
    monthStart (isLeap date.year) (date.month - 1).toNat + date.day - 1 := by
  have isMonth := normal.month
  have noCarry : (date.month - 1) / 12 = 0 := by omega
  have inRange : (date.month - 1) % 12 = date.month - 1 := by omega
  rw [dayNumber, noCarry, inRange, Int.add_zero]

theorem Normal.dayNumber_bounds (normal : date.Normal) :
    yearStart date.year ≤ date.dayNumber ∧ date.dayNumber < yearStart (date.year + 1) := by
  obtain ⟨_, _⟩ := normal.month
  obtain ⟨_, _⟩ := normal.day
  have last : monthStart (isLeap date.year) date.month.toNat ≤ 365 + (isLeap date.year).toNat := by
    by_cases isLast : date.month = 12
    · rw [isLast]
      exact le_rfl
    · have step := monthStart_le (isLeap date.year) (date.month.toNat - 1) (by omega) 12 (by omega)
        (by omega)
      rwa [Nat.sub_add_cancel (by omega)] at step
  rw [normal.dayNumber_eq, yearStart_succ]
  omega

theorem seconds_div (normal : date.Normal) : date.seconds / 86400 = date.dayNumber ∧
    date.seconds % 86400 = 3600 * date.hour + 60 * date.minute + date.second := by
  have isHour := normal.hour
  have isMinute := normal.minute
  have isSecond := normal.second
  rw [seconds]
  omega

/-- A normal date is that of its seconds. -/
theorem ofSeconds_seconds (normal : date.Normal) : ofSeconds date.seconds = date := by
  obtain ⟨isDay, inDay⟩ := seconds_div normal
  obtain ⟨notBefore, notAfter⟩ := normal.dayNumber_bounds
  obtain ⟨isMonth, lastMonth⟩ := normal.month
  obtain ⟨isFirst, lastDay⟩ := normal.day
  obtain ⟨_, _⟩ := normal.hour
  obtain ⟨_, _⟩ := normal.minute
  obtain ⟨_, _⟩ := normal.second
  have isYear := yearOf_eq notBefore notAfter
  have isNumber := normal.dayNumber_eq
  have isDayOfYear : (date.dayNumber - yearStart date.year).toNat =
      monthStart (isLeap date.year) (date.month - 1).toNat + (date.day - 1).toNat := by omega
  have inYear : (date.dayNumber - yearStart date.year).toNat < 366 := by
    have leapYear := yearStart_succ date.year
    have atMostOne := (isLeap date.year).toNat_le
    omega
  have isMonthOf : monthOf (isLeap date.year) (date.dayNumber - yearStart date.year).toNat =
      (date.month - 1).toNat := by
    apply monthOf_eq _ _ (by omega) _ inYear
    · omega
    · have next : (date.month - 1).toNat + 1 = date.month.toNat := by omega
      rw [next]
      omega
  rw [ofSeconds]
  simp only [isDay, isYear, isMonthOf]
  ext <;> dsimp only <;> omega

theorem normal_ofSeconds (seconds : Int) : (ofSeconds seconds).Normal := by
  obtain ⟨notBefore, notAfter⟩ := yearOf_spec (seconds / 86400)
  rw [yearStart_succ] at notAfter
  obtain ⟨isMonth, fromMonth, untilMonth⟩ := monthOf_spec (isLeap (yearOf (seconds / 86400)))
    (seconds / 86400 - yearStart (yearOf (seconds / 86400))).toNat (by omega)
  rw [ofSeconds]
  refine ⟨⟨?_, ?_⟩, ⟨?_, ?_⟩, ?_, ?_, ?_⟩ <;> dsimp only
  · omega
  · omega
  · omega
  · rw [Int.add_sub_cancel, Int.toNat_natCast, Int.toNat_natCast_add_one]
    omega
  · omega
  · omega
  · omega

/-- The seconds of a date are those of a normal date. -/
theorem seconds_ofSeconds (seconds : Int) : (ofSeconds seconds).seconds = seconds := by
  have isNumber := (normal_ofSeconds seconds).dayNumber_eq
  obtain ⟨notBefore, -⟩ := yearOf_spec (seconds / 86400)
  rw [DateTime.seconds, isNumber, ofSeconds]
  dsimp only
  rw [Int.add_sub_cancel, Int.toNat_natCast]
  omega

/-- Fields that count on give the date of their seconds. -/
def normalize (date : DateTime) : DateTime :=
  ofSeconds date.seconds

/-- The normal date of some seconds. -/
theorem ofSeconds_eq_iff (normal : date.Normal) (seconds : Int) :
    ofSeconds seconds = date ↔ seconds = date.seconds := by
  constructor
  · rintro rfl
    exact (seconds_ofSeconds seconds).symm
  · rintro rfl
    exact ofSeconds_seconds normal

theorem seconds_normalize (date : DateTime) : date.normalize.seconds = date.seconds :=
  seconds_ofSeconds date.seconds

/-- The fields from the year on. -/
def fields (date : DateTime) : List Int :=
  [date.year, date.month, date.day, date.hour, date.minute, date.second]

theorem seconds_lt_of_dayNumber (normal : date.Normal) (normal' : other.Normal)
    (earlier : date.dayNumber < other.dayNumber) : date.seconds < other.seconds := by
  have days := (seconds_div normal).1
  have days' := (seconds_div normal').1
  omega

theorem seconds_lt_of_fields (normal : date.Normal) (normal' : other.Normal)
    (less : date.fields < other.fields) : date.seconds < other.seconds := by
  obtain ⟨isMonth, lastMonth⟩ := normal.month
  obtain ⟨isMonth', lastMonth'⟩ := normal'.month
  obtain ⟨isFirst, lastDay⟩ := normal.day
  obtain ⟨isFirst', lastDay'⟩ := normal'.day
  have isDay := normal.dayNumber_eq
  have isDay' := normal'.dayNumber_eq
  simp only [fields, List.cons_lt_cons_iff, List.not_lt_nil, and_false, or_false] at less
  rcases less with year | ⟨sameYear, month | ⟨sameMonth, day | ⟨sameDay, time⟩⟩⟩
  · apply seconds_lt_of_dayNumber normal normal'
    have before := normal.dayNumber_bounds.2
    have after := normal'.dayNumber_bounds.1
    have between := yearStart_le (show date.year + 1 ≤ other.year from year)
    omega
  · apply seconds_lt_of_dayNumber normal normal'
    have between := monthStart_le (isLeap date.year) (date.month - 1).toNat (by omega)
      (other.month - 1).toNat (by omega) (by omega)
    have next : (date.month - 1).toNat + 1 = date.month.toNat := by omega
    rw [next] at between
    rw [← sameYear] at isDay'
    omega
  · apply seconds_lt_of_dayNumber normal normal'
    rw [← sameYear, ← sameMonth] at isDay'
    omega
  · have sameNumber : date.dayNumber = other.dayNumber := by
      rw [isDay, isDay', sameYear, sameMonth, sameDay]
    have isHour := normal.hour
    have isHour' := normal'.hour
    have isMinute := normal.minute
    have isMinute' := normal'.minute
    have isSecond := normal.second
    have isSecond' := normal'.second
    rw [seconds, seconds, sameNumber]
    omega

theorem fields_injective (same : date.fields = other.fields) : date = other := by
  simp only [fields, List.cons.injEq, and_true] at same
  obtain ⟨year, month, day, hour, minute, second⟩ := same
  exact DateTime.ext year month day hour minute second

/-- Normal dates are in the order of their fields. -/
theorem seconds_lt_iff (normal : date.Normal) (normal' : other.Normal) :
    date.seconds < other.seconds ↔ date.fields < other.fields := by
  refine ⟨fun earlier => ?_, seconds_lt_of_fields normal normal'⟩
  rcases lt_trichotomy date.fields other.fields with less | same | greater
  · exact less
  · obtain rfl := fields_injective same
    exact absurd earlier (lt_irrefl _)
  · exact absurd earlier (seconds_lt_of_fields normal' normal greater).asymm

end DateTime

end Pmgd.Calendar
