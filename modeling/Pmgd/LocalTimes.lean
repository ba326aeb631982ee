import Pmgd.Lib.Calendar
import Pmgd.TimeKeys

/-!
# Times in the time zone of the user

A `Time` has the fields of UTC and the offset of a time zone.  `get_tm` gives back the fields that
the constructor was given, and the numbers by which times are compared are in the order of the
microseconds that they stand for.
-/

namespace Pmgd

open Calendar

namespace Tm

/-- The date of a `struct tm`, whose months start from 0 and whose years start from 1900. -/
def date (tm : Tm) : DateTime :=
  ⟨tm.tmYear + 1900, tm.tmMon + 1, tm.tmMday, tm.tmHour, tm.tmMin, tm.tmSec⟩

def ofDate (date : DateTime) : Tm :=
  ⟨date.second, date.minute, date.hour, date.day, date.month - 1, date.year - 1900, 0⟩

/-- What `timegm` leaves in its argument. -/
def timegm (tm : Tm) : Tm :=
  ofDate tm.date.normalize

/-- What `timegm` returns: the seconds since 1970. -/
def seconds (tm : Tm) : Int :=
  tm.date.seconds - (⟨1970, 1, 1, 0, 0, 0⟩ : DateTime).seconds

@[simp]
theorem date_ofDate (date : DateTime) : (ofDate date).date = date := by
  simp [ofDate, Tm.date]

theorem ofDate_date (tm : Tm) : ofDate tm.date = { tm with tmIsdst := 0 } := by
  simp [ofDate, Tm.date]

end Tm

namespace Time

/-- `fill_tm_utc`. -/
def fillTmUtc (time : Time) : Tm :=
  ⟨time.sec.toNat, time.min.toNat, time.hour.toNat, time.day.toNat, time.mon.toNat - 1,
    time.year.toInt - 1900, 0⟩

/-- `get_utc`. -/
def getUtc (time : Time) : Tm :=
  time.fillTmUtc.timegm

/-- `get_tm`. -/
def getTm (time : Time) : Tm :=
  let tm := time.fillTmUtc
  Tm.timegm { tm with
    tmHour := tm.tmHour + time.tzHour.toInt
    tmMin := tm.tmMin + time.tzMin.toNat * (if time.tzHour.toInt ≥ 0 then 1 else -1) * 15
    tmIsdst := -1 }

/-- `get_time`. -/
def getTime (time : Time) : Int :=
  time.getUtc.seconds

/-- `get_time_in_usec`. -/
def getTimeInUsec (time : Time) : BitVec 64 :=
  BitVec.ofInt 64 (time.getTime * 1000000 + time.usec.toNat)

/-- The date in UTC. -/
def utcDate (time : Time) : DateTime :=
  time.fillTmUtc.date

/-- The fields of UTC are in their ranges, and the spare bits are 0. -/
structure Normal (time : Time) : Prop where
  date : time.utcDate.Normal
  usec : time.usec.toNat < 1000000
  unused : time.unused = 0
  tzSpare : time.tzSpare = 0

section LocalTimes

variable {time other : Time} {timeZone : UInt8} {tm : Tm} {usec : Nat} {hrOffset minOffset : Int}

theorem utcDate_eq (time : Time) : time.utcDate =
    ⟨time.year.toInt, time.mon.toNat, time.day.toNat, time.hour.toNat, time.min.toNat,
      time.sec.toNat⟩ := by
  simp [utcDate, fillTmUtc, Tm.date]

theorem fields_eq (time : Time) :
    time.fields = time.utcDate.fields ++ [(time.usec.toNat : Int)] := by
  rw [utcDate_eq]
  rfl

/-- The minutes that the constructor takes from the local time. -/
def offsetMinutes (hrOffset minOffset : Int) : Int :=
  60 * hrOffset + minOffset * (if hrOffset ≥ 0 then 1 else -1)

/-- The date that the constructor computes. -/
def utcOf (tm : Tm) (hrOffset minOffset : Int) : DateTime :=
  DateTime.ofSeconds (tm.date.seconds - 60 * offsetMinutes hrOffset minOffset)

theorem normal_utcOf (tm : Tm) (hrOffset minOffset : Int) : (utcOf tm hrOffset minOffset).Normal :=
  DateTime.normal_ofSeconds _

theorem toNat_ofInt_of_lt {width : Nat} {value : Int} (low : 0 ≤ value)
    (high : value < 2 ^ width) : ((BitVec.ofInt width value).toNat : Int) = value := by
  rw [BitVec.toNat_ofInt]
  push_cast
  rw [Int.toNat_of_nonneg (Int.emod_nonneg _ (by positivity)), Int.emod_eq_of_lt low high]

theorem fields_ofTm_timegm (notBefore : -8192 ≤ (utcOf tm hrOffset minOffset).year)
    (notAfter : (utcOf tm hrOffset minOffset).year ≤ 8191) :
    (ofTm Tm.timegm timeZone tm usec hrOffset minOffset).fields =
      (utcOf tm hrOffset minOffset).fields ++ [((BitVec.ofNat 20 usec).toNat : Int)] := by
  have isUtc : (Tm.timegm { tm with
      tmHour := tm.tmHour - hrOffset
      tmMin := tm.tmMin - minOffset * (if hrOffset ≥ 0 then 1 else -1)
      tmIsdst := -1 }) = Tm.ofDate (utcOf tm hrOffset minOffset) := by
    rw [Tm.timegm, DateTime.normalize, utcOf]
    congr 2
    simp only [Tm.date, DateTime.seconds, DateTime.dayNumber, offsetMinutes]
    ring
  have normal := normal_utcOf tm hrOffset minOffset
  have sameTime : ofTm Tm.timegm timeZone tm usec hrOffset minOffset =
      ofTm (fun _ => Tm.ofDate (utcOf tm hrOffset minOffset)) timeZone tm usec hrOffset
        minOffset := by
    rw [← isUtc]
    rfl
  rw [sameTime, fields_ofTm fun _ => rfl]
  generalize utcOf tm hrOffset minOffset = date at *
  have signed : (BitVec.ofInt 14 (date.year - 1900 + 1900)).toInt = date.year := by
    rw [Int.sub_add_cancel, BitVec.toInt_ofInt]
    exact Int.bmod_eq_of_le (by omega) (by omega)
  obtain ⟨_, _⟩ := normal.month
  obtain ⟨_, _⟩ := normal.day
  obtain ⟨_, _⟩ := normal.hour
  obtain ⟨_, _⟩ := normal.minute
  obtain ⟨_, _⟩ := normal.second
  have isDay := normal.day_le
  rw [Tm.ofDate]
  dsimp only
  rw [signed, Int.sub_add_cancel, toNat_ofInt_of_lt (by omega) (by omega),
    toNat_ofInt_of_lt (by omega) (by omega), toNat_ofInt_of_lt (by omega) (by omega),
    toNat_ofInt_of_lt (by omega) (by omega), toNat_ofInt_of_lt (by omega) (by omega)]
  rfl

/-- The constructor leaves the date in UTC. -/
theorem utcDate_ofTm (notBefore : -8192 ≤ (utcOf tm hrOffset minOffset).year)
    (notAfter : (utcOf tm hrOffset minOffset).year ≤ 8191) :
    (ofTm Tm.timegm timeZone tm usec hrOffset minOffset).utcDate = utcOf tm hrOffset minOffset := by
  have same := @fields_ofTm_timegm timeZone _ usec _ _ notBefore notAfter
  rw [fields_eq] at same
  exact DateTime.fields_injective (List.append_inj_left' same rfl)

/-! ## The time zone -/

theorem tzHour_ofTm (isOffset : -16 ≤ hrOffset ∧ hrOffset ≤ 15) :
    (ofTm Tm.timegm timeZone tm usec hrOffset minOffset).tzHour.toInt = hrOffset := by
  unfold ofTm tzHour
  simp (disch := decide) only [extractLsb'_setField, extractLsb'_setField_of_apart]
  rw [BitVec.toInt_ofInt]
  exact Int.bmod_eq_of_le (by omega) (by omega)

theorem tzMin_ofTm (isOffset : 0 ≤ minOffset ∧ minOffset < 60) :
    ((ofTm Tm.timegm timeZone tm usec hrOffset minOffset).tzMin.toNat : Int) = minOffset / 15 := by
  unfold ofTm tzMin
  simp (disch := decide) only [extractLsb'_setField, extractLsb'_setField_of_apart]
  rw [BitVec.toNat_ofInt, Int.tdiv_eq_ediv_of_nonneg isOffset.1]
  omega

theorem tzSpare_ofTm : (ofTm Tm.timegm timeZone tm usec hrOffset minOffset).tzSpare = 0 := by
  unfold ofTm tzSpare
  simp (disch := decide) only [extractLsb'_setField]

/-- The date in the time zone of a time. -/
theorem date_getTm (time : Time) : time.getTm.date =
    DateTime.ofSeconds (time.utcDate.seconds +
      60 * offsetMinutes time.tzHour.toInt (15 * time.tzMin.toNat)) := by
  rw [getTm, Tm.timegm, Tm.date_ofDate, DateTime.normalize]
  congr 1
  simp only [utcDate, Tm.date, DateTime.seconds, DateTime.dayNumber, offsetMinutes]
  ring

theorem getTm_eq_iff (time : Time) (tm : Tm) :
    time.getTm = { tm with tmIsdst := 0 } ↔ time.getTm.date = tm.date := by
  constructor
  · intro same
    rw [same]
    rfl
  · intro same
    rw [← Tm.ofDate_date, ← same, getTm, Tm.timegm, Tm.date_ofDate]

/-- `get_tm` gives the local time that the constructor was given, unless the minutes of the offset
are no quarters of an hour. -/
theorem getTm_ofTm_iff (normal : tm.date.Normal)
    (notBefore : -8192 ≤ (utcOf tm hrOffset minOffset).year)
    (notAfter : (utcOf tm hrOffset minOffset).year ≤ 8191)
    (isHour : -16 ≤ hrOffset ∧ hrOffset ≤ 15) (isMin : 0 ≤ minOffset ∧ minOffset < 60) :
    (ofTm Tm.timegm timeZone tm usec hrOffset minOffset).getTm = { tm with tmIsdst := 0 } ↔
      15 ∣ minOffset := by
  have isSeconds : (utcOf tm hrOffset minOffset).seconds =
      tm.date.seconds - 60 * offsetMinutes hrOffset minOffset := DateTime.seconds_ofSeconds _
  rw [getTm_eq_iff, date_getTm, DateTime.ofSeconds_eq_iff normal, utcDate_ofTm notBefore notAfter,
    tzHour_ofTm isHour, tzMin_ofTm isMin, isSeconds, offsetMinutes, offsetMinutes]
  split_ifs with east
  · omega
  · omega

/-- A quarter past two on the first of March, half a minute and a quarter of a second later. -/
def marchTm : Tm :=
  ⟨30, 15, 2, 1, 2, 116, -1⟩

theorem getTm_ofTm_iff_march :
    (ofTm Tm.timegm 0 marchTm 250000 5 30).getTm = { marchTm with tmIsdst := 0 } :=
  (getTm_ofTm_iff (by constructor <;> decide) (by decide) (by decide)
    (by decide) (by decide)).mpr (by decide)

/-! ## Times from their local fields -/

/-- The three fields of the byte of the time zone. -/
theorem timeZone_ext (hour : time.tzHour = other.tzHour) (min : time.tzMin = other.tzMin)
    (spare : time.tzSpare = other.tzSpare) : time.timeZone = other.timeZone := by
  have isHour := congrArg BitVec.toNat hour
  have isMin := congrArg BitVec.toNat min
  have isSpare := congrArg BitVec.toNat spare
  simp only [tzHour, tzMin, tzSpare, BitVec.extractLsb'_toNat, Nat.shiftRight_eq_div_pow] at *
  apply UInt8.toBitVec_inj.mp
  apply BitVec.eq_of_toNat_eq
  have small := time.timeZone.toBitVec.isLt
  have small' := other.timeZone.toBitVec.isLt
  omega

/-- A time is given by its date in UTC, its microseconds and its time zone. -/
theorem Normal.eq_of_fields (normal : time.Normal) (normal' : other.Normal)
    (date : time.utcDate = other.utcDate) (usec : time.usec = other.usec)
    (hour : time.tzHour = other.tzHour) (min : time.tzMin = other.tzMin) : time = other := by
  have sameFields : time.fields = other.fields := by rw [fields_eq, fields_eq, date, usec]
  have same := (comparesChronologically normal.unused normal'.unused).2.mpr sameFields
  have sameVal : time.timeVal = other.timeVal := beq_iff_eq.mp same
  have sameZone := timeZone_ext hour min (normal.tzSpare.trans normal'.tzSpare.symm)
  cases time
  cases other
  exact (Time.mk.injEq _ _ _ _).mpr ⟨sameVal, sameZone⟩

theorem usec_ofTm : (ofTm Tm.timegm timeZone tm usec hrOffset minOffset).usec =
    BitVec.ofNat 20 usec := by
  unfold ofTm Time.usec
  simp (disch := decide) only [extractLsb'_setField, extractLsb'_setField_of_apart]

theorem normal_ofTm (notBefore : -8192 ≤ (utcOf tm hrOffset minOffset).year)
    (notAfter : (utcOf tm hrOffset minOffset).year ≤ 8191) (isUsec : usec < 1000000) :
    (ofTm Tm.timegm timeZone tm usec hrOffset minOffset).Normal where
  date := utcDate_ofTm notBefore notAfter ▸ normal_utcOf tm hrOffset minOffset
  usec := by
    rw [usec_ofTm, BitVec.toNat_ofNat]
    omega
  unused := unused_ofTm
  tzSpare := tzSpare_ofTm

/-- The constructor gives a normal time back from its local fields and its offset. -/
theorem ofTm_getTm (normal : time.Normal) (timeZone : UInt8) :
    ofTm Tm.timegm timeZone time.getTm time.usec.toNat time.tzHour.toInt (15 * time.tzMin.toNat) =
      time := by
  have isUtc : utcOf time.getTm time.tzHour.toInt (15 * time.tzMin.toNat) = time.utcDate := by
    rw [utcOf, DateTime.ofSeconds_eq_iff normal.date, date_getTm, DateTime.seconds_ofSeconds]
    omega
  have isYear : time.utcDate.year = time.year.toInt := by rw [utcDate_eq]
  have notBefore := BitVec.le_toInt time.year
  have notAfter := BitVec.toInt_lt (x := time.year)
  have isHour := BitVec.le_toInt time.tzHour
  have lastHour := BitVec.toInt_lt (x := time.tzHour)
  have lastMin := time.tzMin.isLt
  rw [← isYear, ← isUtc] at notBefore notAfter
  apply Normal.eq_of_fields (normal_ofTm (by omega) (by omega) normal.usec) normal
  · rw [utcDate_ofTm (by omega) (by omega), isUtc]
  · rw [usec_ofTm, BitVec.ofNat_toNat, BitVec.setWidth_eq]
  · apply BitVec.eq_of_toInt_eq
    exact tzHour_ofTm (by omega)
  · apply BitVec.eq_of_toNat_eq
    have isMin := @tzMin_ofTm timeZone time.getTm time.usec.toNat time.tzHour.toInt
      (15 * time.tzMin.toNat) (by omega)
    omega

theorem normal_march : (ofTm Tm.timegm 0 marchTm 250000 5 30).Normal :=
  normal_ofTm (by decide) (by decide) (by decide)

/-! ## The order -/

theorem seconds_getUtc (time : Time) : time.getUtc.date.seconds = time.utcDate.seconds := by
  rw [getUtc, Tm.timegm, Tm.date_ofDate, DateTime.seconds_normalize]
  rfl

theorem getTime_eq (time : Time) :
    time.getTime = time.utcDate.seconds - (⟨1970, 1, 1, 0, 0, 0⟩ : DateTime).seconds := by
  rw [getTime, Tm.seconds, seconds_getUtc]

/-- Between lists of the same length, the last members decide if the others are equal. -/
theorem append_singleton_lt_iff {list other : List Int} {last last' : Int}
    (same : list.length = other.length) :
    list ++ [last] < other ++ [last'] ↔ list < other ∨ list = other ∧ last < last' := by
  induction list generalizing other with
  | nil =>
      obtain rfl := List.length_eq_zero_iff.mp same.symm
      simp [List.cons_lt_cons_iff]
  | cons first list induction =>
      obtain ⟨first', other, rfl⟩ := List.exists_cons_of_length_eq_add_one same.symm
      rw [List.cons_append, List.cons_append, List.cons_lt_cons_iff, List.cons_lt_cons_iff,
        induction (Nat.succ.inj same), List.cons.injEq, and_or_left, or_assoc, and_assoc]

theorem fields_lt_iff : time.fields < other.fields ↔
    time.utcDate.fields < other.utcDate.fields ∨
      time.utcDate = other.utcDate ∧ time.usec.toNat < other.usec.toNat := by
  have six (date : DateTime) : date.fields.length = 6 := rfl
  have sameLength := (six time.utcDate).trans (six other.utcDate).symm
  rw [fields_eq, fields_eq, append_singleton_lt_iff sameLength, Int.ofNat_lt]
  exact or_congr_right (and_congr_left' ⟨DateTime.fields_injective, congrArg DateTime.fields⟩)

/-- Times are compared by the microseconds that they stand for. -/
theorem operatorLess_iff (normal : time.Normal) (normal' : other.Normal) :
    time.operatorLess other = true ↔
      time.getTime * 1000000 + time.usec.toNat < other.getTime * 1000000 + other.usec.toNat := by
  have inSecond := normal.usec
  have inSecond' := normal'.usec
  rw [(comparesChronologically normal.unused normal'.unused).1, fields_lt_iff, getTime_eq,
    getTime_eq, ← DateTime.seconds_lt_iff normal.date normal'.date]
  constructor
  · rintro (earlier | ⟨same, less⟩)
    · omega
    · rw [same]
      omega
  · intro less
    rcases lt_trichotomy time.utcDate.seconds other.utcDate.seconds with earlier | same | later
    · exact .inl earlier
    · refine .inr ⟨?_, by omega⟩
      rw [← DateTime.ofSeconds_seconds normal.date, same, DateTime.ofSeconds_seconds normal'.date]
    · omega

theorem getTime_lt (normal : time.Normal) : time.getTime < 2 ^ 38 := by
  have isYear : time.utcDate.year = time.year.toInt := by rw [utcDate_eq]
  have notAfter := BitVec.toInt_lt (x := time.year)
  have inYear := normal.date.dayNumber_bounds.2
  have isDay := (DateTime.seconds_div normal.date).1
  have last := yearStart_le (show time.utcDate.year + 1 ≤ 8192 by omega)
  have isLast : yearStart 8192 = 2991701 := by decide
  have epoch : (⟨1970, 1, 1, 0, 0, 0⟩ : DateTime).seconds = 62135596800 := by decide
  rw [getTime_eq, epoch]
  omega

/-- From 1970 on, times are in the order of `get_time_in_usec`. -/
theorem getTimeInUsec_lt_iff (normal : time.Normal) (normal' : other.Normal)
    (notBefore : 0 ≤ time.getTime) (notBefore' : 0 ≤ other.getTime) :
    time.getTimeInUsec < other.getTimeInUsec ↔ time.operatorLess other = true := by
  have inSecond := normal.usec
  have inSecond' := normal'.usec
  have small := getTime_lt normal
  have small' := getTime_lt normal'
  have isUsec := @toNat_ofInt_of_lt 64 (time.getTime * 1000000 + time.usec.toNat) (by omega)
    (by omega)
  have isUsec' := @toNat_ofInt_of_lt 64 (other.getTime * 1000000 + other.usec.toNat) (by omega)
    (by omega)
  rw [operatorLess_iff normal normal', getTimeInUsec, getTimeInUsec, BitVec.lt_def]
  omega

theorem getTimeInUsec_lt_iff_march :
    let time := ofTm Tm.timegm 0 marchTm 250000 5 30
    let other := ofTm Tm.timegm 0 marchTm 250000 5 15
    time.getTimeInUsec < other.getTimeInUsec ↔ time.operatorLess other = true :=
  getTimeInUsec_lt_iff normal_march
    (normal_ofTm (by decide) (by decide) (by decide)) (by decide)
    (by decide)

end LocalTimes

end Time

end Pmgd
