import BoringOs.KTime

/-! The real-time clock of `sys/dev/x86/rtc.c`. -/

namespace BoringOs.Time

open Spans Gregorian Option

/-- The registers that `RTC_ReadTime` reads; `flags` is register `0x0B`. -/
structure Registers where
  sec : Nat
  min : Nat
  hour : Nat
  wday : Nat
  mday : Nat
  month : Nat
  year : Nat
  flags : Nat

def BCD_TO_BIN (b : Nat) : Nat := (b &&& 0x0F) + (b >>> 4) * 10

def rtc_ReadTime (r : Registers) : Option Nat :=
  let isPM := decide (r.hour &&& 0x80 ≠ 0)
  let tm :=
    if r.flags &&& 0x04 = 0 then
      { r with
        sec := BCD_TO_BIN r.sec
        min := BCD_TO_BIN r.min
        hour := BCD_TO_BIN (r.hour &&& 0x7F)
        wday := BCD_TO_BIN r.wday
        mday := BCD_TO_BIN r.mday
        month := BCD_TO_BIN r.month
        year := BCD_TO_BIN r.year }
    else r
  let hour := if r.flags &&& 0x02 = 0 ∧ isPM then (tm.hour + 12) % 24 else tm.hour
  kTime_ToEpoch {
    sec := tm.sec
    min := tm.min
    hour := hour
    month := (tm.month : Int) - 1
    year := (tm.year : Int) + 2000
    mday := tm.mday
    wday := (tm.wday : Int) - 1
    yday := -1 }

structure Civil where
  date : Date
  hour : Nat
  min : Nat
  sec : Nat
  inDay : hour < 24
  inHour : min < 60
  inMin : sec < 60

/-- Seconds since 1 January 1970. -/
def Civil.seconds (civil : Civil) : Nat :=
  civil.date.dayNumber * 86400 + (civil.hour * 3600 + civil.min * 60 + civil.sec)

theorem Civil.time_lt (civil : Civil) : civil.hour * 3600 + civil.min * 60 + civil.sec < 86400 := by
  have inDay := civil.inDay
  have inHour := civil.inHour
  have inMin := civil.inMin
  omega

structure Format where
  binary : Bool
  hours24 : Bool

def Format.digits (format : Format) (value : Nat) : Nat :=
  if format.binary then value else value / 10 * 16 + value % 10

/-- With twelve hours, midnight and noon are 12 and the high bit means afternoon. -/
def Format.hour (format : Format) (hour : Nat) : Nat :=
  if format.hours24 then format.digits hour
  else format.digits (if hour % 12 = 0 then 12 else hour % 12) ||| (if 12 ≤ hour then 0x80 else 0)

/-- The registers at a civil time. The weekday and the other flags may be anything. -/
structure Reads (r : Registers) (format : Format) (civil : Civil) : Prop where
  sec : r.sec = format.digits civil.sec
  min : r.min = format.digits civil.min
  hour : r.hour = format.hour civil.hour
  mday : r.mday = format.digits (civil.date.day + 1)
  month : r.month = format.digits (civil.date.month + 1)
  year : r.year = format.digits (civil.date.year - 2000)
  binary : format.binary = true ↔ r.flags &&& 0x04 ≠ 0
  hours24 : format.hours24 = true ↔ r.flags &&& 0x02 ≠ 0

/-- The hours that `RTC_ReadTime` reads right: with twelve hours not those of midnight and noon, and
in binary not those of the afternoon. -/
def Format.KeepsHour (format : Format) (hour : Nat) : Prop :=
  format.hours24 = true ∨ hour % 12 ≠ 0 ∧ (hour < 12 ∨ format.binary = false)

instance (format : Format) (hour : Nat) : Decidable (format.KeepsHour hour) :=
  inferInstanceAs (Decidable (_ ∨ _))

/-- `RTC_ReadTime` on the register of the hour. -/
def Format.readHour (format : Format) (register : Nat) : Nat :=
  let value := if format.binary then register else BCD_TO_BIN (register &&& 0x7F)
  if format.hours24 = false ∧ register &&& 0x80 ≠ 0 then (value + 12) % 24 else value

section

variable {format : Format}

theorem bcd_digits : ∀ value < 100, BCD_TO_BIN (value / 10 * 16 + value % 10) = value := by decide +kernel

theorem readHour_hour (format : Format) : ∀ hour < 24,
    format.readHour (format.hour hour) < 24 ∧
      (format.readHour (format.hour hour) = hour ↔ format.KeepsHour hour) := by
  obtain ⟨binary, hours24⟩ := format
  cases binary <;> cases hours24 <;> decide +kernel

end

/-- The day that `RTC_ReadTime` makes of a date: the day of the month is counted from one, and the
months have the lengths of the table. -/
def rtcDay (date : Date) : Nat :=
  elapsed yearLength 1970 date.year + (elapsed (tableLength date.year) 0 date.month + (date.day + 1))

section

variable {r : Registers} {format : Format} {civil : Civil}

theorem elapsed_table_le (year : Nat) : elapsed (tableLength year) 0 12 ≤ yearLength year := by
  rw [← elapsed_months]
  by_cases leap : IsLeap year
  · have shift := elapsed_leap leap le_rfl
    omega
  · rw [elapsed_common leap le_rfl]

theorem monthLength_le (year month : Nat) : monthLength year month ≤ 31 := by
  unfold monthLength
  repeat' split
  all_goals omega

theorem elapsed_years_le {year : Nat} (century : year < 2100) : elapsed yearLength 1970 year ≤ 47847 := by
  have most := elapsed_mono yearLength 1970 (show year ≤ 2100 by omega)
  have all : elapsed yearLength 1970 2100 = 47482 := by decide +kernel
  omega

theorem rtcDay_small (date : Date) (century : date.year < 2100) : rtcDay date < 50000 := by
  have years := elapsed_years_le century
  have months := (elapsed_mono (tableLength date.year) 0 (le_of_lt date.inYear)).trans
    (elapsed_table_le date.year)
  have length : yearLength date.year ≤ 366 := by
    unfold yearLength
    split <;> omega
  have day := date.inMonth
  have longest := monthLength_le date.year date.month
  unfold rtcDay
  omega

section

variable (reads : Reads r format civil)
include reads

theorem rtc_digits {value : Nat} (small : value < 100) :
    (if r.flags &&& 0x04 = 0 then BCD_TO_BIN (format.digits value) else format.digits value) = value := by
  by_cases flag : r.flags &&& 0x04 = 0
  · have coded : format.binary = false := by
      rw [← Bool.not_eq_true, reads.binary]
      exact not_not.mpr flag
    rw [if_pos flag, Format.digits, coded]
    exact bcd_digits value small
  · rw [if_neg flag, Format.digits, if_pos (reads.binary.mpr flag)]

theorem rtc_hour :
    (if r.flags &&& 0x02 = 0 ∧ decide (r.hour &&& 0x80 ≠ 0) = true
      then ((if r.flags &&& 0x04 = 0 then BCD_TO_BIN (r.hour &&& 0x7F) else r.hour) + 12) % 24
      else if r.flags &&& 0x04 = 0 then BCD_TO_BIN (r.hour &&& 0x7F) else r.hour) =
      format.readHour (format.hour civil.hour) := by
  have evening : format.hours24 = false ↔ r.flags &&& 0x02 = 0 := by
    rw [← Bool.not_eq_true, reads.hours24, not_not]
  rw [← reads.hour]
  unfold Format.readHour
  simp only [evening, decide_eq_true_eq]
  by_cases flag : r.flags &&& 0x04 = 0
  · have coded : ¬ format.binary = true := fun binary => reads.binary.mp binary flag
    simp only [flag, coded, Bool.false_eq_true, ↓reduceIte]
  · simp only [flag, reads.binary.mpr flag, ↓reduceIte]

theorem rtc_ReadTime_toEpoch (day : civil.date.day + 1 < 100) (year : civil.date.year - 2000 < 100) :
    ∃ wday, rtc_ReadTime r = kTime_ToEpoch ⟨civil.sec, civil.min,
      format.readHour (format.hour civil.hour), ((civil.date.month + 1 : Nat) : Int) - 1,
      ((civil.date.year - 2000 : Nat) : Int) + 2000, (civil.date.day + 1 : Nat), wday, -1⟩ := by
  have inHour := civil.inHour
  have inMin := civil.inMin
  have inYear := civil.date.inYear
  have sec := rtc_digits reads (show civil.sec < 100 by omega)
  have min := rtc_digits reads (show civil.min < 100 by omega)
  have mday := rtc_digits reads day
  have month := rtc_digits reads (show civil.date.month + 1 < 100 by omega)
  have years := rtc_digits reads year
  rw [← reads.sec] at sec
  rw [← reads.min] at min
  rw [← reads.mday] at mday
  rw [← reads.month] at month
  rw [← reads.year] at years
  have hour := rtc_hour reads
  unfold rtc_ReadTime
  by_cases flag : r.flags &&& 0x04 = 0
  · simp only [flag, ↓reduceIte] at sec min mday month years hour ⊢
    exact ⟨_, by rw [sec, min, mday, month, years, hour]⟩
  · simp only [flag, ↓reduceIte] at sec min mday month years hour ⊢
    exact ⟨_, by rw [sec, min, mday, month, years, hour]⟩

theorem rtc_ReadTime_eq (low : 2000 ≤ civil.date.year) (century : civil.date.year < 2100) :
    rtc_ReadTime r = some (rtcDay civil.date * 86400 +
      (format.readHour (format.hour civil.hour) * 3600 + civil.min * 60 + civil.sec)) := by
  have inDay := (readHour_hour format civil.hour civil.inDay).1
  have inHour := civil.inHour
  have inMin := civil.inMin
  have inYear := civil.date.inYear
  have day := civil.date.inMonth
  have longest := monthLength_le civil.date.year civil.date.month
  obtain ⟨wday, ran⟩ := rtc_ReadTime_toEpoch reads (by omega) (by omega)
  rw [ran]
  generalize format.readHour (format.hour civil.hour) = hour at *
  have few := rtcDay_small civil.date century
  have years := elapsed_years_le century
  have year : ((civil.date.year - 2000 : Nat) : Int) + 2000 = civil.date.year := by omega
  have month : ((civil.date.month + 1 : Nat) : Int) - 1 = civil.date.month := by omega
  have size : (2 : Nat) ^ 40 < word64 := by decide
  have sum : total (fun y => some (daysOfYear y)) 1970 civil.date.year =
      some (elapsed yearLength 1970 civil.date.year) :=
    total_eq civil.date.first (fun y _ _ => by rw [daysOfYear_eq]) (by omega)
  have days : total (kTimeDaysInMonth civil.date.year) 0 civil.date.month =
      some (elapsed (tableLength civil.date.year) 0 civil.date.month) := by
    refine total_eq (Nat.zero_le _) (fun m _ less => kTimeDaysInMonth_known (by omega)) ?_
    unfold rtcDay at few
    omega
  unfold kTime_ToEpoch
  simp only [year, month, ofInt_natCast (show civil.date.year < word64 by omega),
    ofInt_natCast (show civil.date.month < word64 by omega),
    ofInt_natCast (show civil.date.day + 1 < word64 by omega),
    ofInt_natCast (show hour < word64 by omega), ofInt_natCast (show civil.min < word64 by omega),
    ofInt_natCast (show civil.sec < word64 by omega), sum, days, ↓reduceIte, map_some,
    bind_eq_bind, bind_some, pure_def, some.injEq]
  have inner : add64 (elapsed (tableLength civil.date.year) 0 civil.date.month) (civil.date.day + 1) =
      elapsed (tableLength civil.date.year) 0 civil.date.month + (civil.date.day + 1) :=
    add64_of_lt (by unfold rtcDay at few; omega)
  have outer : add64 (elapsed yearLength 1970 civil.date.year)
      (elapsed (tableLength civil.date.year) 0 civil.date.month + (civil.date.day + 1)) =
        rtcDay civil.date :=
    add64_of_lt (by unfold rtcDay at few; omega)
  rw [inner, outer]
  generalize rtcDay civil.date = days at *
  exact seconds_eq (by omega)

end

theorem rtcDay_inside {date : Date} (inside : date.day + 1 < tableLength date.year date.month) :
    elapsed (tableLength date.year) 0 date.month + (date.day + 1) < yearLength date.year :=
  Nat.lt_of_lt_of_le (position_lt (Nat.zero_le _) date.inYear inside) (elapsed_table_le date.year)

theorem rtcDay_lt {date other : Date} (before : date.Before other)
    (inside : date.day + 1 < tableLength date.year date.month) : rtcDay date < rtcDay other := by
  unfold rtcDay
  rcases before with year | ⟨year, month | ⟨month, day⟩⟩
  · have := position_lt date.first year (rtcDay_inside inside)
    omega
  · have := position_lt (Nat.zero_le date.month) month inside
    rw [← year]
    omega
  · rw [year, month]
    omega

end

theorem day_before_day {day other time time' : Nat} (inDay : time < 86400) (before : day < other) :
    day * 86400 + time < other * 86400 + time' := by
  omega

theorem same_day {day other time time' : Nat} (inDay : time < 86400) (inDay' : time' < 86400)
    (after : other ≤ day) (order : day * 86400 + time < other * 86400 + time') : day = other := by
  omega

section

variable {r r' : Registers} {format format' : Format} {civil later : Civil}

theorem rtc_ReadTime_shown (reads : Reads r format civil) (low : 2000 ≤ civil.date.year)
    (century : civil.date.year < 2100) :
    ∃ (epoch : Nat) (date : Date), rtc_ReadTime r = some epoch ∧ date.dayNumber = rtcDay civil.date ∧
      kTime_FromEpoch epoch = (locate (kTimeDaysInMonth date.year) 13 0 date.dayOfYear).map
        (fun (month, mday) => ⟨civil.sec, civil.min, format.readHour (format.hour civil.hour),
          toInt32 month, date.year, toInt32 mday, ((date.dayNumber + 3) % 7 : Nat), date.dayOfYear⟩) := by
  have inHour := civil.inHour
  have inMin := civil.inMin
  have inDay := (readHour_hour format civil.hour civil.inDay).1
  have ran := rtc_ReadTime_eq reads low century
  have few := rtcDay_small civil.date century
  obtain ⟨date, number⟩ := exists_date (rtcDay civil.date)
  have fits : date.year < 2 ^ 31 := by
    have count := date.year_le
    omega
  generalize format.readHour (format.hour civil.hour) = hour at *
  generalize parts : rtcDay civil.date * 86400 + (hour * 3600 + civil.min * 60 + civil.sec) = epoch at *
  have small : epoch < word64 := by
    unfold word64
    omega
  have days : rtcDay civil.date = epoch / 86400 := by omega
  have hourOf : epoch % 86400 / 3600 = hour := by omega
  have minOf : epoch % 3600 / 60 = civil.min := by omega
  have secOf : epoch % 60 = civil.sec := by omega
  have shown := kTime_FromEpoch_eq fits small (number.trans days)
  rw [hourOf, minOf, secOf] at shown
  exact ⟨epoch, date, ran, number, shown⟩

theorem rtc_ReadTime_lt (reads : Reads r format civil) (low : 2000 ≤ civil.date.year)
    (century : civil.date.year < 2100) (reads' : Reads r' format' later)
    (low' : 2000 ≤ later.date.year) (century' : later.date.year < 2100)
    (inside : civil.date.day + 1 < tableLength civil.date.year civil.date.month)
    (kept : format.KeepsHour civil.hour) (kept' : format'.KeepsHour later.hour)
    (order : civil.seconds < later.seconds) :
    ∃ epoch epoch', rtc_ReadTime r = some epoch ∧ rtc_ReadTime r' = some epoch' ∧ epoch < epoch' := by
  have ran := rtc_ReadTime_eq reads low century
  have ran' := rtc_ReadTime_eq reads' low' century'
  rw [(readHour_hour format civil.hour civil.inDay).2.mpr kept] at ran
  rw [(readHour_hour format' later.hour later.inDay).2.mpr kept'] at ran'
  refine ⟨_, _, ran, ran', ?_⟩
  unfold Civil.seconds at order
  rcases lt_or_ge civil.date.dayNumber later.date.dayNumber with before | after
  · exact day_before_day civil.time_lt (rtcDay_lt (Date.before_of_lt before) inside)
  · have same : civil.date = later.date :=
      Date.eq_of_dayNumber (same_day civil.time_lt later.time_lt after order)
    rw [same] at order ⊢
    exact Nat.add_lt_add_left (Nat.lt_of_add_lt_add_left order) _

end

/-- The clock shows the civil time that the registers had exactly for the days that are not the last of
a month in the table, and for the hours that are read right; between such times it is increasing. -/
theorem rtc_round_trip_iff (format : Format) (civil : Civil) (r : Registers)
    (reads : Reads r format civil) (low : 2000 ≤ civil.date.year) (century : civil.date.year < 2100) :
    ((∃ epoch tm, rtc_ReadTime r = some epoch ∧ kTime_FromEpoch epoch = some tm ∧
        tm.year = civil.date.year ∧ tm.month = civil.date.month ∧ tm.mday = (civil.date.day + 1 : Nat) ∧
        tm.hour = civil.hour ∧ tm.min = civil.min ∧ tm.sec = civil.sec) ↔
      civil.date.day + 1 < tableLength civil.date.year civil.date.month ∧
        format.KeepsHour civil.hour) ∧
    ∀ (format' : Format) (later : Civil) (r' : Registers), Reads r' format' later →
      2000 ≤ later.date.year → later.date.year < 2100 →
      civil.date.day + 1 < tableLength civil.date.year civil.date.month →
      format.KeepsHour civil.hour → format'.KeepsHour later.hour → civil.seconds < later.seconds →
      ∃ epoch epoch', rtc_ReadTime r = some epoch ∧ rtc_ReadTime r' = some epoch' ∧ epoch < epoch' := by
  have keeps := (readHour_hour format civil.hour civil.inDay).2
  obtain ⟨epoch, date, ran, number, shown⟩ := rtc_ReadTime_shown reads low century
  refine ⟨⟨?_, ?_⟩, ?_⟩
  · rintro ⟨epoch', tm, first, second, year, month, mday, hour, _, _⟩
    obtain rfl := some.inj (ran.symm.trans first)
    rw [shown] at second
    obtain ⟨⟨m, d⟩, found, rfl⟩ := map_eq_some_iff.mp second
    obtain ⟨_, inside, inYear⟩ := locate_month found
    have longest := tableLength_le date.year m
    dsimp only at year month mday hour
    rw [toInt32_of_lt (by omega)] at month mday
    obtain rfl : m = civil.date.month := by omega
    obtain rfl : d = civil.date.day + 1 := by omega
    have sameYear : date.year = civil.date.year := by omega
    rw [sameYear] at inside
    exact ⟨inside, keeps.mp (by omega)⟩
  · rintro ⟨inside, kept⟩
    obtain ⟨year, rest⟩ := Date.year_eq civil.date.first (rtcDay_inside inside) number
    have longest := tableLength_le civil.date.year civil.date.month
    have inYear := civil.date.inYear
    rw [← rest, ← year, locate_month_of inYear inside, map_some] at shown
    exact ⟨_, _, ran, shown, by rw [year], toInt32_of_lt (by omega), toInt32_of_lt (by omega),
      by rw [keeps.mpr kept], rfl, rfl⟩
  · intro format' later r' reads' low' century' inside kept kept' order
    exact rtc_ReadTime_lt reads low century reads' low' century' inside kept kept' order

def november : Civil :=
  ⟨⟨2025, 10, 8, by decide, by decide, by decide⟩, 20, 15, 30, by decide, by decide, by decide⟩

theorem rtc_round_trip_november :
    ∃ epoch tm, rtc_ReadTime ⟨0x30, 0x15, 0x88, 1, 0x09, 0x11, 0x25, 0⟩ = some epoch ∧
      kTime_FromEpoch epoch = some tm ∧ tm.year = 2025 ∧ tm.month = 10 ∧ tm.mday = 9 ∧ tm.hour = 20 := by
  have reads : Reads ⟨0x30, 0x15, 0x88, 1, 0x09, 0x11, 0x25, 0⟩ ⟨false, false⟩ november :=
    ⟨by decide, by decide, by decide, by decide, by decide, by decide, by decide, by decide⟩
  obtain ⟨epoch, tm, read, shown, year, month, mday, hour, _⟩ :=
    ((rtc_round_trip_iff ⟨false, false⟩ november _ reads (by decide) (by decide)).1).mpr (by decide +kernel)
  exact ⟨epoch, tm, read, shown, year, month, mday, hour⟩

/-- 31 January 2025 is shown as the 0th of February, 30 March and 1 April 2024 are the same day, noon is
midnight with twelve hours, and 1 o'clock in the afternoon is 21 o'clock in binary. -/
theorem rtc_not_round_trip :
    ((rtc_ReadTime ⟨0, 0, 0, 1, 31, 1, 25, 6⟩).bind kTime_FromEpoch).map (fun tm => (tm.month, tm.mday)) =
        some (1, 0) ∧
      rtc_ReadTime ⟨0, 0, 0, 1, 30, 3, 24, 6⟩ = rtc_ReadTime ⟨0, 0, 0, 1, 1, 4, 24, 6⟩ ∧
      ((rtc_ReadTime ⟨0, 0, 0x92, 1, 1, 1, 0x25, 0⟩).bind kTime_FromEpoch).map KTime.hour = some 0 ∧
      ((rtc_ReadTime ⟨0, 0, 0x81, 1, 1, 1, 25, 4⟩).bind kTime_FromEpoch).map KTime.hour = some 21 := by
  decide +kernel

end BoringOs.Time
