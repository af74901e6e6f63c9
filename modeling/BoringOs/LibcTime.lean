import BoringOs.KTime

/-! `gmtime_r` and `mktime` of `lib/libc/time.c`. -/

namespace BoringOs.Time

open Spans Gregorian Option

structure Tm where
  tm_sec : Int
  tm_min : Int
  tm_hour : Int
  tm_mday : Int
  tm_mon : Int
  tm_year : Int
  tm_wday : Int
  tm_yday : Int
  deriving DecidableEq

/-! The two functions have the same text as those of the kernel. -/

def time_IsLeapYear (year : Nat) : Bool := kTimeIsLeapYear year

def time_DaysInMonth (year month : Nat) : Option Nat := kTimeDaysInMonth year month

/-- `time_t` is unsigned. A month outside the table has no meaning and neither has the result. -/
def gmtime_r (timep : Nat) : Option Tm := do
  let secs := timep % (60 * 60 * 24)
  let days := timep / (60 * 60 * 24)
  let mins := secs / 60
  let (y, left) ← locate (fun y => some (if time_IsLeapYear y then 366 else 365)) (days + 1) 1970 days
  let tm_year := toInt32 (y - 1900)
  let (m, mday) ← locate (time_DaysInMonth (ofInt (tm_year + 1900))) 13 0 left
  return {
    tm_sec := toInt32 (secs % 60)
    tm_min := toInt32 (mins % 60)
    tm_hour := toInt32 (mins / 60 % 24)
    tm_wday := toInt32 (add64 days 3 % 7)
    tm_year := tm_year
    tm_yday := toInt32 left
    tm_mon := toInt32 m
    tm_mday := toInt32 mday }

def TZ_OFFSET_SECS : Nat := 0

def mktime (tm : Tm) : Option Nat := do
  let years ← total (fun y => some (if time_IsLeapYear y then 366 else 365)) 70 (ofInt tm.tm_year)
  let yday ← total (time_DaysInMonth (ofInt (tm.tm_year + 1900))) 0 (ofInt tm.tm_mon)
  let days := add64 years (add64 yday (ofInt tm.tm_mday))
  let secs := add64 (mul64 24 days) (ofInt tm.tm_hour)
  let secs := add64 (mul64 secs 60) (ofInt tm.tm_min)
  let secs := add64 (mul64 secs 60) (ofInt tm.tm_sec)
  return add64 secs TZ_OFFSET_SECS

/-- The days `mktime` has lost by the start of a year, since it tests the year less 1900 for leap
years: the year 100 is none and 2000 is one, 200 and 2100 agree again until 400 and 2300. -/
def daysLost (year : Nat) : Nat := if 300 ≤ (year - 1) % 400 then 0 else 1

theorem daysLost_step (count : Nat) : yearLength (70 + count) + daysLost (1970 + count + 1) =
    daysLost (1970 + count) + yearLength (1970 + count) := by
  unfold yearLength daysLost
  split_ifs <;> unfold IsLeap at * <;> omega

theorem elapsed_less_1900 (count : Nat) :
    elapsed yearLength 70 (70 + count) + daysLost (1970 + count) =
      elapsed yearLength 1970 (1970 + count) := by
  induction count with
  | zero => simp [daysLost]
  | succ count ih =>
    calc elapsed yearLength 70 (70 + (count + 1)) + daysLost (1970 + (count + 1))
        = elapsed yearLength 70 (70 + count) +
            (yearLength (70 + count) + daysLost (1970 + count + 1)) := by
          rw [← add_assoc 70, elapsed_succ yearLength (by omega), add_assoc, add_assoc 1970]
      _ = elapsed yearLength 1970 (1970 + count) + yearLength (1970 + count) := by
          rw [daysLost_step, ← add_assoc, ih]
      _ = elapsed yearLength 1970 (1970 + (count + 1)) := by
          rw [← add_assoc 1970, elapsed_succ yearLength (by omega)]

section

variable {date : Date} {t : Nat}

theorem gmtime_r_eq (fits : date.year < 2 ^ 31) (small : t < word64)
    (number : date.dayNumber = t / 86400) :
    gmtime_r t = (locate (kTimeDaysInMonth date.year) 13 0 date.dayOfYear).map
      (fun (month, mday) => ⟨(t % 60 : Nat), (t % 3600 / 60 : Nat), (t % 86400 / 3600 : Nat),
        toInt32 mday, toInt32 month, (date.year - 1900 : Nat), ((date.dayNumber + 3) % 7 : Nat),
        date.dayOfYear⟩) := by
  have years := locate_year date
  rw [number] at years ⊢
  have first := date.first
  have year : toInt32 (date.year - 1900) = (date.year - 1900 : Nat) := toInt32_of_lt (by omega)
  have index : ofInt ((date.year - 1900 : Nat) + 1900) = date.year := by
    have sum : ((date.year - 1900 : Nat) : Int) + 1900 = date.year := by omega
    rw [sum, ofInt_natCast (lt_trans fits (by decide))]
  have yday : toInt32 date.dayOfYear = date.dayOfYear :=
    toInt32_of_lt (lt_trans (dayOfYear_small date) (by decide))
  obtain ⟨sec, min, hour⟩ := timeOfDay_eq t
  have lengths : (fun y => some (if time_IsLeapYear y then 366 else 365)) =
      fun y => some (daysOfYear y) := rfl
  have table : time_DaysInMonth date.year = kTimeDaysInMonth date.year := rfl
  unfold gmtime_r
  simp only [Nat.reduceMul, lengths, table, years, bind_eq_bind,
    bind_some, year, index, yday, wday_eq small, sec, min, hour]
  cases locate (kTimeDaysInMonth date.year) 13 0 date.dayOfYear with
  | none => rfl
  | some found => rfl

theorem daysLost_le (date : Date) : daysLost date.year ≤ date.dayNumber := by
  have shift := elapsed_less_1900 (date.year - 1970)
  have start : 1970 + (date.year - 1970) = date.year := Nat.add_sub_cancel' date.first
  have whole : date.dayNumber = elapsed yearLength 1970 date.year + date.dayOfYear := rfl
  rw [start] at shift
  omega

theorem mktime_eq {month mday : Nat} {wday yday : Int} (fits : date.year < 2 ^ 31) (small : t < word64)
    (number : date.dayNumber = t / 86400) (inYear : month < 12) (inside : mday < tableLength date.year month)
    (sum : date.dayOfYear = elapsed (tableLength date.year) 0 month + mday) :
    mktime ⟨(t % 60 : Nat), (t % 3600 / 60 : Nat), (t % 86400 / 3600 : Nat), mday, month,
      (date.year - 1900 : Nat), wday, yday⟩ =
      some (t - 86400 * daysLost date.year) := by
  have first := date.first
  have size : (2 : Nat) ^ 32 < word64 := by decide
  have longest := tableLength_le date.year month
  have short := dayOfYear_small date
  have shift := elapsed_less_1900 (date.year - 1970)
  have start : 70 + (date.year - 1970) = date.year - 1900 := by omega
  have real : 1970 + (date.year - 1970) = date.year := by omega
  rw [start, real] at shift
  have whole : date.dayNumber = elapsed yearLength 1970 date.year + date.dayOfYear := rfl
  have years : total (fun y => some (if time_IsLeapYear y then 366 else 365)) 70 (date.year - 1900) =
      some (elapsed yearLength 70 (date.year - 1900)) :=
    total_eq (by omega) (fun y _ _ => congrArg some (daysOfYear_eq y)) (by unfold word64 at *; omega)
  have months : total (time_DaysInMonth date.year) 0 month =
      some (elapsed (tableLength date.year) 0 month) :=
    total_eq (Nat.zero_le _) (fun m _ less => kTimeDaysInMonth_known (by omega)) (by omega)
  have index : ofInt ((date.year - 1900 : Nat) + 1900) = date.year := by
    have sum : ((date.year - 1900 : Nat) : Int) + 1900 = date.year := by omega
    rw [sum, ofInt_natCast (by omega)]
  unfold mktime
  simp only [ofInt_natCast (show date.year - 1900 < word64 by omega), index, years, months,
    ofInt_natCast (show month < word64 by omega), ofInt_natCast (show mday < word64 by omega),
    ofInt_natCast (show t % 60 < word64 by omega), ofInt_natCast (show t % 3600 / 60 < word64 by omega),
    ofInt_natCast (show t % 86400 / 3600 < word64 by omega), bind_eq_bind, bind_some,
    pure_def, some.injEq]
  have days : add64 (elapsed yearLength 70 (date.year - 1900))
      (add64 (elapsed (tableLength date.year) 0 month) mday) = t / 86400 - daysLost date.year := by
    rw [add64_of_lt (show elapsed (tableLength date.year) 0 month + mday < word64 by omega),
      add64_of_lt (by unfold word64 at *; omega)]
    omega
  have late := daysLost_le date
  rw [days, seconds_eq (by unfold word64 at *; omega), TZ_OFFSET_SECS]
  refine (add64_of_lt (by unfold word64 at *; omega)).trans ?_
  omega

theorem table_holds_iff (date : Date) : date.dayOfYear < elapsed (tableLength date.year) 0 12 ↔
    ¬(IsLeap date.year ∧ 363 ≤ date.dayOfYear) := by
  have inYear := date.dayOfYear_lt
  have months := elapsed_months date.year
  by_cases leap : IsLeap date.year
  · have short := elapsed_leap leap le_rfl
    have length : yearLength date.year = 366 := if_pos leap
    simp only [Nat.reduceLeDiff, Nat.reduceEqDiff, if_false] at short
    simp only [leap, true_and]
    omega
  · rw [elapsed_common leap le_rfl, months]
    simp only [leap, false_and, not_false_eq_true, iff_true]
    exact inYear

/-- `mktime` undoes `gmtime_r` exactly at the days that `gmtime_r` can show (all but the last three
of a leap year) in the years up to 2000, from 2301 to 2400 and so on. -/
theorem mktime_gmtime_r_iff (date : Date) (t : Nat) (fits : date.year < 2 ^ 31) (small : t < word64)
    (number : date.dayNumber = t / 86400) :
    (∃ tm, gmtime_r t = some tm ∧ mktime tm = some t) ↔
      300 ≤ (date.year - 1) % 400 ∧ ¬(IsLeap date.year ∧ 363 ≤ date.dayOfYear) := by
  have whole := gmtime_r_eq fits small number
  rw [← table_holds_iff date]
  constructor
  · rintro ⟨tm, shown, back⟩
    rw [shown] at whole
    obtain ⟨⟨month, mday⟩, found, same⟩ := map_eq_some_iff.mp whole.symm
    obtain ⟨sum, inside, inYear⟩ := locate_month found
    have longest := tableLength_le date.year month
    simp only [toInt32_of_lt (show month < 2 ^ 31 by omega),
      toInt32_of_lt (show mday < 2 ^ 31 by omega)] at same
    rw [← same, mktime_eq fits small number inYear inside sum, some.injEq] at back
    constructor
    · by_contra late
      have lost : daysLost date.year = 1 := if_neg late
      have early := daysLost_le date
      omega
    · have upTo := elapsed_mono (tableLength date.year) 0 (show month + 1 ≤ 12 by omega)
      rw [elapsed_succ _ (Nat.zero_le month)] at upTo
      omega
  · rintro ⟨early, below⟩
    obtain ⟨month, mday, _, inYear, inside, sum⟩ := exists_position_below below
    have longest := tableLength_le date.year month
    have found := locate_month_of inYear inside
    rw [← sum] at found
    rw [found, map_some] at whole
    simp only [toInt32_of_lt (show month < 2 ^ 31 by omega),
      toInt32_of_lt (show mday < 2 ^ 31 by omega)] at whole
    refine ⟨_, whole, ?_⟩
    have kept : daysLost date.year = 0 := if_pos early
    rw [mktime_eq fits small number inYear inside sum, kept]
    rfl

end

/-- 29 February 2000. -/
def leapDay : Date := ⟨2000, 1, 28, by decide, by decide, by decide⟩

theorem mktime_gmtime_r_leap_day : leapDay.dayNumber = 951826154 / 86400 ∧
    ∃ tm, gmtime_r 951826154 = some tm ∧ mktime tm = some 951826154 := by
  have day : leapDay.dayNumber = 951826154 / 86400 := by decide +kernel
  exact ⟨day, (mktime_gmtime_r_iff leapDay _ (by decide) (by decide) day).mpr (by decide)⟩

/-- The first second of 2001 comes back a day early, and 31 December 2024 has no `tm`. -/
theorem mktime_gmtime_r_not_inverse :
    (gmtime_r 978307200).bind mktime = some (978307200 - 86400) ∧ gmtime_r 1735603200 = none := by
  decide +kernel

end BoringOs.Time
