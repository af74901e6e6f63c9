import BoringOs.Errno
import BoringOs.Lib.Gregorian
import Mathlib.Tactic.IntervalCases

/-! The calendar of `sys/kern/ktime.c`. -/

namespace BoringOs.Time

open Spans Gregorian Option

structure KTime where
  sec : Int
  min : Int
  hour : Int
  month : Int
  year : Int
  mday : Int
  wday : Int
  yday : Int
  deriving DecidableEq

def ofInt (value : Int) : Nat := (value % word64).toNat

theorem ofInt_natCast {value : Nat} (small : value < word64) : ofInt value = value := by
  unfold ofInt
  rw [Int.emod_eq_of_lt (Int.natCast_nonneg value) (Int.ofNat_lt.mpr small)]
  rfl

def kTimeIsLeapYear (year : Nat) : Bool :=
  if year % 4 ≠ 0 then false
  else if year % 100 ≠ 0 then true
  else if year % 400 ≠ 0 then false
  else true

def kTimeDaysInMonth (year month : Nat) : Option Nat :=
  if month = 2 ∧ kTimeIsLeapYear year then some 29
  else [31, 28, 31, 30, 31, 30, 31, 31, 30, 31, 30, 31][month]?

def daysOfYear (year : Nat) : Nat := if kTimeIsLeapYear year then 366 else 365

/-- `KTime_FromEpoch`. The fuel of the loop over the years is not used up, since a year has a day; the
table ends the loop over the months. -/
def kTime_FromEpoch (epoch : Nat) : Option KTime := do
  let secs := epoch % (60 * 60 * 24)
  let days := epoch / (60 * 60 * 24)
  let mins := secs / 60
  let (y, left) ← locate (fun y => some (daysOfYear y)) (days + 1) 1970 days
  let year := toInt32 y
  let (m, mday) ← locate (kTimeDaysInMonth (ofInt year)) 13 0 left
  return {
    sec := toInt32 (secs % 60)
    min := toInt32 (mins % 60)
    hour := toInt32 (mins / 60 % 24)
    wday := toInt32 (add64 days 3 % 7)
    year := year
    yday := toInt32 left
    month := toInt32 m
    mday := toInt32 mday }

def total (length : Nat → Option Nat) (start stop : Nat) : Option Nat :=
  (List.range' start (stop - start)).foldlM (fun sum i => (length i).map (add64 sum)) 0

def kTime_ToEpoch (tm : KTime) : Option Nat := do
  let years ← total (fun y => some (daysOfYear y)) 1970 (ofInt tm.year)
  let days ←
    if tm.yday = -1 then
      (total (kTimeDaysInMonth (ofInt tm.year)) 0 (ofInt tm.month)).map
        (fun yday => add64 years (add64 yday (ofInt tm.mday)))
    else some (add64 years (ofInt tm.yday))
  let secs := add64 (mul64 24 days) (ofInt tm.hour)
  let secs := add64 (mul64 secs 60) (ofInt tm.min)
  return add64 (mul64 secs 60) (ofInt tm.sec)

/-- The clock: the epoch and the counter at the last `KTime_SetTime`. -/
structure Clock where
  ktimeLastEpoch : Nat
  ktimeLastTSC : Nat
  ticksPerSecond : Nat

/-- `Time_GetTSC() - ktimeLastTSC`. -/
def Clock.tscDiff (clock : Clock) (tsc : Nat) : Nat := add64 tsc (word64 - clock.ktimeLastTSC)

def kTime_GetEpoch (clock : Clock) (tsc : Nat) : Nat :=
  add64 clock.ktimeLastEpoch (clock.tscDiff tsc / clock.ticksPerSecond)

def kTime_GetEpochNS (clock : Clock) (tsc : Nat) : Nat :=
  add64 (mul64 clock.ktimeLastEpoch 1000000000)
    (mul64 (mul64 (clock.tscDiff tsc) 1000000 / clock.ticksPerSecond) 1000)

theorem kTimeIsLeapYear_iff (year : Nat) : kTimeIsLeapYear year = true ↔ IsLeap year := by
  unfold kTimeIsLeapYear IsLeap
  repeat' split
  all_goals simp only [Bool.false_eq_true, false_iff, true_iff]
  all_goals omega

theorem daysOfYear_eq (year : Nat) : daysOfYear year = yearLength year := by
  simp only [daysOfYear, yearLength, kTimeIsLeapYear_iff]

def tableLength (year month : Nat) : Nat := (kTimeDaysInMonth year month).getD 0

section

variable {year month : Nat}

theorem kTimeDaysInMonth_known (inYear : month < 12) :
    kTimeDaysInMonth year month = some (tableLength year month) := by
  have entry : (kTimeDaysInMonth year month).isSome := by
    unfold kTimeDaysInMonth
    split
    · rfl
    · interval_cases month <;> rfl
  rw [tableLength, getD_of_ne_none (isSome_iff_ne_none.mp entry)]

theorem kTimeDaysInMonth_some {n : Nat} (known : kTimeDaysInMonth year month = some n) :
    n = tableLength year month := by
  rw [tableLength, known]
  rfl

theorem kTimeDaysInMonth_none (outside : 12 ≤ month) : kTimeDaysInMonth year month = none := by
  unfold kTimeDaysInMonth
  rw [if_neg (by omega)]
  exact List.getElem?_eq_none outside

theorem tableLength_common (common : ¬ IsLeap year) (inYear : month < 12) :
    tableLength year month = monthLength year month := by
  have never : kTimeIsLeapYear year = false := by
    rw [← Bool.not_eq_true, kTimeIsLeapYear_iff]
    exact common
  unfold tableLength kTimeDaysInMonth
  interval_cases month <;> simp [never, monthLength, common]

theorem tableLength_leap (leap : IsLeap year) (inYear : month < 12) :
    tableLength year month =
      if month = 1 then 28 else if month = 2 then 29 else monthLength year month := by
  have always : kTimeIsLeapYear year = true := (kTimeIsLeapYear_iff year).mpr leap
  unfold tableLength kTimeDaysInMonth
  interval_cases month <;> simp [always, monthLength]

theorem elapsed_common (common : ¬ IsLeap year) (inYear : month ≤ 12) :
    elapsed (tableLength year) 0 month = elapsed (monthLength year) 0 month :=
  elapsed_congr fun k _ less => tableLength_common common (by omega)

theorem elapsed_leap (leap : IsLeap year) (inYear : month ≤ 12) :
    elapsed (tableLength year) 0 month +
      (if month ≤ 1 then 0 else if month = 2 then 1 else 3) = elapsed (monthLength year) 0 month := by
  induction month with
  | zero => simp
  | succ month ih =>
    have before := ih (by omega)
    rw [elapsed_succ _ (Nat.zero_le month), elapsed_succ _ (Nat.zero_le month),
      tableLength_leap leap (by omega)]
    have february : monthLength year 1 = 29 := if_pos leap
    have march : monthLength year 2 = 31 := rfl
    by_cases second : month = 1
    · subst second
      rw [if_pos (by omega)] at before
      rw [if_pos rfl, if_neg (by omega), if_pos rfl, february]
      omega
    · by_cases third : month = 2
      · subst third
        rw [if_neg (by omega), if_pos rfl] at before
        rw [if_neg (by omega), if_pos rfl, if_neg (by omega), if_neg (by omega), march]
        omega
      · rw [if_neg second, if_neg third]
        by_cases none : month = 0
        · subst none
          rw [if_pos (by omega)] at before ⊢
          omega
        · rw [if_neg (by omega), if_neg third] at before
          rw [if_neg (by omega), if_neg (by omega)]
          omega

end

/-- The fields of `tm` are those of the second `epoch` of the Gregorian date. -/
structure Shows (tm : KTime) (date : Date) (epoch : Nat) : Prop where
  year : tm.year = date.year
  month : tm.month = date.month
  mday : tm.mday = date.day
  yday : tm.yday = date.dayOfYear
  hour : tm.hour = (epoch % 86400 / 3600 : Nat)
  min : tm.min = (epoch % 3600 / 60 : Nat)
  sec : tm.sec = (epoch % 60 : Nat)

section

variable {date : Date} {epoch : Nat}

theorem locate_year (date : Date) : locate (fun y => some (daysOfYear y)) (date.dayNumber + 1) 1970
    date.dayNumber = some (date.year, date.dayOfYear) := by
  have count := date.year_le
  have all : ∀ y, 1970 ≤ y → y ≤ date.year → some (daysOfYear y) = some (yearLength y) :=
    fun y _ _ => by rw [daysOfYear_eq]
  exact locate_finds date.dayOfYear_lt _ 1970 date.first all (by omega)

theorem dayOfYear_small (date : Date) : date.dayOfYear < 366 := by
  have inYear := date.dayOfYear_lt
  unfold yearLength at inYear
  split at inYear <;> omega

theorem timeOfDay_eq (epoch : Nat) :
    toInt32 (epoch % 86400 % 60) = (epoch % 60 : Nat) ∧
      toInt32 (epoch % 86400 / 60 % 60) = (epoch % 3600 / 60 : Nat) ∧
      toInt32 (epoch % 86400 / 60 / 60 % 24) = (epoch % 86400 / 3600 : Nat) := by
  have hour : epoch % 86400 / 60 / 60 % 24 = epoch % 86400 / 3600 := by omega
  have min : epoch % 86400 / 60 % 60 = epoch % 3600 / 60 := by omega
  have sec : epoch % 86400 % 60 = epoch % 60 := by omega
  rw [hour, min, sec]
  exact ⟨toInt32_of_lt (by omega), toInt32_of_lt (by omega), toInt32_of_lt (by omega)⟩

theorem wday_eq (small : epoch < word64) :
    toInt32 (add64 (epoch / 86400) 3 % 7) = ((epoch / 86400 + 3) % 7 : Nat) := by
  have sum : add64 (epoch / 86400) 3 = epoch / 86400 + 3 := by
    refine add64_of_lt ?_
    unfold word64 at *
    omega
  rw [sum]
  exact toInt32_of_lt (by omega)

theorem kTime_FromEpoch_eq (fits : date.year < 2 ^ 31) (small : epoch < word64)
    (number : date.dayNumber = epoch / 86400) :
    kTime_FromEpoch epoch = (locate (kTimeDaysInMonth date.year) 13 0 date.dayOfYear).map
      (fun (month, mday) => ⟨(epoch % 60 : Nat), (epoch % 3600 / 60 : Nat),
        (epoch % 86400 / 3600 : Nat), toInt32 month, date.year, toInt32 mday,
        ((date.dayNumber + 3) % 7 : Nat), date.dayOfYear⟩) := by
  have years := locate_year date
  rw [number] at years ⊢
  have year : toInt32 date.year = date.year := toInt32_of_lt fits
  have index : ofInt date.year = date.year := ofInt_natCast (lt_trans fits (by decide))
  have yday : toInt32 date.dayOfYear = date.dayOfYear :=
    toInt32_of_lt (lt_trans (dayOfYear_small date) (by decide))
  obtain ⟨sec, min, hour⟩ := timeOfDay_eq epoch
  unfold kTime_FromEpoch
  simp only [Nat.reduceMul, years, bind_eq_bind, bind_some, year, index, yday,
    wday_eq small, sec, min, hour]
  cases locate (kTimeDaysInMonth date.year) 13 0 date.dayOfYear with
  | none => rfl
  | some found => rfl

theorem locate_month {year left month mday : Nat}
    (found : locate (kTimeDaysInMonth year) 13 0 left = some (month, mday)) :
    left = elapsed (tableLength year) 0 month + mday ∧ mday < tableLength year month ∧ month < 12 := by
  obtain ⟨_, sum, inside⟩ :=
    locate_sound (fun k n known => kTimeDaysInMonth_some known) 13 0 left month mday found
  refine ⟨sum, inside, ?_⟩
  by_contra outside
  rw [tableLength, kTimeDaysInMonth_none (by omega)] at inside
  exact absurd inside (Nat.not_lt_zero _)

theorem locate_month_of {year month mday : Nat} (inYear : month < 12)
    (inside : mday < tableLength year month) :
    locate (kTimeDaysInMonth year) 13 0 (elapsed (tableLength year) 0 month + mday) =
      some (month, mday) :=
  locate_finds inside 13 0 (Nat.zero_le _) (fun _ _ below => kTimeDaysInMonth_known (by omega)) (by omega)

theorem tableLength_le (year month : Nat) : tableLength year month ≤ 31 := by
  by_cases inYear : month < 12
  · by_cases leap : IsLeap year
    · rw [tableLength_leap leap inYear]
      interval_cases month <;> simp [monthLength]
    · rw [tableLength_common leap inYear]
      interval_cases month <;> simp [monthLength, leap]
  · rw [tableLength, kTimeDaysInMonth_none (by omega)]
    exact Nat.zero_le _

theorem table_agrees_iff (date : Date) :
    (elapsed (tableLength date.year) 0 date.month = elapsed (monthLength date.year) 0 date.month ∧
      date.day < tableLength date.year date.month) ↔ ¬ (IsLeap date.year ∧ 59 ≤ date.dayOfYear) := by
  have inYear := date.inYear
  have inMonth := date.inMonth
  by_cases leap : IsLeap date.year
  · have shift := elapsed_leap leap (le_of_lt inYear)
    have january : elapsed (monthLength date.year) 0 1 = 31 := by
      rw [elapsed_succ _ le_rfl, elapsed_self]
      rfl
    have february : elapsed (monthLength date.year) 0 2 = 60 := by
      rw [elapsed_succ _ (Nat.zero_le 1), january, monthLength, if_pos leap]
    rw [tableLength_leap leap inYear]
    simp only [leap, true_and, not_le, Date.dayOfYear]
    by_cases first : date.month = 0
    · rw [first] at shift inMonth ⊢
      have length : monthLength date.year 0 = 31 := rfl
      simp only [elapsed_self, zero_ne_one, ↓reduceIte, OfNat.zero_ne_ofNat, true_and]
      omega
    · by_cases second : date.month = 1
      · rw [second] at shift ⊢
        simp only [le_refl, ↓reduceIte, add_zero] at shift
        rw [shift, january, if_pos rfl]
        omega
      · have start := elapsed_mono (monthLength date.year) 0 (show 2 ≤ date.month by omega)
        rw [if_neg (by omega)] at shift
        have behind : elapsed (tableLength date.year) 0 date.month <
            elapsed (monthLength date.year) 0 date.month := by
          split at shift <;> omega
        constructor
        · intro same
          omega
        · intro early
          omega
  · simp only [leap, false_and, not_false_eq_true, iff_true]
    rw [elapsed_common leap (le_of_lt inYear), tableLength_common leap inYear]
    exact ⟨rfl, inMonth⟩

/-- The date is the Gregorian one exactly before the 29th of February of a leap year and in all other
years, and the weekday counts from Monday. -/
theorem kTime_FromEpoch_gregorian_iff (date : Date) (epoch : Nat) (fits : date.year < 2 ^ 31)
    (small : epoch < word64) (number : date.dayNumber = epoch / 86400) :
    ((∃ tm, kTime_FromEpoch epoch = some tm ∧ Shows tm date epoch) ↔
      ¬ (IsLeap date.year ∧ 59 ≤ date.dayOfYear)) ∧
    ∀ tm, kTime_FromEpoch epoch = some tm → tm.wday = ((weekday date.dayNumber + 6) % 7 : Nat) := by
  have whole := kTime_FromEpoch_eq fits small number
  have gregorian : date.dayOfYear = elapsed (monthLength date.year) 0 date.month + date.day := rfl
  have inYear := date.inYear
  refine ⟨⟨?_, ?_⟩, ?_⟩
  · -- the month that was found has to begin where the Gregorian one does
    rintro ⟨tm, ran, shows⟩
    rw [whole] at ran
    obtain ⟨⟨month, mday⟩, found, rfl⟩ := map_eq_some_iff.mp ran
    obtain ⟨sum, inside, table⟩ := locate_month found
    have longest := tableLength_le date.year month
    have sameMonth : (month : Int) = date.month := by
      rw [← toInt32_of_lt (show month < 2 ^ 31 by omega)]
      exact shows.month
    have sameDay : (mday : Int) = date.day := by
      rw [← toInt32_of_lt (show mday < 2 ^ 31 by omega)]
      exact shows.mday
    obtain rfl : month = date.month := by omega
    obtain rfl : mday = date.day := by omega
    exact (table_agrees_iff date).mp ⟨by omega, inside⟩
  · intro before
    obtain ⟨sum, inside⟩ := (table_agrees_iff date).mpr before
    have longest := tableLength_le date.year date.month
    rw [whole, gregorian, ← sum, locate_month_of inYear inside]
    refine ⟨_, rfl, rfl, toInt32_of_lt (by omega), toInt32_of_lt (by omega), ?_, rfl, rfl, rfl⟩
    rw [sum]
    rfl
  · intro tm ran
    rw [whole] at ran
    obtain ⟨found, _, rfl⟩ := map_eq_some_iff.mp ran
    have shift : (weekday date.dayNumber + 6) % 7 = (date.dayNumber + 3) % 7 := by
      unfold weekday
      omega
    rw [shift]

end

section

variable {length : Nat → Option Nat} {known : Nat → Nat}

theorem foldlM_total (count : Nat) : ∀ start sum,
    (∀ k, start ≤ k → k < start + count → length k = some (known k)) →
    sum + elapsed known start (start + count) < word64 →
    (List.range' start count).foldlM (fun sum i => (length i).map (add64 sum)) sum =
      some (sum + elapsed known start (start + count)) := by
  induction count with
  | zero =>
    intro start sum _ _
    simp
  | succ count ih =>
    intro start sum all small
    have first := elapsed_first known (show start < start + (count + 1) by omega)
    have next : start + (count + 1) = start + 1 + count := by omega
    rw [next] at first small ⊢
    rw [List.range'_succ, List.foldlM_cons, all start le_rfl (by omega)]
    simp only [map_some, bind_eq_bind, bind_some]
    rw [add64_of_lt (by omega), ih (start + 1) _ (fun k low high => all k (by omega) (by omega))
      (by omega), first, add_assoc]

theorem total_eq {start stop : Nat} (low : start ≤ stop)
    (all : ∀ k, start ≤ k → k < stop → length k = some (known k))
    (small : elapsed known start stop < word64) :
    total length start stop = some (elapsed known start stop) := by
  have sum := foldlM_total (stop - start) start 0 (by rwa [Nat.add_sub_cancel' low])
    (by rwa [Nat.add_sub_cancel' low, zero_add])
  rwa [Nat.add_sub_cancel' low, zero_add] at sum

theorem seconds_eq {days hour min sec : Nat}
    (small : days * 86400 + (hour * 3600 + min * 60 + sec) < word64) :
    add64 (mul64 (add64 (mul64 (add64 (mul64 24 days) hour) 60) min) 60) sec =
      days * 86400 + (hour * 3600 + min * 60 + sec) := by
  have hours : add64 (mul64 24 days) hour = 24 * days + hour := by
    rw [mul64_of_lt (show 24 * days < word64 by omega), add64_of_lt (by omega)]
  have mins : add64 (mul64 (24 * days + hour) 60) min = (24 * days + hour) * 60 + min := by
    rw [mul64_of_lt (show (24 * days + hour) * 60 < word64 by omega), add64_of_lt (by omega)]
  rw [hours, mins, mul64_of_lt (show ((24 * days + hour) * 60 + min) * 60 < word64 by omega),
    add64_of_lt (by omega)]
  omega

end

def firstOfMarch : Date := ⟨2023, 2, 0, by decide, by decide, by decide⟩

theorem kTime_FromEpoch_first_of_march :
    firstOfMarch.dayNumber = 1677674096 / 86400 ∧
      ∃ tm, kTime_FromEpoch 1677674096 = some tm ∧ Shows tm firstOfMarch 1677674096 := by
  have number : firstOfMarch.dayNumber = 1677674096 / 86400 := by decide +kernel
  exact ⟨number, ((kTime_FromEpoch_gregorian_iff firstOfMarch 1677674096 (by decide) (by decide)
    number).1).mpr (by decide +kernel)⟩

/-- The first second is shown as a Wednesday, 29 February 2024 as the first day of March, and the last
day of 2024 is looked for behind the table. -/
theorem kTime_FromEpoch_not_gregorian :
    (kTime_FromEpoch 0).map KTime.wday = some 3 ∧
      (kTime_FromEpoch 1709164800).map (fun tm => (tm.year, tm.month, tm.mday)) = some (2024, 2, 0) ∧
      (Date.mk 2024 1 28 (by decide) (by decide) (by decide)).dayNumber = 1709164800 / 86400 ∧
      kTime_FromEpoch 1735603200 = none := by
  decide +kernel

end BoringOs.Time
