import BoringOs.Lib.Spans
import Mathlib.Tactic.NormNum

/-! The Gregorian calendar from 1970 on, with months and days counted from zero. -/

namespace Gregorian

open Spans

def IsLeap (year : Nat) : Prop := year % 4 = 0 ∧ (year % 100 = 0 → year % 400 = 0)

instance (year : Nat) : Decidable (IsLeap year) := inferInstanceAs (Decidable (_ ∧ _))

def monthLength (year : Nat) : Nat → Nat
  | 1 => if IsLeap year then 29 else 28
  | 3 => 30
  | 5 => 30
  | 8 => 30
  | 10 => 30
  | _ => 31

def yearLength (year : Nat) : Nat := if IsLeap year then 366 else 365

theorem yearLength_pos (year : Nat) : 0 < yearLength year := by
  unfold yearLength
  split <;> omega

theorem monthLength_pos (year month : Nat) : 0 < monthLength year month := by
  unfold monthLength
  repeat' split
  all_goals omega

theorem elapsed_months (year : Nat) : elapsed (monthLength year) 0 12 = yearLength year := by
  simp only [elapsed, Finset.sum_Ico_eq_sum_range, Nat.sub_zero, zero_add, Finset.sum_range_succ,
    Finset.sum_range_zero, monthLength, yearLength]
  split <;> rfl

/-- A day that exists. -/
structure Date where
  year : Nat
  month : Nat
  day : Nat
  first : 1970 ≤ year
  inYear : month < 12
  inMonth : day < monthLength year month

def Date.dayOfYear (date : Date) : Nat := elapsed (monthLength date.year) 0 date.month + date.day

/-- Days since 1 January 1970. -/
def Date.dayNumber (date : Date) : Nat := elapsed yearLength 1970 date.year + date.dayOfYear

/-- 0 is Sunday; 1 January 1970 was a Thursday. -/
def weekday (dayNumber : Nat) : Nat := (dayNumber + 4) % 7

theorem Date.dayOfYear_lt (date : Date) : date.dayOfYear < yearLength date.year := by
  have inside := position_lt (Nat.zero_le date.month) date.inYear date.inMonth
  rwa [elapsed_months] at inside

/-- The order of dates. -/
def Date.Before (date other : Date) : Prop :=
  date.year < other.year ∨ date.year = other.year ∧
    (date.month < other.month ∨ date.month = other.month ∧ date.day < other.day)

theorem Date.Before.dayNumber_lt {date other : Date} (before : date.Before other) :
    date.dayNumber < other.dayNumber := by
  unfold Date.dayNumber
  rcases before with year | ⟨year, month | ⟨month, day⟩⟩
  · have := position_lt date.first year date.dayOfYear_lt
    omega
  · have inside := position_lt (Nat.zero_le date.month) month date.inMonth
    unfold Date.dayOfYear
    rw [← year]
    omega
  · unfold Date.dayOfYear
    rw [year, month]
    omega

theorem Date.before_of_lt {date other : Date} (less : date.dayNumber < other.dayNumber) :
    date.Before other := by
  by_contra not
  have same : ¬ other.Before date := fun after => lt_asymm less after.dayNumber_lt
  unfold Date.Before at not same
  have year : date.year = other.year := by omega
  have month : date.month = other.month := by omega
  have day : date.day = other.day := by omega
  unfold Date.dayNumber Date.dayOfYear at less
  rw [year, month, day] at less
  exact lt_irrefl _ less

theorem exists_date (number : Nat) : ∃ date : Date, date.dayNumber = number := by
  obtain ⟨year, rest, first, inside, rfl⟩ := exists_position yearLength_pos 1970 number
  obtain ⟨month, day, _, inMonth, rfl⟩ := exists_position (monthLength_pos year) 0 rest
  have inYear : month < 12 := by
    by_contra late
    have full := elapsed_mono (monthLength year) 0 (Nat.le_of_not_lt late)
    rw [elapsed_months] at full
    omega
  exact ⟨⟨year, month, day, first, inYear, inMonth⟩, rfl⟩

theorem Date.year_eq {date : Date} {year rest : Nat} (first : 1970 ≤ year)
    (inside : rest < yearLength year) (same : date.dayNumber = elapsed yearLength 1970 year + rest) :
    year = date.year ∧ rest = date.dayOfYear := by
  obtain ⟨sameYear, sameDay⟩ := position_unique date.first first date.dayOfYear_lt inside same
  exact ⟨sameYear.symm, sameDay.symm⟩

theorem Date.eq_of_dayNumber {date other : Date} (same : date.dayNumber = other.dayNumber) :
    date = other := by
  obtain ⟨year, rest⟩ := Date.year_eq date.first date.dayOfYear_lt (same.symm.trans rfl)
  unfold Date.dayOfYear at rest
  obtain ⟨year', month, day, first, inYear, inMonth⟩ := date
  obtain ⟨other', month', day', first', inYear', inMonth'⟩ := other
  dsimp only at year rest inMonth inMonth'
  subst year
  obtain ⟨rfl, rfl⟩ := position_unique (Nat.zero_le _) (Nat.zero_le _) inMonth inMonth' rest
  rfl

theorem Date.year_le (date : Date) : date.year ≤ 1970 + date.dayNumber := by
  have count : date.year - 1970 ≤ elapsed yearLength 1970 date.year := by
    have bound := Finset.card_nsmul_le_sum (Finset.Ico 1970 date.year) yearLength 1
      (fun y _ => yearLength_pos y)
    simpa [elapsed] using bound
  unfold Date.dayNumber
  omega

end Gregorian
