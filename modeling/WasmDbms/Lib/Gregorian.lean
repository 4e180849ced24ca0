import Mathlib.Algebra.Order.Ring.Int
import Mathlib.Tactic.Common

/-!
# The proleptic Gregorian calendar

Leap years, the dates of a year, and the number of the days before a year that
starts in March, so that the leap day is its last day.
-/
namespace Gregorian

def IsLeap (year : ℤ) : Prop := year % 4 = 0 ∧ (year % 100 ≠ 0 ∨ year % 400 = 0)

instance (year : ℤ) : Decidable (IsLeap year) := inferInstanceAs (Decidable (_ ∧ _))

def leapDay (year : ℤ) : ℤ := if IsLeap year then 1 else 0

def daysInMonth (year month : ℤ) : ℤ :=
  if month = 2 then 28 + leapDay year
  else if month = 4 ∨ month = 6 ∨ month = 9 ∨ month = 11 then 30
  else 31

/-- The date is in the calendar. -/
structure ValidDate (year month day : ℤ) : Prop where
  month_range : 1 ≤ month ∧ month ≤ 12
  day_range : 1 ≤ day ∧ day ≤ daysInMonth year month

theorem validDate_iff {year month day : ℤ} :
    ValidDate year month day ↔ (1 ≤ month ∧ month ≤ 12) ∧ 1 ≤ day ∧ day ≤ daysInMonth year month :=
  ⟨fun valid => ⟨valid.month_range, valid.day_range⟩, fun valid => ⟨valid.1, valid.2⟩⟩

instance (year month day : ℤ) : Decidable (ValidDate year month day) := decidable_of_iff _ validDate_iff.symm

theorem leapDay_cases (year : ℤ) : IsLeap year ∧ leapDay year = 1 ∨ ¬ IsLeap year ∧ leapDay year = 0 := by
  unfold leapDay
  split <;> simp_all

/-- The year that a date is in when years start in March. -/
def marchYear (year month : ℤ) : ℤ := if month ≤ 2 then year - 1 else year

/-- The months since March. -/
def marchMonth (month : ℤ) : ℤ := (month + 9) % 12

/-- The days of a year that starts in March before one of its months. -/
def marchMonthStart (monthFromMarch : ℤ) : ℤ := (153 * monthFromMarch + 2) / 5

/-- The days before the March of a year. -/
def marchStart (year : ℤ) : ℤ := 365 * year + year / 4 - year / 100 + year / 400

/-- A year that starts in March ends with the February of the next one. -/
theorem marchStart_succ (year : ℤ) : marchStart (year + 1) = marchStart year + 365 + leapDay (year + 1) := by
  unfold marchStart
  rcases leapDay_cases (year + 1) with ⟨leap, one⟩ | ⟨common, none⟩
  · unfold IsLeap at leap
    omega
  · unfold IsLeap at common
    omega

theorem marchStart_mono {a b : ℤ} (le : a ≤ b) : marchStart a ≤ marchStart b := by
  unfold marchStart
  omega

/-- The lengths of the months fill the year from March on, and what is left is February. -/
theorem daysInMonth_eq {year month : ℤ} (january : 1 ≤ month) (december : month ≤ 12) :
    daysInMonth year month = if month = 2 then 28 + leapDay year
      else marchMonthStart (marchMonth month + 1) - marchMonthStart (marchMonth month) := by
  have months : month = 1 ∨ month = 2 ∨ month = 3 ∨ month = 4 ∨ month = 5 ∨ month = 6 ∨ month = 7 ∨ month = 8 ∨
      month = 9 ∨ month = 10 ∨ month = 11 ∨ month = 12 := by omega
  unfold daysInMonth
  rcases months with rfl | rfl | rfl | rfl | rfl | rfl | rfl | rfl | rfl | rfl | rfl | rfl <;> rfl

/-- A valid date is a day of its month, counted from March. -/
theorem validDate_march {year month day : ℤ} (january : 1 ≤ month) (december : month ≤ 12) :
    ValidDate year month day ↔ 1 ≤ day ∧
      if month = 2 then day ≤ 28 + leapDay year
      else marchMonthStart (marchMonth month) + day ≤ marchMonthStart (marchMonth month + 1) := by
  rw [validDate_iff, daysInMonth_eq january december]
  split <;> omega

/-- The days before the day after a date, counted from a fixed day. -/
def dayNumber (year month day : ℤ) : ℤ :=
  marchStart (marchYear year month) + marchMonthStart (marchMonth month) + day

/-- The number of a valid date is one of its year from March on. -/
theorem ValidDate.dayNumber_range {year month day : ℤ} (valid : ValidDate year month day) :
    marchStart (marchYear year month) < dayNumber year month day ∧
      dayNumber year month day ≤ marchStart (marchYear year month + 1) := by
  obtain ⟨january, december⟩ := valid.month_range
  obtain ⟨first, last⟩ := (validDate_march january december).mp valid
  rw [marchStart_succ, dayNumber]
  unfold marchMonthStart marchMonth at *
  split at last
  · rename_i february
    have next : marchYear year month + 1 = year := by
      rw [marchYear, if_pos (by omega)]
      omega
    rw [next, february]
    omega
  · have leap := leapDay_cases (marchYear year month + 1)
    omega

theorem marchMonth_succ {month : ℤ} (january : 1 ≤ month) (other : month ≠ 2) (before : month < 12) :
    marchMonth (month + 1) = marchMonth month + 1 := by
  unfold marchMonth
  omega

/-- The date after a date. -/
def tomorrow (year month day : ℤ) : ℤ × ℤ × ℤ :=
  if day < daysInMonth year month then (year, month, day + 1)
  else if month < 12 then (year, month + 1, 1)
  else (year + 1, 1, 1)

/-- The numbers count the days. -/
theorem ValidDate.tomorrow {year month day : ℤ} (valid : ValidDate year month day) :
    dayNumber (tomorrow year month day).1 (tomorrow year month day).2.1 (tomorrow year month day).2.2 =
      dayNumber year month day + 1 := by
  obtain ⟨january, december⟩ := valid.month_range
  have last := valid.day_range.2
  unfold Gregorian.tomorrow
  split
  · unfold dayNumber
    dsimp only
    omega
  · rename_i full
    have full_month : day = daysInMonth year month := by omega
    rw [daysInMonth_eq january december] at full_month
    split
    · unfold dayNumber
      dsimp only
      split at full_month
      · rename_i february
        have succ := marchStart_succ (year - 1)
        rw [Int.sub_add_cancel] at succ
        rw [full_month, february]
        unfold marchYear marchMonthStart marchMonth
        simp only [show ¬ (2 : ℤ) + 1 ≤ 2 by decide, if_false, le_refl, if_true]
        omega
      · rename_i other
        rw [marchMonth_succ january other (by assumption)]
        have years : marchYear year (month + 1) = marchYear year month := by
          unfold marchYear
          split <;> split <;> omega
        rw [years]
        omega
    · obtain rfl : month = 12 := by omega
      have years : marchYear (year + 1) 1 = marchYear year 12 := by
        unfold marchYear
        rw [if_pos (by decide), if_neg (by decide), Int.add_sub_cancel]
      have months : marchMonth 1 = marchMonth 12 + 1 := rfl
      rw [if_neg (by decide)] at full_month
      rw [dayNumber, dayNumber, years, months]
      dsimp only
      omega

/-- Two valid dates with one number are the same. -/
theorem ValidDate.unique {year month day year' month' day' : ℤ} (valid : ValidDate year month day)
    (valid' : ValidDate year' month' day') (same : dayNumber year month day = dayNumber year' month' day') :
    year = year' ∧ month = month' ∧ day = day' := by
  obtain ⟨low, high⟩ := valid.dayNumber_range
  obtain ⟨low', high'⟩ := valid'.dayNumber_range
  have years : marchYear year month = marchYear year' month' := by
    rcases lt_trichotomy (marchYear year month) (marchYear year' month') with before | equal | after
    · have mono := marchStart_mono (Int.add_one_le_of_lt before)
      omega
    · exact equal
    · have mono := marchStart_mono (Int.add_one_le_of_lt after)
      omega
  obtain ⟨january, december⟩ := valid.month_range
  obtain ⟨january', december'⟩ := valid'.month_range
  obtain ⟨first, last⟩ := (validDate_march january december).mp valid
  obtain ⟨first', last'⟩ := (validDate_march january' december').mp valid'
  unfold dayNumber marchMonthStart marchMonth at same
  unfold marchMonthStart marchMonth at last last'
  -- February is the last month from March on, so the later of two months starts after the end of the other one
  have months : month = month' := by
    rw [years] at same
    split at last <;> split at last' <;> omega
  subst months
  rw [years] at same
  unfold marchYear at years
  refine ⟨?_, rfl, by omega⟩
  split at years <;> omega

end Gregorian
