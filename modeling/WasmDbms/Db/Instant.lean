import WasmDbms.Db.Timezone
import WasmDbms.Lib.Gregorian

/-!
# Instants and the calendar

The dates that survive the round trip through a day count are those of the
Gregorian calendar. A date and time keeps its instant when it is moved to
another offset, and no `i64` overflows on the way.
-/
namespace WasmDbms
open Gregorian

theorem daysFromCivil_eq (year month day : ℤ) : daysFromCivil year month day = dayNumber year month day - 719469 := by
  rw [dayNumber, marchStart, marchMonthStart, marchMonth, daysFromCivil]
  change _ = 365 * (if month ≤ 2 then year - 1 else year) + (if month ≤ 2 then year - 1 else year) / 4 -
    (if month ≤ 2 then year - 1 else year) / 100 + (if month ≤ 2 then year - 1 else year) / 400 + _ + day - 719469
  generalize (if month ≤ 2 then year - 1 else year) = march
  omega

/-- The day after a date has the next number. -/
theorem daysFromCivil_tomorrow {year month day : ℤ} (valid : ValidDate year month day) :
    daysFromCivil (tomorrow year month day).1 (tomorrow year month day).2.1 (tomorrow year month day).2.2 =
      daysFromCivil year month day + 1 := by
  rw [daysFromCivil_eq, daysFromCivil_eq, valid.tomorrow]
  omega

/-- Only the last year before a leap day has 366 days. -/
theorem dayOfYear_leap {dayOfEra : ℤ} (low : 0 ≤ dayOfEra) (high : dayOfEra ≤ 146096)
    (last : dayOfYear dayOfEra = 365) : IsLeap (yearOfEra dayOfEra + 1) := by
  obtain ⟨c, q, r, d, century, cycle, year, day, leap, years, days⟩ := yearOfEra_split low high
  rw [years]
  unfold IsLeap
  omega

/-- The date of every number of days is in the calendar. -/
theorem civilFromDays_valid (days : ℤ) :
    ValidDate (civilFromDays days).1 (civilFromDays days).2.1.toNat (civilFromDays days).2.2.toNat := by
  generalize era_eq : (days + 719468) / 146097 = era
  generalize rest_eq : days + 719468 - era * 146097 = dayOfEra
  have low : 0 ≤ dayOfEra := by omega
  have high : dayOfEra ≤ 146096 := by omega
  have leap := dayOfYear_leap low high
  obtain ⟨-, day_low, day_high⟩ := yearOfEra_range low high
  obtain ⟨⟨march_low, march_high⟩, month_low, month_high⟩ := monthFromMarch_range day_low day_high
  obtain ⟨calendar_low, calendar_high, march⟩ := calendarMonth_range march_low march_high
  rw [civilFromDays]
  simp only [era_eq, rest_eq]
  rw [toNat_ofNat_toNat (by omega) (by omega), toNat_ofNat_toNat (by omega) (by omega)]
  generalize yearOfEra dayOfEra = year at leap ⊢
  generalize dayOfYear dayOfEra = day at *
  refine (validDate_march calendar_low calendar_high).mpr ⟨month_low, ?_⟩
  rw [marchMonth, march]
  split
  · rename_i february
    -- the last month from March on has a 29th day only in a leap year
    rw [february, if_pos (by decide), dayOfMonth]
    rw [february] at march
    have cycle : IsLeap (year + era * 400 + 1) ↔ IsLeap (year + 1) := by
      unfold IsLeap
      omega
    rw [leapDay]
    by_cases last : day = 365
    · rw [if_pos (cycle.mpr (leap last))]
      omega
    · split <;> omega
  · rw [marchMonthStart, marchMonthStart, dayOfMonth, monthFromMarch]
    omega

/-- A valid date is the date of its number of days. -/
theorem civilFromDays_daysFromCivil {year : ℤ} {month day : UInt8} (valid : ValidDate year month.toNat day.toNat) :
    civilFromDays (daysFromCivil year month.toNat day.toNat) = (year, month, day) := by
  have same := daysFromCivil_civilFromDays (daysFromCivil year month.toNat day.toNat)
  rw [daysFromCivil_eq, daysFromCivil_eq year] at same
  obtain ⟨years, months, days⟩ := (civilFromDays_valid _).unique valid (sub_left_injective same)
  refine Prod.ext ?_ (Prod.ext (UInt8.toNat_inj.mp ?_) (UInt8.toNat_inj.mp ?_))
  · rw [daysFromCivil_eq]
    exact years
  · rw [daysFromCivil_eq]
    exact Int.ofNat_inj.mp months
  · rw [daysFromCivil_eq]
    exact Int.ofNat_inj.mp days

/-- The round trip through a day count tells the dates of the calendar. -/
theorem dateIsValid_iff {dt : DateTime} :
    dateIsValid dt ↔ ValidDate dt.year.toNat dt.month.toNat dt.day.toNat := by
  constructor
  · rintro ⟨_, _, trip⟩
    have valid := civilFromDays_valid (daysFromCivil dt.year.toNat dt.month.toNat dt.day.toNat)
    rwa [trip] at valid
  · intro valid
    obtain ⟨first, last⟩ := valid.month_range
    exact ⟨⟨by omega, by omega⟩, by have day := valid.day_range.1; omega, civilFromDays_daysFromCivil valid⟩

/-! ## The instant of a date and time -/

/-- The fields name a day of the calendar and a time of the day. -/
def DateTime.CalendarValid (dt : DateTime) : Prop :=
  ValidDate dt.year.toNat dt.month.toNat dt.day.toNat ∧ timeIsValid dt

instance (dt : DateTime) : Decidable dt.CalendarValid := inferInstanceAs (Decidable (_ ∧ _))

/-- The microseconds from the epoch in UTC. -/
def DateTime.utcMicroseconds (dt : DateTime) : ℤ := datetimeToUs dt - dt.timezoneOffsetMinutes.toInt * 60 * 1000000

/-- The offset is below one day. -/
def BelowOneDay (offset : Int16) : Prop := -1440 < offset.toInt ∧ offset.toInt < 1440

instance (offset : Int16) : Decidable (BelowOneDay offset) := inferInstanceAs (Decidable (_ ∧ _))

/-- The year of an instant where the offset is in use. -/
def localYear (utcMicroseconds : ℤ) (offset : Int16) : ℤ :=
  (civilFromDays ((utcMicroseconds + offset.toInt * 60 * 1000000) / 86400000000)).1

section Sanitizer
variable {J : Type}

theorem validateCalendarFields_ok {dt : DateTime} (valid : dt.CalendarValid) :
    (validateCalendarFields dt : Except (DbmsError J) Unit) = .ok () :=
  if_pos ⟨dateIsValid_iff.mpr valid.1, valid.2⟩

theorem validateOffset_ok {offset : Int16} (below : BelowOneDay offset) (role : String) :
    (validateOffset offset role : Except (DbmsError J) Unit) = .ok () := by
  obtain ⟨low, high⟩ := below
  refine if_pos ⟨?_, ?_⟩
  · rw [maxOffsetMinutes]
    omega
  · rw [maxOffsetMinutes]
    omega

/-- The microseconds are taken apart at the places of the fields. -/
theorem usToDatetime_of_valid {dt : DateTime} (valid : dt.CalendarValid) :
    (usToDatetime (datetimeToUs dt) : Except (DbmsError J) DateTime) = .ok { dt with timezoneOffsetMinutes := 0 } := by
  obtain ⟨date, hour, minute, second, microsecond⟩ := valid
  have parts : datetimeToUs dt = (((daysFromCivil dt.year.toNat dt.month.toNat dt.day.toNat * 24 + dt.hour.toNat) * 60 +
      dt.minute.toNat) * 60 + dt.second.toNat) * 1000000 + dt.microsecond.toNat := by
    rw [datetimeToUs]
    omega
  have year := dt.year.toNat_lt
  rw [parts, usToDatetime]
  generalize trip_eq : daysFromCivil dt.year.toNat dt.month.toNat dt.day.toNat = days
  have us_rest : ((((days * 24 + dt.hour.toNat) * 60 + dt.minute.toNat) * 60 + dt.second.toNat) * 1000000 +
      dt.microsecond.toNat) % 1000000 = dt.microsecond.toNat := by omega
  have us : ((((days * 24 + dt.hour.toNat) * 60 + dt.minute.toNat) * 60 + dt.second.toNat) * 1000000 +
      dt.microsecond.toNat) / 1000000 = ((days * 24 + dt.hour.toNat) * 60 + dt.minute.toNat) * 60 + dt.second.toNat := by
    omega
  have second_rest : (((days * 24 + dt.hour.toNat) * 60 + dt.minute.toNat) * 60 + dt.second.toNat) % 60 =
      dt.second.toNat := by omega
  have seconds : (((days * 24 + dt.hour.toNat) * 60 + dt.minute.toNat) * 60 + dt.second.toNat) / 60 =
      (days * 24 + dt.hour.toNat) * 60 + dt.minute.toNat := by omega
  have minute_rest : ((days * 24 + dt.hour.toNat) * 60 + dt.minute.toNat) % 60 = dt.minute.toNat := by omega
  have minutes : ((days * 24 + dt.hour.toNat) * 60 + dt.minute.toNat) / 60 = days * 24 + dt.hour.toNat := by omega
  have hour_rest : (days * 24 + dt.hour.toNat) % 24 = dt.hour.toNat := by omega
  have hours : (days * 24 + dt.hour.toNat) / 24 = days := by omega
  simp only [us_rest, us, second_rest, seconds, minute_rest, minutes, hour_rest, hours]
  rw [← trip_eq, civilFromDays_daysFromCivil date]
  dsimp only
  rw [if_pos ⟨by omega, by omega⟩]
  simp

/-- What the sanitizer does to a valid date and time. -/
theorem timezoneSanitizer_eq {dt : DateTime} {offset : Int16} (valid : dt.CalendarValid)
    (source : BelowOneDay dt.timezoneOffsetMinutes) (target : BelowOneDay offset) :
    (timezoneSanitizer offset (.dateTime dt) : Except (DbmsError J) (Value J)) =
      (usToDatetime (dt.utcMicroseconds + offset.toInt * 60 * 1000000)).map
        fun made => .dateTime { made with timezoneOffsetMinutes := offset } := by
  have shift : datetimeToUs dt + (offset.toInt - dt.timezoneOffsetMinutes.toInt) * 60 * 1000000 =
      dt.utcMicroseconds + offset.toInt * 60 * 1000000 := by
    rw [DateTime.utcMicroseconds]
    omega
  rw [timezoneSanitizer, validateCalendarFields_ok valid, validateOffset_ok target, validateOffset_ok source, ← shift]
  rfl

/-- A conversion fails when the year does not fit. -/
theorem usToDatetime_cases (ts : ℤ) :
    (∃ made, (usToDatetime ts : Except (DbmsError J) DateTime) = .ok made ∧ datetimeToUs made = ts ∧ made.CalendarValid ∧
      0 ≤ (civilFromDays (ts / 86400000000)).1 ∧ (civilFromDays (ts / 86400000000)).1 ≤ 65535) ∨
    (∃ e, (usToDatetime ts : Except (DbmsError J) DateTime) = .error e) ∧
      ¬ (0 ≤ (civilFromDays (ts / 86400000000)).1 ∧ (civilFromDays (ts / 86400000000)).1 ≤ 65535) := by
  have days : ts / 1000000 / 60 / 60 / 24 = ts / 86400000000 := by omega
  rw [← days]
  cases converted : (usToDatetime ts : Except (DbmsError J) DateTime) with
  | ok made =>
      obtain ⟨same, date, time, _⟩ := usToDatetime_ok converted
      refine .inl ⟨made, rfl, same, ⟨dateIsValid_iff.mp date, time⟩, ?_⟩
      rw [usToDatetime] at converted
      dsimp only at converted
      split at converted
      · assumption
      · cases converted
  | error e =>
      refine .inr ⟨⟨e, rfl⟩, ?_⟩
      rw [usToDatetime] at converted
      dsimp only at converted
      split at converted
      · cases converted
      · assumption

/-- The same instant under another offset, and the way back. -/
theorem timezoneSanitizer_ok {dt made : DateTime} {offset : Int16} (valid : dt.CalendarValid)
    (source : BelowOneDay dt.timezoneOffsetMinutes) (target : BelowOneDay offset)
    (converted : (usToDatetime (dt.utcMicroseconds + offset.toInt * 60 * 1000000) : Except (DbmsError J) DateTime) = .ok made) :
    DateTime.CalendarValid { made with timezoneOffsetMinutes := offset } ∧
      DateTime.utcMicroseconds { made with timezoneOffsetMinutes := offset } = dt.utcMicroseconds ∧
      (timezoneSanitizer dt.timezoneOffsetMinutes (.dateTime { made with timezoneOffsetMinutes := offset }) :
        Except (DbmsError J) (Value J)) = .ok (.dateTime dt) := by
  obtain ⟨us, date, time, _⟩ := usToDatetime_ok converted
  have here : DateTime.CalendarValid { made with timezoneOffsetMinutes := offset } := ⟨dateIsValid_iff.mp date, time⟩
  have instant : DateTime.utcMicroseconds { made with timezoneOffsetMinutes := offset } = dt.utcMicroseconds := by
    rw [DateTime.utcMicroseconds, datetimeToUs_offset, us]
    dsimp only
    omega
  refine ⟨here, instant, ?_⟩
  have back : dt.utcMicroseconds + dt.timezoneOffsetMinutes.toInt * 60 * 1000000 = datetimeToUs dt := by
    rw [DateTime.utcMicroseconds]
    omega
  rw [timezoneSanitizer_eq here target source, instant, back, usToDatetime_of_valid valid]
  rfl

end Sanitizer
end WasmDbms
