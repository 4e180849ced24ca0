import WasmDbms.Db.Reader
import WasmDbms.Lib.Result

/-!
# The timezone sanitizer

A date and time is moved to another offset through the microseconds since the epoch.
Moving it again to the offset it has leaves it as it is.
-/
namespace WasmDbms

/-! ## Days and dates -/

/-- `days_from_civil`: the days from 1970-01-01 to a date. -/
def daysFromCivil (year month day : ℤ) : ℤ :=
  -- the year starts in March, so that the leap day is its last day
  let year := if month ≤ 2 then year - 1 else year
  let era := year / 400
  let yearOfEra := year - era * 400
  let monthFromMarch := (month + 9) % 12
  let dayOfYear := (153 * monthFromMarch + 2) / 5 + day - 1
  let dayOfEra := yearOfEra * 365 + yearOfEra / 4 - yearOfEra / 100 + dayOfYear
  era * 146097 + dayOfEra - 719468

def yearOfEra (dayOfEra : ℤ) : ℤ :=
  (dayOfEra - dayOfEra / 1460 + dayOfEra / 36524 - dayOfEra / 146096) / 365

def dayOfYear (dayOfEra : ℤ) : ℤ :=
  dayOfEra - (365 * yearOfEra dayOfEra + yearOfEra dayOfEra / 4 - yearOfEra dayOfEra / 100)

def monthFromMarch (dayOfYear : ℤ) : ℤ := (5 * dayOfYear + 2) / 153

def dayOfMonth (dayOfYear : ℤ) : ℤ := dayOfYear - (153 * monthFromMarch dayOfYear + 2) / 5 + 1

/-- The month of the calendar, which starts in January. -/
def calendarMonth (monthFromMarch : ℤ) : ℤ := if monthFromMarch < 10 then monthFromMarch + 3 else monthFromMarch - 9

/-- `civil_from_days`: the year, month and day of a number of days from 1970-01-01. -/
def civilFromDays (days : ℤ) : ℤ × UInt8 × UInt8 :=
  let days := days + 719468
  let era := days / 146097
  let dayOfEra := days - era * 146097
  let month := calendarMonth (monthFromMarch (dayOfYear dayOfEra))
  let year := yearOfEra dayOfEra + era * 400
  let year := if month ≤ 2 then year + 1 else year
  (year, UInt8.ofNat month.toNat, UInt8.ofNat (dayOfMonth (dayOfYear dayOfEra)).toNat)

/-- A day of an era by its century, its cycle of four years, the year and the day of it. -/
theorem dayOfEra_split {dayOfEra : ℤ} (low : 0 ≤ dayOfEra) (high : dayOfEra ≤ 146096) :
    ∃ c q r d, (0 ≤ c ∧ c ≤ 3) ∧ (0 ≤ q ∧ q ≤ 24) ∧ (0 ≤ r ∧ r ≤ 3) ∧ (0 ≤ d ∧ d ≤ 365) ∧
      dayOfEra = 36524 * c + 1461 * q + 365 * r + d ∧ (d = 365 → r = 3 ∧ (q = 24 → c = 3)) := by
  -- only the last century has a day more, and only the last year of a cycle
  obtain ⟨c, g, century, inCentury, split, long⟩ : ∃ c g : ℤ, (0 ≤ c ∧ c ≤ 3) ∧ (0 ≤ g ∧ g ≤ 36524) ∧
      dayOfEra = 36524 * c + g ∧ (g = 36524 → c = 3) :=
    ⟨min (dayOfEra / 36524) 3, dayOfEra - 36524 * min (dayOfEra / 36524) 3, by omega, by omega, by omega, by omega⟩
  obtain ⟨q, h, cycle, inCycle, rest⟩ : ∃ q h : ℤ, (0 ≤ q ∧ q ≤ 24) ∧ (0 ≤ h ∧ h ≤ 1460) ∧ g = 1461 * q + h :=
    ⟨g / 1461, g % 1461, by omega, by omega, by omega⟩
  obtain ⟨r, d, year, day, inYear⟩ : ∃ r d : ℤ, (0 ≤ r ∧ r ≤ 3) ∧ (0 ≤ d ∧ d ≤ 365 ∧ (d = 365 → r = 3)) ∧ h = 365 * r + d :=
    ⟨min (h / 365) 3, h - 365 * min (h / 365) 3, by omega, by omega, by omega⟩
  exact ⟨c, q, r, d, century, cycle, year, ⟨day.1, day.2.1⟩, by omega, fun last => ⟨day.2.2 last, by omega⟩⟩

section Ranges
variable {dayOfEra : ℤ}

theorem yearOfEra_eq {c q r d : ℤ} (century : 0 ≤ c ∧ c ≤ 3) (cycle : 0 ≤ q ∧ q ≤ 24) (year : 0 ≤ r ∧ r ≤ 3)
    (day : 0 ≤ d ∧ d ≤ 365) (split : dayOfEra = 36524 * c + 1461 * q + 365 * r + d)
    (leap : d = 365 → r = 3 ∧ (q = 24 → c = 3)) : yearOfEra dayOfEra = 100 * c + 4 * q + r := by
  have last : dayOfEra / 146096 = 0 ∨ dayOfEra / 146096 = 1 := by omega
  have centuries : dayOfEra / 36524 = c ∨ dayOfEra / 36524 = c + 1 := by omega
  have cycles : dayOfEra / 1460 = 25 * c + q ∨ dayOfEra / 1460 = 25 * c + q + 1 := by omega
  rw [yearOfEra]
  rcases last with last | last <;> rcases centuries with centuries | centuries <;>
    rcases cycles with cycles | cycles <;> omega

variable (low : 0 ≤ dayOfEra) (high : dayOfEra ≤ 146096)

include low high in
/-- The year and the day of the year are those of the split. -/
theorem yearOfEra_split : ∃ c q r d, (0 ≤ c ∧ c ≤ 3) ∧ (0 ≤ q ∧ q ≤ 24) ∧ (0 ≤ r ∧ r ≤ 3) ∧ (0 ≤ d ∧ d ≤ 365) ∧
    (d = 365 → r = 3 ∧ (q = 24 → c = 3)) ∧ yearOfEra dayOfEra = 100 * c + 4 * q + r ∧ dayOfYear dayOfEra = d := by
  obtain ⟨c, q, r, d, century, cycle, year, day, split, leap⟩ := dayOfEra_split low high
  have years := yearOfEra_eq century cycle year day split leap
  refine ⟨c, q, r, d, century, cycle, year, day, leap, years, ?_⟩
  have quarters : (100 * c + 4 * q + r) / 4 = 25 * c + q := by omega
  have hundreds : (100 * c + 4 * q + r) / 100 = c := by omega
  rw [dayOfYear, years, quarters, hundreds, split]
  omega

include low high in
/-- The year of an era is below 400, and no year is longer than 366 days. -/
theorem yearOfEra_range : (0 ≤ yearOfEra dayOfEra ∧ yearOfEra dayOfEra ≤ 399) ∧
    0 ≤ dayOfYear dayOfEra ∧ dayOfYear dayOfEra ≤ 365 := by
  obtain ⟨c, q, r, d, century, cycle, year, day, _, years, days⟩ := yearOfEra_split low high
  rw [years, days]
  omega

theorem monthFromMarch_range {day : ℤ} (first : 0 ≤ day) (last : day ≤ 365) :
    (0 ≤ monthFromMarch day ∧ monthFromMarch day ≤ 11) ∧ 1 ≤ dayOfMonth day ∧ dayOfMonth day ≤ 31 := by
  rw [dayOfMonth, monthFromMarch]
  omega

theorem calendarMonth_range {month : ℤ} (first : 0 ≤ month) (last : month ≤ 11) :
    1 ≤ calendarMonth month ∧ calendarMonth month ≤ 12 ∧ (calendarMonth month + 9) % 12 = month := by
  rw [calendarMonth]
  split <;> omega

end Ranges

/-- A byte that is made of a small number. -/
theorem toNat_ofNat_toNat {n : ℤ} (low : 0 ≤ n) (high : n ≤ 255) : ((UInt8.ofNat n.toNat).toNat : ℤ) = n := by
  rw [UInt8.toNat_ofNat', Nat.mod_eq_of_lt (by omega)]
  omega

/-- The date of a number of days has that number of days. -/
theorem daysFromCivil_civilFromDays (days : ℤ) :
    daysFromCivil (civilFromDays days).1 (civilFromDays days).2.1.toNat (civilFromDays days).2.2.toNat = days := by
  have split : (days + 719468) / 146097 * 146097 + (days + 719468) % 146097 = days + 719468 :=
    Int.ediv_mul_add_emod (days + 719468) 146097
  generalize era_eq : (days + 719468) / 146097 = era at split
  have dayOfEra_eq : days + 719468 - era * 146097 = (days + 719468) % 146097 := by omega
  generalize rest_eq : (days + 719468) % 146097 = dayOfEra at split dayOfEra_eq
  have low : 0 ≤ dayOfEra := by omega
  have high : dayOfEra ≤ 146096 := by omega
  obtain ⟨⟨year_low, year_high⟩, day_low, day_high⟩ := yearOfEra_range low high
  obtain ⟨⟨march_low, march_high⟩, month_low, month_high⟩ := monthFromMarch_range day_low day_high
  obtain ⟨calendar_low, calendar_high, march⟩ := calendarMonth_range march_low march_high
  have date : civilFromDays days =
      (if calendarMonth (monthFromMarch (dayOfYear dayOfEra)) ≤ 2 then yearOfEra dayOfEra + era * 400 + 1
        else yearOfEra dayOfEra + era * 400,
        UInt8.ofNat (calendarMonth (monthFromMarch (dayOfYear dayOfEra))).toNat,
        UInt8.ofNat (dayOfMonth (dayOfYear dayOfEra)).toNat) := by
    rw [civilFromDays]
    simp only [era_eq, dayOfEra_eq]
  have month := toNat_ofNat_toNat (by omega : 0 ≤ calendarMonth (monthFromMarch (dayOfYear dayOfEra))) (by omega)
  have day := toNat_ofNat_toNat (by omega : 0 ≤ dayOfMonth (dayOfYear dayOfEra)) (by omega)
  -- the year counted from March is the one the date came from
  have year : (if calendarMonth (monthFromMarch (dayOfYear dayOfEra)) ≤ 2 then
      (if calendarMonth (monthFromMarch (dayOfYear dayOfEra)) ≤ 2 then yearOfEra dayOfEra + era * 400 + 1
        else yearOfEra dayOfEra + era * 400) - 1
      else if calendarMonth (monthFromMarch (dayOfYear dayOfEra)) ≤ 2 then yearOfEra dayOfEra + era * 400 + 1
        else yearOfEra dayOfEra + era * 400) = yearOfEra dayOfEra + era * 400 := by
    split <;> omega
  have quotient : (yearOfEra dayOfEra + era * 400) / 400 = era := by omega
  have back : (153 * monthFromMarch (dayOfYear dayOfEra) + 2) / 5 + dayOfMonth (dayOfYear dayOfEra) - 1 =
      dayOfYear dayOfEra := by
    rw [dayOfMonth]
    omega
  have whole : dayOfYear dayOfEra =
      dayOfEra - (365 * yearOfEra dayOfEra + yearOfEra dayOfEra / 4 - yearOfEra dayOfEra / 100) := rfl
  rw [date, daysFromCivil]
  simp only [month, day, year, quotient, march, back]
  have remainder : yearOfEra dayOfEra + era * 400 - era * 400 = yearOfEra dayOfEra := by omega
  rw [remainder]
  omega

theorem civilFromDays_range (days : ℤ) : (1 ≤ (civilFromDays days).2.1.toNat ∧ (civilFromDays days).2.1.toNat ≤ 12) ∧
    1 ≤ (civilFromDays days).2.2.toNat := by
  obtain ⟨_, day_low, day_high⟩ := yearOfEra_range
    (by omega : 0 ≤ days + 719468 - (days + 719468) / 146097 * 146097) (by omega)
  obtain ⟨⟨march_low, march_high⟩, month_low, month_high⟩ := monthFromMarch_range day_low day_high
  obtain ⟨calendar_low, calendar_high, _⟩ := calendarMonth_range march_low march_high
  rw [civilFromDays]
  simp only [UInt8.toNat_ofNat']
  omega

/-! ## Instants -/

/-- `datetime_to_us`: the microseconds from the epoch to a date and time of its offset. -/
def datetimeToUs (dt : DateTime) : ℤ :=
  let days := daysFromCivil dt.year.toNat dt.month.toNat dt.day.toNat
  let seconds := days * 86400 + dt.hour.toNat * 3600 + dt.minute.toNat * 60 + dt.second.toNat
  seconds * 1000000 + dt.microsecond.toNat

section Sanitizer
variable {J : Type}

/-- `us_to_datetime`. -/
def usToDatetime (ts : ℤ) : Except (DbmsError J) DateTime :=
  let microsecond := ts % 1000000
  let ts := ts / 1000000
  let second := ts % 60
  let ts := ts / 60
  let minute := ts % 60
  let ts := ts / 60
  let hour := ts % 24
  let date := civilFromDays (ts / 24)
  if 0 ≤ date.1 ∧ date.1 ≤ 65535 then
    .ok ⟨UInt16.ofNat date.1.toNat, date.2.1, date.2.2, UInt8.ofNat hour.toNat, UInt8.ofNat minute.toNat,
      UInt8.ofNat second.toNat, UInt32.ofNat microsecond.toNat, 0⟩
  else
    let year := date.1
    .error (.sanitize s!"converted year {year} is outside the supported range 0..=65535")

/-- What `Debug` prints of a date and time. -/
def DateTime.debug (dt : DateTime) : String :=
  "DateTime \x7b year: " ++ toString dt.year ++ ", month: " ++ toString dt.month ++ ", day: " ++ toString dt.day ++
    ", hour: " ++ toString dt.hour ++ ", minute: " ++ toString dt.minute ++ ", second: " ++ toString dt.second ++
    ", microsecond: " ++ toString dt.microsecond ++ ", timezone_offset_minutes: " ++
    toString dt.timezoneOffsetMinutes ++ " \x7d"

/-- `MAX_OFFSET_MINUTES`. -/
def maxOffsetMinutes : ℤ := 1439

/-- `validate_offset`. -/
def validateOffset (offset : Int16) (role : String) : Except (DbmsError J) Unit :=
  if -maxOffsetMinutes ≤ offset.toInt ∧ offset.toInt ≤ maxOffsetMinutes then .ok ()
  else .error (.sanitize (role ++ " timezone offset " ++ toString offset ++
    " minutes is outside the supported range -1439..=1439"))

def dateIsValid (dt : DateTime) : Prop :=
  (1 ≤ dt.month.toNat ∧ dt.month.toNat ≤ 12) ∧ 1 ≤ dt.day.toNat ∧
    civilFromDays (daysFromCivil dt.year.toNat dt.month.toNat dt.day.toNat) = ((dt.year.toNat : ℤ), dt.month, dt.day)

def timeIsValid (dt : DateTime) : Prop :=
  dt.hour.toNat < 24 ∧ dt.minute.toNat < 60 ∧ dt.second.toNat < 60 ∧ dt.microsecond.toNat < 1000000

instance (dt : DateTime) : Decidable (dateIsValid dt) := inferInstanceAs (Decidable (_ ∧ _))

instance (dt : DateTime) : Decidable (timeIsValid dt) := inferInstanceAs (Decidable (_ ∧ _))

/-- `validate_calendar_fields`. -/
def validateCalendarFields (dt : DateTime) : Except (DbmsError J) Unit :=
  if dateIsValid dt ∧ timeIsValid dt then .ok ()
  else .error (.sanitize ("invalid date time fields: " ++ dt.debug))

/-- `TimezoneSanitizer`. -/
def timezoneSanitizer (offset : Int16) : Value J → Except (DbmsError J) (Value J)
  | .dateTime dt => do
      validateCalendarFields dt
      validateOffset offset "target"
      validateOffset dt.timezoneOffsetMinutes "source"
      let deltaUs := (offset.toInt - dt.timezoneOffsetMinutes.toInt) * 60 * 1000000
      let newDt ← usToDatetime (datetimeToUs dt + deltaUs)
      return .dateTime { newDt with timezoneOffsetMinutes := offset }
  | other => .ok other

/-- `UtcSanitizer`. -/
def utcSanitizer : Value J → Except (DbmsError J) (Value J) := timezoneSanitizer 0

/-- The parts of a number of microseconds, with which it is put together again. -/
theorem usToDatetime_ok {ts : ℤ} {dt : DateTime} (made : (usToDatetime ts : Except (DbmsError J) DateTime) = .ok dt) :
    datetimeToUs dt = ts ∧ dateIsValid dt ∧ timeIsValid dt ∧ dt.timezoneOffsetMinutes = 0 := by
  rw [usToDatetime] at made
  dsimp only at made
  split at made
  · rename_i year
    cases made
    have days := daysFromCivil_civilFromDays (ts / 1000000 / 60 / 60 / 24)
    obtain ⟨months, day⟩ := civilFromDays_range (ts / 1000000 / 60 / 60 / 24)
    have second := toNat_ofNat_toNat (by omega : 0 ≤ ts / 1000000 % 60) (by omega)
    have minute := toNat_ofNat_toNat (by omega : 0 ≤ ts / 1000000 / 60 % 60) (by omega)
    have hour := toNat_ofNat_toNat (by omega : 0 ≤ ts / 1000000 / 60 / 60 % 24) (by omega)
    have years : ((UInt16.ofNat (civilFromDays (ts / 1000000 / 60 / 60 / 24)).1.toNat).toNat : ℤ) =
        (civilFromDays (ts / 1000000 / 60 / 60 / 24)).1 := by
      rw [UInt16.toNat_ofNat', Nat.mod_eq_of_lt (by omega)]
      omega
    have microsecond : ((UInt32.ofNat (ts % 1000000).toNat).toNat : ℤ) = ts % 1000000 := by
      rw [UInt32.toNat_ofNat', Nat.mod_eq_of_lt (by omega)]
      omega
    refine ⟨?_, ⟨months, day, ?_⟩, ⟨by dsimp only; omega, by dsimp only; omega, by dsimp only; omega, by dsimp only; omega⟩, rfl⟩
    · rw [datetimeToUs]
      simp only [years, days, second, minute, hour, microsecond]
      omega
    · simp only [years, days]
  · cases made

theorem datetimeToUs_offset (dt : DateTime) (offset : Int16) :
    datetimeToUs { dt with timezoneOffsetMinutes := offset } = datetimeToUs dt := rfl

/-- A date and time is put together from its parts in one way. -/
theorem usToDatetime_datetimeToUs {dt : DateTime} {ts : ℤ}
    (made : (usToDatetime ts : Except (DbmsError J) DateTime) = .ok dt) (offset : Int16) :
    (usToDatetime (datetimeToUs { dt with timezoneOffsetMinutes := offset }) : Except (DbmsError J) DateTime) = .ok dt := by
  rw [datetimeToUs_offset, (usToDatetime_ok made).1, made]

/-- A date and time that was moved to an offset is not moved again. -/
theorem timezoneSanitizer_idempotent {offset : Int16} {v w : Value J} (sanitized : timezoneSanitizer offset v = .ok w) :
    timezoneSanitizer offset w = .ok w := by
  cases v with
  | dateTime dt =>
      rw [timezoneSanitizer] at sanitized
      obtain ⟨_, _, sanitized⟩ := Result.bind_eq_ok.mp sanitized
      obtain ⟨_, target, sanitized⟩ := Result.bind_eq_ok.mp sanitized
      obtain ⟨_, _, sanitized⟩ := Result.bind_eq_ok.mp sanitized
      obtain ⟨made, converted, same⟩ := Result.bind_eq_ok.mp sanitized
      cases same
      obtain ⟨_, date, time, _⟩ := usToDatetime_ok converted
      have here : (validateCalendarFields { made with timezoneOffsetMinutes := offset } : Except (DbmsError J) Unit) =
          .ok () := if_pos ⟨date, time⟩
      have source : (validateOffset offset "source" : Except (DbmsError J) Unit) = .ok () := by
        rw [validateOffset] at target ⊢
        split at target
        · rename_i inside
          rw [if_pos inside]
        · cases target
      have still : datetimeToUs { made with timezoneOffsetMinutes := offset } +
          (offset.toInt - offset.toInt) * 60 * 1000000 = datetimeToUs { made with timezoneOffsetMinutes := offset } := by
        omega
      rw [timezoneSanitizer, here]
      refine Result.bind_eq_ok.mpr ⟨(), rfl, Result.bind_eq_ok.mpr ⟨(), target, Result.bind_eq_ok.mpr ⟨(), source, ?_⟩⟩⟩
      dsimp only
      rw [still, usToDatetime_datetimeToUs converted offset]
      rfl
  | _ =>
      cases sanitized
      rfl

end Sanitizer
end WasmDbms
