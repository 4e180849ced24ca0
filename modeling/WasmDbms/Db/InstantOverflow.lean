import WasmDbms.Db.Instant

/-!
# The arithmetic of the timezone sanitizer in `i64`

The functions once more, with every operation that could leave `i64` checked.
-/
namespace WasmDbms
open Gregorian

/-- The result of an `i64` operation, unless it overflows. -/
def i64 (n : ℤ) : Option ℤ := if -9223372036854775808 ≤ n ∧ n ≤ 9223372036854775807 then some n else none

theorem i64_some {n : ℤ} (low : -9223372036854775808 ≤ n) (high : n ≤ 9223372036854775807) : i64 n = some n :=
  if_pos ⟨low, high⟩

theorem i64_eq_some {n r : ℤ} : i64 n = some r ↔ (-9223372036854775808 ≤ n ∧ n ≤ 9223372036854775807) ∧ n = r := by
  rw [i64]
  split <;> simp_all

/-- The year counted from March. -/
def yearFromMarchI64 (year month : ℤ) : Option ℤ := if month ≤ 2 then i64 (year - 1) else some year

/-- The year counted from January. -/
def yearFromJanuaryI64 (year month : ℤ) : Option ℤ := if month ≤ 2 then i64 (year + 1) else some year

def daysFromCivilI64 (year month day : ℤ) : Option ℤ := do
  let year ← yearFromMarchI64 year month
  let era := year / 400
  let firstYear ← i64 (era * 400)
  let yearOfEra ← i64 (year - firstYear)
  let shifted ← i64 (month + 9)
  let monthDays ← i64 (153 * (shifted % 12))
  let rounded ← i64 (monthDays + 2)
  let dayCount ← i64 (rounded / 5 + day)
  let dayOfYear ← i64 (dayCount - 1)
  let yearDays ← i64 (yearOfEra * 365)
  let julianDays ← i64 (yearDays + yearOfEra / 4)
  let gregorianDays ← i64 (julianDays - yearOfEra / 100)
  let dayOfEra ← i64 (gregorianDays + dayOfYear)
  let eraDays ← i64 (era * 146097)
  let days ← i64 (eraDays + dayOfEra)
  i64 (days - 719468)

def civilFromDaysI64 (days : ℤ) : Option (ℤ × UInt8 × UInt8) := do
  let days ← i64 (days + 719468)
  let era := days / 146097
  let eraDays ← i64 (era * 146097)
  let dayOfEra ← i64 (days - eraDays)
  let month := calendarMonth (monthFromMarch (dayOfYear dayOfEra))
  let firstYear ← i64 (era * 400)
  let year ← i64 (yearOfEra dayOfEra + firstYear)
  let year ← yearFromJanuaryI64 year month
  some (year, UInt8.ofNat month.toNat, UInt8.ofNat (dayOfMonth (dayOfYear dayOfEra)).toNat)

theorem daysFromCivilI64_eq_some {year month day n : ℤ} (made : daysFromCivilI64 year month day = some n) :
    n = daysFromCivil year month day ∧ -9223372036854775808 ≤ n ∧ n + 719468 ≤ 9223372036854775807 := by
  unfold daysFromCivilI64 at made
  simp only [Option.bind_eq_bind, Option.bind_eq_some_iff, i64_eq_some] at made
  obtain ⟨march, year_eq, _, ⟨_, rfl⟩, _, ⟨_, rfl⟩, _, ⟨_, rfl⟩, _, ⟨_, rfl⟩, _, ⟨_, rfl⟩, _, ⟨_, rfl⟩, _, ⟨_, rfl⟩,
    _, ⟨_, rfl⟩, _, ⟨_, rfl⟩, _, ⟨_, rfl⟩, _, ⟨_, rfl⟩, _, ⟨_, rfl⟩, _, ⟨high, rfl⟩, low, rfl⟩ := made
  have same : march = if month ≤ 2 then year - 1 else year := by
    unfold yearFromMarchI64 at year_eq
    split at year_eq
    · rename_i winter
      rw [if_pos winter]
      exact (i64_eq_some.mp year_eq).2.symm
    · rename_i later
      rw [if_neg later]
      exact (Option.some.inj year_eq).symm
  rw [daysFromCivil, ← same]
  exact ⟨rfl, low.1, by omega⟩

section Small
variable {y months day : ℤ} (inEra : 0 ≤ y ∧ y ≤ 399) (inYear : 0 ≤ months ∧ months ≤ 11) (first : 0 ≤ day)
  (last : day ≤ 255)

theorem i64_small {n : ℤ} (low : -1000000 ≤ n) (high : n ≤ 1000000) : i64 n = some n := i64_some (by omega) (by omega)

include inYear first last in
theorem daysOfYear_small : i64 (153 * months) = some (153 * months) ∧
    i64 (153 * months + 2) = some (153 * months + 2) ∧
    i64 ((153 * months + 2) / 5 + day) = some ((153 * months + 2) / 5 + day) ∧
    i64 ((153 * months + 2) / 5 + day - 1) = some ((153 * months + 2) / 5 + day - 1) :=
  ⟨i64_small (by omega) (by omega), i64_small (by omega) (by omega), i64_small (by omega) (by omega),
    i64_small (by omega) (by omega)⟩

include inEra in
theorem yearDays_small : i64 (y * 365) = some (y * 365) ∧ i64 (y * 365 + y / 4) = some (y * 365 + y / 4) ∧
    i64 (y * 365 + y / 4 - y / 100) = some (y * 365 + y / 4 - y / 100) :=
  ⟨i64_small (by omega) (by omega), i64_small (by omega) (by omega), i64_small (by omega) (by omega)⟩

include inEra inYear first last in
theorem dayOfEra_small : i64 (y * 365 + y / 4 - y / 100 + ((153 * months + 2) / 5 + day - 1)) =
    some (y * 365 + y / 4 - y / 100 + ((153 * months + 2) / 5 + day - 1)) :=
  i64_small (by omega) (by omega)

end Small

/-- A date of a valid month has its number of days unless that leaves `i64`. -/
theorem daysFromCivilI64_eq {year month day : ℤ} (january : 1 ≤ month) (december : month ≤ 12) (first : 0 ≤ day)
    (last : day ≤ 255) (early : -9223372036854775808 ≤ daysFromCivil year month day)
    (late : daysFromCivil year month day + 719468 ≤ 9223372036854775807) :
    daysFromCivilI64 year month day = some (daysFromCivil year month day) := by
  have march : yearFromMarchI64 year month = some (if month ≤ 2 then year - 1 else year) := by
    rw [daysFromCivil] at early late
    unfold yearFromMarchI64
    split
    · rename_i winter
      rw [if_pos winter] at early late
      exact i64_some (by omega) (by omega)
    · rfl
  rw [daysFromCivil] at early late ⊢
  generalize (if month ≤ 2 then year - 1 else year) = start at march early late ⊢
  have inEra : 0 ≤ start - start / 400 * 400 ∧ start - start / 400 * 400 ≤ 399 := by omega
  have inYear : 0 ≤ (month + 9) % 12 ∧ (month + 9) % 12 ≤ 11 := by omega
  obtain ⟨monthDays, rounded, dayCount, dayOfYear⟩ := daysOfYear_small inYear first last
  obtain ⟨yearDays, julianDays, gregorianDays⟩ := yearDays_small inEra
  have dayOfEra := dayOfEra_small inEra inYear first last
  have firstYear : i64 (start / 400 * 400) = some (start / 400 * 400) := i64_some (by omega) (by omega)
  have yearOfEra := i64_small (n := start - start / 400 * 400) (by omega) (by omega)
  have eraDays : i64 (start / 400 * 146097) = some (start / 400 * 146097) := i64_some (by omega) (by omega)
  have bind {n : ℤ} {f : ℤ → Option ℤ} {m : ℤ} {o : Option ℤ} (run : o = some n) (rest : f n = some m) : o.bind f = some m :=
    Option.bind_eq_some_iff.mpr ⟨n, run, rest⟩
  exact bind march (bind firstYear (bind yearOfEra (bind (i64_small (by omega) (by omega)) (bind monthDays (bind rounded
    (bind dayCount (bind dayOfYear (bind yearDays (bind julianDays (bind gregorianDays (bind dayOfEra (bind eraDays
    (bind (i64_some (by omega) (by omega)) (i64_some (by omega) (by omega)))))))))))))))

theorem civilFromDaysI64_eq {days : ℤ} (early : -9223372036854775808 ≤ days) (late : days + 719468 ≤ 9223372036854775807) :
    civilFromDaysI64 days = some (civilFromDays days) := by
  unfold civilFromDaysI64 civilFromDays
  have shifted : i64 (days + 719468) = some (days + 719468) := i64_some (by omega) late
  have inEra : 0 ≤ days + 719468 - (days + 719468) / 146097 * 146097 ∧
      days + 719468 - (days + 719468) / 146097 * 146097 ≤ 146096 := by omega
  simp only [Option.bind_eq_bind, Option.bind_some, shifted]
  generalize (days + 719468) / 146097 = era at *
  have eraDays : i64 (era * 146097) = some (era * 146097) := i64_some (by omega) (by omega)
  have rest : i64 (days + 719468 - era * 146097) = some (days + 719468 - era * 146097) := i64_some (by omega) (by omega)
  have firstYear : i64 (era * 400) = some (era * 400) := i64_some (by omega) (by omega)
  simp only [Option.bind_some, eraDays, rest, firstYear]
  generalize split : days + 719468 - era * 146097 = dayOfEra at *
  obtain ⟨⟨year_low, year_high⟩, _⟩ := yearOfEra_range inEra.1 inEra.2
  have years : i64 (yearOfEra dayOfEra + era * 400) = some (yearOfEra dayOfEra + era * 400) :=
    i64_some (by omega) (by omega)
  rw [years, Option.bind_some, yearFromJanuaryI64]
  split
  · rw [i64_some (by omega) (by omega)]
    rfl
  · rfl

theorem civilFromDaysI64_none {days : ℤ} (late : 9223372036854775807 < days + 719468) : civilFromDaysI64 days = none := by
  have overflow : i64 (days + 719468) = none := if_neg (by omega)
  unfold civilFromDaysI64
  rw [overflow]
  rfl

def datetimeToUsI64 (dt : DateTime) : Option ℤ := do
  let days ← daysFromCivilI64 dt.year.toNat dt.month.toNat dt.day.toNat
  let daySeconds ← i64 (days * 86400)
  let withHours ← i64 (daySeconds + dt.hour.toNat * 3600)
  let withMinutes ← i64 (withHours + dt.minute.toNat * 60)
  let seconds ← i64 (withMinutes + dt.second.toNat)
  let us ← i64 (seconds * 1000000)
  i64 (us + dt.microsecond.toNat)

section Sanitizer
variable {J : Type}

/-- Dividing by a positive constant stays in `i64`. -/
def usToDatetimeI64 (ts : ℤ) : Option (Except (DbmsError J) DateTime) := do
  let _ ← civilFromDaysI64 (ts / 1000000 / 60 / 60 / 24)
  return usToDatetime ts

/-- The test of the date in `validate_calendar_fields`, which computes only for a month from 1 to 12 and a positive day. -/
def dateIsValidI64 (dt : DateTime) : Option Bool :=
  if (1 ≤ dt.month.toNat ∧ dt.month.toNat ≤ 12) ∧ 1 ≤ dt.day.toNat then do
    let days ← daysFromCivilI64 dt.year.toNat dt.month.toNat dt.day.toNat
    let date ← civilFromDaysI64 days
    return decide (date = ((dt.year.toNat : ℤ), dt.month, dt.day))
  else some false

/-- The conversion behind the checks of the fields and the offsets. -/
def convertI64 (offset : Int16) (dt : DateTime) : Option (Except (DbmsError J) (Value J)) := do
  let deltaMinutes ← i64 (offset.toInt - dt.timezoneOffsetMinutes.toInt)
  let deltaSeconds ← i64 (deltaMinutes * 60)
  let deltaUs ← i64 (deltaSeconds * 1000000)
  let us ← datetimeToUsI64 dt
  let ts ← i64 (us + deltaUs)
  let newDt ← usToDatetimeI64 ts
  return newDt.map fun newDt => .dateTime { newDt with timezoneOffsetMinutes := offset }

/-- `TimezoneSanitizer`, without a result where an operation overflows. -/
def timezoneSanitizerI64 (offset : Int16) : Value J → Option (Except (DbmsError J) (Value J))
  | .dateTime dt => do
      let date ← dateIsValidI64 dt
      if date = true ∧ timeIsValid dt then
        match (do validateOffset offset "target"; validateOffset dt.timezoneOffsetMinutes "source") with
        | .error e => return .error e
        | .ok () => convertI64 offset dt
      else return .error (.sanitize ("invalid date time fields: " ++ dt.debug))
  | other => some (.ok other)

/-- The days of a date with a `u16` year. -/
theorem daysFromCivil_range {year month day : ℤ} (ad : 0 ≤ year) (wide : year ≤ 65535) (first : 0 ≤ day) (last : day ≤ 255) :
    -1000000 ≤ daysFromCivil year month day ∧ daysFromCivil year month day ≤ 24000000 := by
  rw [daysFromCivil_eq, dayNumber, marchStart, marchYear, marchMonthStart, marchMonth]
  split <;> omega

theorem dateIsValidI64_eq (dt : DateTime) : dateIsValidI64 dt = some (decide (dateIsValid dt)) := by
  have year := dt.year.toNat_lt
  have day := dt.day.toNat_lt
  unfold dateIsValidI64
  split
  · rename_i fields
    obtain ⟨⟨january, december⟩, first⟩ := fields
    obtain ⟨early, late⟩ := @daysFromCivil_range dt.year.toNat dt.month.toNat dt.day.toNat
      (by omega) (by omega) (by omega) (by omega)
    have days := @daysFromCivilI64_eq dt.year.toNat dt.month.toNat dt.day.toNat
      (by omega) (by omega) (by omega) (by omega) (by omega) (by omega)
    have date := @civilFromDaysI64_eq (daysFromCivil dt.year.toNat dt.month.toNat dt.day.toNat) (by omega) (by omega)
    simp only [days, date, Option.bind_eq_bind, Option.bind_some, Option.pure_def]
    congr 1
    refine decide_eq_decide.mpr ⟨fun trip => ⟨⟨january, december⟩, first, trip⟩, fun valid => valid.2.2⟩
  · rename_i outside
    congr 1
    exact (decide_eq_false fun valid => outside ⟨valid.1, valid.2.1⟩).symm

theorem datetimeToUs_range {dt : DateTime} (valid : dt.CalendarValid) :
    datetimeToUsI64 dt = some (datetimeToUs dt) ∧
      -100000000000000000 ≤ datetimeToUs dt ∧ datetimeToUs dt ≤ 2100000000000000000 := by
  obtain ⟨date, hour, minute, second, microsecond⟩ := valid
  have year := dt.year.toNat_lt
  have day := dt.day.toNat_lt
  obtain ⟨january, december⟩ := date.month_range
  obtain ⟨early, late⟩ := @daysFromCivil_range dt.year.toNat dt.month.toNat dt.day.toNat
    (by omega) (by omega) (by omega) (by omega)
  have days := @daysFromCivilI64_eq dt.year.toNat _ dt.day.toNat january december
    (by omega) (by omega) (by omega) (by omega)
  unfold datetimeToUsI64 datetimeToUs
  rw [days]
  generalize daysFromCivil dt.year.toNat dt.month.toNat dt.day.toNat = n at *
  simp only [Option.bind_eq_bind, Option.bind_some]
  rw [i64_some (n := n * 86400) (by omega) (by omega), Option.bind_some,
    i64_some (n := n * 86400 + dt.hour.toNat * 3600) (by omega) (by omega), Option.bind_some,
    i64_some (n := n * 86400 + dt.hour.toNat * 3600 + dt.minute.toNat * 60) (by omega) (by omega), Option.bind_some,
    i64_some (n := n * 86400 + dt.hour.toNat * 3600 + dt.minute.toNat * 60 + dt.second.toNat) (by omega) (by omega),
    Option.bind_some, i64_some (by omega) (by omega), Option.bind_some, i64_some (by omega) (by omega)]
  exact ⟨rfl, by omega, by omega⟩

theorem usToDatetimeI64_eq {ts : ℤ} (early : -9223372036854775808 ≤ ts) (late : ts ≤ 9223372036854775807) :
    (usToDatetimeI64 ts : Option (Except (DbmsError J) DateTime)) = some (usToDatetime ts) := by
  unfold usToDatetimeI64
  rw [civilFromDaysI64_eq (by omega) (by omega)]
  rfl

theorem validateOffset_bound {offset : Int16} {role : String}
    (ok : (validateOffset offset role : Except (DbmsError J) Unit) = .ok ()) :
    -1439 ≤ offset.toInt ∧ offset.toInt ≤ 1439 := by
  unfold validateOffset maxOffsetMinutes at ok
  split at ok
  · assumption
  · cases ok

theorem convertI64_eq {dt : DateTime} {offset : Int16} (valid : dt.CalendarValid)
    (target : -1439 ≤ offset.toInt ∧ offset.toInt ≤ 1439)
    (source : -1439 ≤ dt.timezoneOffsetMinutes.toInt ∧ dt.timezoneOffsetMinutes.toInt ≤ 1439) :
    (convertI64 offset dt : Option (Except (DbmsError J) (Value J))) =
      some ((usToDatetime (datetimeToUs dt + (offset.toInt - dt.timezoneOffsetMinutes.toInt) * 60 * 1000000)).map
        fun made => .dateTime { made with timezoneOffsetMinutes := offset }) := by
  obtain ⟨us, early, late⟩ := datetimeToUs_range valid
  have below : -2878 ≤ offset.toInt - dt.timezoneOffsetMinutes.toInt ∧
      offset.toInt - dt.timezoneOffsetMinutes.toInt ≤ 2878 := by omega
  unfold convertI64
  generalize offset.toInt - dt.timezoneOffsetMinutes.toInt = delta at *
  have sum : i64 (datetimeToUs dt + delta * 60 * 1000000) = some (datetimeToUs dt + delta * 60 * 1000000) :=
    i64_some (by omega) (by omega)
  have converted : (usToDatetimeI64 (datetimeToUs dt + delta * 60 * 1000000) : Option (Except (DbmsError J) DateTime)) =
      some (usToDatetime (datetimeToUs dt + delta * 60 * 1000000)) := usToDatetimeI64_eq (by omega) (by omega)
  rw [i64_some (n := delta) (by omega) (by omega)]
  simp only [Option.bind_eq_bind, Option.bind_some, us]
  rw [i64_some (n := delta * 60) (by omega) (by omega), Option.bind_some,
    i64_some (n := delta * 60 * 1000000) (by omega) (by omega), Option.bind_some, sum, Option.bind_some, converted]
  rfl

/-- No operation of the sanitizer overflows. -/
theorem timezoneSanitizerI64_eq (offset : Int16) (v : Value J) :
    timezoneSanitizerI64 offset v = some (timezoneSanitizer offset v) := by
  cases v with
  | dateTime dt =>
      rw [timezoneSanitizerI64, timezoneSanitizer, dateIsValidI64_eq]
      simp only [Option.bind_eq_bind, Option.bind_some, decide_eq_true_eq]
      split
      · rename_i valid
        have calendar : dt.CalendarValid := ⟨dateIsValid_iff.mp valid.1, valid.2⟩
        rw [validateCalendarFields_ok calendar]
        cases target : (validateOffset offset "target" : Except (DbmsError J) Unit) with
        | error e => rfl
        | ok =>
            cases source : (validateOffset dt.timezoneOffsetMinutes "source" : Except (DbmsError J) Unit) with
            | error e => rfl
            | ok =>
                refine (convertI64_eq calendar (validateOffset_bound target) (validateOffset_bound source)).trans ?_
                rfl
      · rename_i invalid
        unfold validateCalendarFields
        rw [if_neg invalid]
        rfl
  | _ => rfl

/-- The greatest day count has no date: the shift to the first era leaves `i64`. -/
theorem last_day_overflows : ∃ days : ℤ, (-9223372036854775808 ≤ days ∧ days ≤ 9223372036854775807) ∧
    civilFromDaysI64 days = none :=
  ⟨9223372036854775807, by decide, rfl⟩

/-- A valid date and time of an offset below one day is moved to the same instant under the other
offset, or its year there is no `u16`. Days and dates of the calendar correspond to each other as
far as `i64` goes, and the sanitizer overflows on no value. -/
theorem timezone_sanitizer_keeps_instants (dt : DateTime) (offset : Int16) (valid : dt.CalendarValid)
    (source : BelowOneDay dt.timezoneOffsetMinutes) (target : BelowOneDay offset) :
    ((∃ made, (timezoneSanitizer offset (.dateTime dt) : Except (DbmsError J) (Value J)) = .ok (.dateTime made) ∧
        made.CalendarValid ∧ made.timezoneOffsetMinutes = offset ∧ made.utcMicroseconds = dt.utcMicroseconds ∧
        (timezoneSanitizer offset (.dateTime made) : Except (DbmsError J) (Value J)) = .ok (.dateTime made) ∧
        (timezoneSanitizer dt.timezoneOffsetMinutes (.dateTime made) : Except (DbmsError J) (Value J)) =
          .ok (.dateTime dt)) ∨
      ∃ e, (timezoneSanitizer offset (.dateTime dt) : Except (DbmsError J) (Value J)) = .error e) ∧
    ((∃ e, (timezoneSanitizer offset (.dateTime dt) : Except (DbmsError J) (Value J)) = .error e) ↔
      ¬ (0 ≤ localYear dt.utcMicroseconds offset ∧ localYear dt.utcMicroseconds offset ≤ 65535)) ∧
    (∀ (anyOffset : Int16) (v : Value J), timezoneSanitizerI64 anyOffset v = some (timezoneSanitizer anyOffset v)) ∧
    (∀ days : ℤ, -9223372036854775808 ≤ days → days ≤ 9223372036854775807 - 719468 →
      ∃ (year : ℤ) (month day : UInt8), civilFromDaysI64 days = some (year, month, day) ∧
        ValidDate year month.toNat day.toNat ∧ daysFromCivilI64 year month.toNat day.toNat = some days) ∧
    (∀ (year : ℤ) (month day : UInt8), ValidDate year month.toNat day.toNat →
      -9223372036854775808 ≤ daysFromCivil year month.toNat day.toNat →
      daysFromCivil year month.toNat day.toNat ≤ 9223372036854775807 - 719468 →
      ∃ days, daysFromCivilI64 year month.toNat day.toNat = some days ∧ civilFromDaysI64 days = some (year, month, day)) := by
  have converts := timezoneSanitizer_eq (J := J) valid source target
  refine ⟨?_, ?_, timezoneSanitizerI64_eq, ?_, ?_⟩
  · rw [converts]
    cases converted : (usToDatetime (dt.utcMicroseconds + offset.toInt * 60 * 1000000) : Except (DbmsError J) DateTime) with
    | error e => exact .inr ⟨e, rfl⟩
    | ok made =>
        obtain ⟨here, instant, back⟩ := timezoneSanitizer_ok valid source target converted
        refine .inl ⟨_, rfl, here, rfl, instant, ?_, back⟩
        refine timezoneSanitizer_idempotent (v := .dateTime dt) ?_
        rw [converts, converted]
        rfl
  · rw [converts]
    rcases usToDatetime_cases (J := J) (dt.utcMicroseconds + offset.toInt * 60 * 1000000) with
      ⟨made, converted, _, _, year⟩ | ⟨⟨e, converted⟩, year⟩
    · rw [converted]
      exact iff_of_false (fun ⟨_, failed⟩ => by cases failed) (fun outside => outside year)
    · rw [converted]
      exact iff_of_true ⟨e, rfl⟩ year
  · intro days early late
    have date := civilFromDays_valid days
    obtain ⟨january, december⟩ := date.month_range
    have day := (civilFromDays days).2.2.toNat_lt
    refine ⟨(civilFromDays days).1, (civilFromDays days).2.1, (civilFromDays days).2.2,
      civilFromDaysI64_eq early (by omega), date, ?_⟩
    have back := daysFromCivil_civilFromDays days
    rw [daysFromCivilI64_eq january december (by omega) (by omega) (by omega) (by omega), back]
  · intro year month day date early late
    obtain ⟨january, december⟩ := date.month_range
    have byte := day.toNat_lt
    refine ⟨_, daysFromCivilI64_eq january december (by omega) (by omega) early (by omega), ?_⟩
    rw [civilFromDaysI64_eq early (by omega), civilFromDays_daysFromCivil date]

/-- The last second of a leap day, and the same instant an hour to the east. -/
theorem leap_day_moves_east :
    (timezoneSanitizer 60 (.dateTime ⟨2024, 2, 29, 23, 59, 59, 999999, 0⟩) : Except (DbmsError Unit) (Value Unit)) =
      .ok (.dateTime ⟨2024, 3, 1, 0, 59, 59, 999999, 60⟩) ∧
    (timezoneSanitizer 0 (.dateTime ⟨2024, 3, 1, 0, 59, 59, 999999, 60⟩) : Except (DbmsError Unit) (Value Unit)) =
      .ok (.dateTime ⟨2024, 2, 29, 23, 59, 59, 999999, 0⟩) := by
  have moved : (timezoneSanitizer 60 (.dateTime ⟨2024, 2, 29, 23, 59, 59, 999999, 0⟩) :
      Except (DbmsError Unit) (Value Unit)) = .ok (.dateTime ⟨2024, 3, 1, 0, 59, 59, 999999, 60⟩) := by rfl
  have kept := timezone_sanitizer_keeps_instants (J := Unit) ⟨2024, 2, 29, 23, 59, 59, 999999, 0⟩ 60 (by decide) (by decide)
    (by decide)
  rcases kept.1 with ⟨made, converted, _, _, _, _, back⟩ | ⟨e, failed⟩
  · rw [moved] at converted
    cases converted
    exact ⟨moved, back⟩
  · rw [moved] at failed
    cases failed

end Sanitizer

end WasmDbms
