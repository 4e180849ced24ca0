import WasmDbms.Db.Instant
import WasmDbms.Lib.Numerals

/-!
# Dates and times in texts

The parsers of the planner for dates and date-times, and what `Display` prints of them.
A text is accepted exactly when it is a date or a date-time of the calendar in the
documented form.
-/
namespace WasmDbms.Sql
open Gregorian Numerals

/-! ## The parsers -/

/-- `parse_digits` for a type with this greatest number. Bytes are ASCII digits exactly when
the characters are. -/
def parseDigits (greatest minLen maxLen : ℕ) (text : List Char) : Option ℕ :=
  if (minLen ≤ text.length ∧ text.length ≤ maxLen) ∧ text.all Char.isDigit then
    if value text ≤ greatest then some (value text) else none
  else none

/-- `days_in_month`. -/
def daysInMonth (year month : ℕ) : Option ℕ :=
  match month with
  | 1 | 3 | 5 | 7 | 8 | 10 | 12 => some 31
  | 4 | 6 | 9 | 11 => some 30
  | 2 => if year % 4 = 0 ∧ (year % 100 ≠ 0 ∨ year % 400 = 0) then some 29 else some 28
  | _ => none

/-- `parse_date`. -/
def parseDate (text : List Char) : Option Date :=
  match text.splitOn '-' with
  | [year, month, day] => do
      let year ← parseDigits 65535 4 5 year
      let month ← parseDigits 255 2 2 month
      let day ← parseDigits 255 2 2 day
      if (daysInMonth year month).any fun maxDay => 1 ≤ day && day ≤ maxDay then
        some ⟨UInt16.ofNat year, UInt8.ofNat month, UInt8.ofNat day⟩
      else none
  | _ => none

def isSign (c : Char) : Bool := c == '+' || c == '-'

def isDateEnd (c : Char) : Bool := c == 'T' || c == ' '

def signOf (c : Char) : Option ℤ := if c = '+' then some 1 else if c = '-' then some (-1) else none

/-- `parse_offset`. -/
def parseOffset : List Char → Option Int16
  | [] => none
  | sign :: rest => do
      let sign ← signOf sign
      let (hours, minutes) ← cutOnce (· == ':') rest
      let hours ← (parseDigits 32767 2 2 hours).filter (· < 24)
      let minutes ← (parseDigits 32767 2 2 minutes).filter (· < 60)
      return Int16.ofInt (sign * (hours * 60 + minutes))

/-- `strip_suffix`. -/
def stripSuffix (c : Char) (text : List Char) : Option (List Char) :=
  if text.getLast? = some c then some text.dropLast else none

/-- The clock of a time and its offset. -/
def parseZone (time : List Char) : Option (List Char × Int16) :=
  match stripSuffix 'Z' time, cutAtLast isSign time with
  | some clock, _ => some (clock, 0)
  | none, some (clock, offset) => (parseOffset offset).map fun offset => (clock, offset)
  | none, none => some (time, 0)

def splitFraction (clock : List Char) : List Char × Option (List Char) :=
  match cutOnce (· == '.') clock with
  | some (hms, fraction) => (hms, some fraction)
  | none => (clock, none)

def parseHms (hms : List Char) : Option (ℕ × ℕ × ℕ) :=
  match hms.splitOn ':' with
  | [hour, minute, second] => do
      let hour ← (parseDigits 255 2 2 hour).filter (· < 24)
      let minute ← (parseDigits 255 2 2 minute).filter (· < 60)
      let second ← (parseDigits 255 2 2 second).filter (· < 60)
      return (hour, minute, second)
  | _ => none

/-- Right-padded to six digits. -/
def parseFraction : Option (List Char) → Option ℕ
  | some fraction => (parseDigits 4294967295 1 6 fraction).map fun digits => digits * 10 ^ (6 - fraction.length)
  | none => some 0

/-- `parse_datetime`. -/
def parseDatetime (text : List Char) : Option DateTime := do
  let (date, time) ← cutOnce isDateEnd text
  let date ← parseDate date
  let (clock, offset) ← parseZone time
  let (hour, minute, second) ← parseHms (splitFraction clock).1
  let microsecond ← parseFraction (splitFraction clock).2
  return ⟨date.year, date.month, date.day, UInt8.ofNat hour, UInt8.ofNat minute, UInt8.ofNat second,
    UInt32.ofNat microsecond, offset⟩

/-! ## What `Display` prints -/

end WasmDbms.Sql

namespace WasmDbms
open Numerals

/-- `Display` of a date. -/
def Date.display (d : Date) : List Char :=
  padded 4 d.year.toNat ++ '-' :: (padded 2 d.month.toNat ++ '-' :: padded 2 d.day.toNat)

/-- `Display` of a date-time. -/
def DateTime.display (dt : DateTime) : List Char :=
  let offsetSign := if dt.timezoneOffsetMinutes.toInt < 0 then '-' else '+'
  let offsetMinutes := dt.timezoneOffsetMinutes.toInt.natAbs
  padded 4 dt.year.toNat ++ '-' :: (padded 2 dt.month.toNat ++ '-' :: (padded 2 dt.day.toNat ++ 'T' ::
    (padded 2 dt.hour.toNat ++ ':' :: (padded 2 dt.minute.toNat ++ ':' :: (padded 2 dt.second.toNat ++ '.' ::
      (padded 6 dt.microsecond.toNat ++ offsetSign :: (padded 2 (offsetMinutes / 60) ++ ':' ::
        padded 2 (offsetMinutes % 60))))))))

end WasmDbms

namespace WasmDbms.Sql
open Gregorian Numerals

/-! ## The form of the texts -/

/-- `YYYY-MM-DD` -/
def DateText (text : List Char) (year month day : ℕ) : Prop :=
  ∃ y m d, text = y ++ '-' :: (m ++ '-' :: d) ∧ NumeralOf 4 5 y year ∧ NumeralOf 2 2 m month ∧ NumeralOf 2 2 d day

/-- `HH:MM:SS` -/
def HmsText (text : List Char) (hour minute second : ℕ) : Prop :=
  ∃ h m s, text = h ++ ':' :: (m ++ ':' :: s) ∧ NumeralOf 2 2 h hour ∧ NumeralOf 2 2 m minute ∧ NumeralOf 2 2 s second

/-- `[.ffffff]` -/
def FractionText (text : List Char) (microsecond : ℕ) : Prop :=
  text = [] ∧ microsecond = 0 ∨
    ∃ f n, text = '.' :: f ∧ NumeralOf 1 6 f n ∧ microsecond = n * 10 ^ (6 - f.length)

/-- `+HH:MM` or `-HH:MM`, below one day. -/
def OffsetText (text : List Char) (minutes : ℤ) : Prop :=
  ∃ h m, ∃ hours < 24, ∃ mins < 60, NumeralOf 2 2 h hours ∧ NumeralOf 2 2 m mins ∧
    (text = '+' :: (h ++ ':' :: m) ∧ minutes = ((hours * 60 + mins : ℕ) : ℤ) ∨
      text = '-' :: (h ++ ':' :: m) ∧ minutes = -((hours * 60 + mins : ℕ) : ℤ))

/-- `[Z|+HH:MM|-HH:MM]` -/
def ZoneText (text : List Char) (minutes : ℤ) : Prop :=
  text = [] ∧ minutes = 0 ∨ text = ['Z'] ∧ minutes = 0 ∨ OffsetText text minutes

/-- A date-time as it is documented, and its fields. -/
def DateTimeText (text : List Char) (dt : DateTime) : Prop :=
  ∃ date sep hms fraction zone, text = date ++ sep :: (hms ++ fraction ++ zone) ∧ isDateEnd sep = true ∧
    DateText date dt.year.toNat dt.month.toNat dt.day.toNat ∧ HmsText hms dt.hour.toNat dt.minute.toNat dt.second.toNat ∧
    FractionText fraction dt.microsecond.toNat ∧ ZoneText zone dt.timezoneOffsetMinutes.toInt

/-! ## Dates -/

section Dates

theorem parseDigits_some {greatest minLen maxLen n : ℕ} {text : List Char} :
    parseDigits greatest minLen maxLen text = some n ↔ NumeralOf minLen maxLen text n ∧ n ≤ greatest := by
  rw [parseDigits]
  constructor
  · intro parsed
    split at parsed
    · rename_i form
      split at parsed
      · rename_i small
        cases parsed
        exact ⟨⟨form.1.1, form.1.2, List.all_eq_true.mp form.2, rfl⟩, small⟩
      · cases parsed
    · cases parsed
  · rintro ⟨numeral, small⟩
    rw [if_pos ⟨⟨numeral.least_le, numeral.le_most⟩, List.all_eq_true.mpr numeral.digits⟩, numeral.value_eq, if_pos small]

/-- The days of a month are those of the calendar. -/
theorem daysInMonth_some {year month : ℕ} (first : 1 ≤ month) (last : month ≤ 12) :
    ∃ days, daysInMonth year month = some days ∧ (days : ℤ) = Gregorian.daysInMonth year month := by
  have months : month = 1 ∨ month = 2 ∨ month = 3 ∨ month = 4 ∨ month = 5 ∨ month = 6 ∨ month = 7 ∨ month = 8 ∨
      month = 9 ∨ month = 10 ∨ month = 11 ∨ month = 12 := by omega
  by_cases february : month = 2
  · subst february
    have leap : IsLeap year ↔ year % 4 = 0 ∧ (year % 100 ≠ 0 ∨ year % 400 = 0) := by
      unfold IsLeap
      omega
    have days : Gregorian.daysInMonth year ((2 : ℕ) : ℤ) = 28 + leapDay year := if_pos rfl
    by_cases long : year % 4 = 0 ∧ (year % 100 ≠ 0 ∨ year % 400 = 0)
    · refine ⟨29, if_pos long, ?_⟩
      rw [days, leapDay, if_pos (leap.mpr long)]
      rfl
    · refine ⟨28, if_neg long, ?_⟩
      rw [days, leapDay, if_neg (mt leap.mp long)]
      rfl
  · rcases months with rfl | rfl | rfl | rfl | rfl | rfl | rfl | rfl | rfl | rfl | rfl | rfl <;>
      first
        | exact absurd rfl february
        | exact ⟨31, rfl, rfl⟩
        | exact ⟨30, rfl, rfl⟩

theorem daysInMonth_any {year month day : ℕ} :
    (daysInMonth year month).any (fun maxDay => decide (1 ≤ day) && decide (day ≤ maxDay)) = true ↔ ValidDate year month day := by
  rw [validDate_iff]
  by_cases range : 1 ≤ month ∧ month ≤ 12
  · obtain ⟨days, found, same⟩ := @daysInMonth_some year month range.1 range.2
    rw [found, ← same, Option.any_some, Bool.and_eq_true, decide_eq_true_eq, decide_eq_true_eq]
    omega
  · have none_ : daysInMonth year month = none := by
      rcases Nat.eq_zero_or_pos month with rfl | positive
      · rfl
      · obtain ⟨n, rfl⟩ := Nat.exists_eq_add_of_le' (show 13 ≤ month by omega)
        rfl
    rw [none_]
    constructor
    · intro hit
      cases hit
    · intro valid
      omega

/-- The parts of a text with two separators. -/
theorem three_parts {c : Char} {text first second third : List Char} (parts : text.splitOn c = [first, second, third]) :
    text = first ++ c :: (second ++ c :: third) := by
  have whole : [c].intercalate (text.splitOn c) = text := List.intercalate_splitOn c
  rw [parts] at whole
  rw [← whole]
  simp [List.intercalate]

theorem splitOn_three {c : Char} {first second third : List Char} (a : c ∉ first) (b : c ∉ second) (d : c ∉ third) :
    (first ++ c :: (second ++ c :: third)).splitOn c = [first, second, third] := by
  rw [List.splitOn_append_cons_self_of_not_mem a, List.splitOn_append_cons_self_of_not_mem b, List.splitOn_eq_singleton d]

theorem toNat_uint8 {n : ℕ} (small : n ≤ 255) : (UInt8.ofNat n).toNat = n := by
  rw [UInt8.toNat_ofNat', Nat.mod_eq_of_lt (by omega)]

theorem toNat_uint16 {n : ℕ} (small : n ≤ 65535) : (UInt16.ofNat n).toNat = n := by
  rw [UInt16.toNat_ofNat', Nat.mod_eq_of_lt (by omega)]

theorem toNat_uint32 {n : ℕ} (small : n ≤ 4294967295) : (UInt32.ofNat n).toNat = n := by
  rw [UInt32.toNat_ofNat', Nat.mod_eq_of_lt (by omega)]

/-- A text is a date exactly when it is one of the calendar in the documented form. -/
theorem parseDate_some {text : List Char} {date : Date} :
    parseDate text = some date ↔ DateText text date.year.toNat date.month.toNat date.day.toNat ∧
      ValidDate date.year.toNat date.month.toNat date.day.toNat := by
  constructor
  · intro parsed
    rw [parseDate] at parsed
    split at parsed
    · rename_i y m d parts
      obtain ⟨year, hy, parsed⟩ := Option.bind_eq_some_iff.mp parsed
      obtain ⟨month, hm, parsed⟩ := Option.bind_eq_some_iff.mp parsed
      obtain ⟨day, hd, parsed⟩ := Option.bind_eq_some_iff.mp parsed
      obtain ⟨yearText, yearSmall⟩ := parseDigits_some.mp hy
      obtain ⟨monthText, monthSmall⟩ := parseDigits_some.mp hm
      obtain ⟨dayText, daySmall⟩ := parseDigits_some.mp hd
      split at parsed
      · rename_i valid
        cases parsed
        dsimp only
        rw [toNat_uint16 yearSmall, toNat_uint8 monthSmall, toNat_uint8 daySmall]
        exact ⟨⟨y, m, d, three_parts parts, yearText, monthText, dayText⟩, daysInMonth_any.mp valid⟩
      · cases parsed
    · cases parsed
  · rintro ⟨⟨y, m, d, rfl, yearText, monthText, dayText⟩, valid⟩
    have dash : '-'.isDigit = false := rfl
    have hy := parseDigits_some.mpr ⟨yearText, Nat.le_of_lt_succ date.year.toNat_lt⟩
    have hm := parseDigits_some.mpr ⟨monthText, Nat.le_of_lt_succ date.month.toNat_lt⟩
    have hd := parseDigits_some.mpr ⟨dayText, Nat.le_of_lt_succ date.day.toNat_lt⟩
    rw [parseDate, splitOn_three (yearText.notMem dash) (monthText.notMem dash) (dayText.notMem dash)]
    simp only [hy, hm, hd, Option.bind_eq_bind, Option.bind_some]
    rw [if_pos (daysInMonth_any.mpr valid), UInt16.ofNat_toNat, UInt8.ofNat_toNat, UInt8.ofNat_toNat]

theorem validDate_small {year month day : ℕ} (valid : ValidDate year month day) : month ≤ 12 ∧ day ≤ 31 := by
  obtain ⟨_, last⟩ := valid.month_range
  obtain ⟨_, short⟩ := valid.day_range
  have most : Gregorian.daysInMonth year month ≤ 31 := by
    unfold Gregorian.daysInMonth
    rcases leapDay_cases year with ⟨_, one⟩ | ⟨_, none⟩ <;> split <;> try split
    all_goals omega
  constructor <;> omega

/-- The text of a date of the calendar is parsed back. -/
theorem parseDate_display {date : Date} (valid : ValidDate date.year.toNat date.month.toNat date.day.toNat) :
    parseDate date.display = some date := by
  obtain ⟨month, day⟩ := validDate_small valid
  have year := date.year.toNat_lt
  exact parseDate_some.mpr ⟨⟨_, _, _, rfl, padded_numeral (by omega) (by decide) (by decide) (by decide),
    padded_numeral (by omega) (by decide) (by decide) (by decide), padded_numeral (by omega) (by decide) (by decide) (by decide)⟩, valid⟩

end Dates

/-! ## Times -/

section Times

theorem parseDigits_filter {greatest bound n : ℕ} {text : List Char} (inside : bound ≤ greatest) :
    (parseDigits greatest 2 2 text).filter (fun n => decide (n < bound)) = some n ↔ NumeralOf 2 2 text n ∧ n < bound := by
  rw [Option.filter_eq_some_iff, parseDigits_some, decide_eq_true_eq]
  constructor
  · exact fun parsed => ⟨parsed.1.1, parsed.2⟩
  · exact fun numeral => ⟨⟨numeral.1, by omega⟩, numeral.2⟩

theorem parseHms_some {text : List Char} {hour minute second : ℕ} :
    parseHms text = some (hour, minute, second) ↔ HmsText text hour minute second ∧ hour < 24 ∧ minute < 60 ∧ second < 60 := by
  constructor
  · intro parsed
    rw [parseHms] at parsed
    split at parsed
    · rename_i h m s parts
      obtain ⟨a, ha, parsed⟩ := Option.bind_eq_some_iff.mp parsed
      obtain ⟨b, hb, parsed⟩ := Option.bind_eq_some_iff.mp parsed
      obtain ⟨c, hc, parsed⟩ := Option.bind_eq_some_iff.mp parsed
      cases parsed
      obtain ⟨hourText, hourSmall⟩ := (parseDigits_filter (by decide)).mp ha
      obtain ⟨minuteText, minuteSmall⟩ := (parseDigits_filter (by decide)).mp hb
      obtain ⟨secondText, secondSmall⟩ := (parseDigits_filter (by decide)).mp hc
      exact ⟨⟨h, m, s, three_parts parts, hourText, minuteText, secondText⟩, hourSmall, minuteSmall, secondSmall⟩
    · cases parsed
  · rintro ⟨⟨h, m, s, rfl, hourText, minuteText, secondText⟩, hourSmall, minuteSmall, secondSmall⟩
    have colon : ':'.isDigit = false := rfl
    have ha : (parseDigits 255 2 2 h).filter (fun n => decide (n < 24)) = some hour :=
      (parseDigits_filter (by decide)).mpr ⟨hourText, hourSmall⟩
    have hb : (parseDigits 255 2 2 m).filter (fun n => decide (n < 60)) = some minute :=
      (parseDigits_filter (by decide)).mpr ⟨minuteText, minuteSmall⟩
    have hc : (parseDigits 255 2 2 s).filter (fun n => decide (n < 60)) = some second :=
      (parseDigits_filter (by decide)).mpr ⟨secondText, secondSmall⟩
    rw [parseHms, splitOn_three (hourText.notMem colon) (minuteText.notMem colon) (secondText.notMem colon)]
    simp only [ha, hb, hc, Option.bind_eq_bind, Option.bind_some]
    rfl

/-- The characters of a time without a zone. -/
def IsClockChar (c : Char) : Prop := c.isDigit = true ∨ c = ':' ∨ c = '.'

theorem HmsText.chars {text : List Char} {hour minute second : ℕ} (hms : HmsText text hour minute second) :
    ∀ c ∈ text, c.isDigit = true ∨ c = ':' := by
  obtain ⟨h, m, s, rfl, hourText, minuteText, secondText⟩ := hms
  intro c member
  simp only [List.mem_append, List.mem_cons] at member
  rcases member with inside | rfl | inside | rfl | inside
  · exact .inl (hourText.digits c inside)
  · exact .inr rfl
  · exact .inl (minuteText.digits c inside)
  · exact .inr rfl
  · exact .inl (secondText.digits c inside)

theorem FractionText.chars {text : List Char} {microsecond : ℕ} (fraction : FractionText text microsecond) :
    ∀ c ∈ text, IsClockChar c := by
  intro c member
  rcases fraction with ⟨rfl, _⟩ | ⟨f, n, rfl, numeral, _⟩
  · cases member
  · rcases List.mem_cons.mp member with rfl | inside
    · exact .inr (.inr rfl)
    · exact .inl (numeral.digits c inside)

theorem FractionText.lt {text : List Char} {microsecond : ℕ} (fraction : FractionText text microsecond) : microsecond < 1000000 := by
  rcases fraction with ⟨_, rfl⟩ | ⟨f, n, rfl, numeral, rfl⟩
  · decide
  · have low := value_lt numeral.digits
    rw [numeral.value_eq] at low
    have high := numeral.le_most
    calc n * 10 ^ (6 - f.length) < 10 ^ f.length * 10 ^ (6 - f.length) :=
          Nat.mul_lt_mul_of_pos_right low (Nat.pow_pos (by decide))
      _ = 10 ^ (f.length + (6 - f.length)) := (Nat.pow_add ..).symm
      _ = 10 ^ 6 := congrArg (10 ^ ·) (Nat.add_sub_cancel' high)

/-- A clock is cut before its fraction. -/
theorem splitFraction_append {hms fraction : List Char} {hour minute second microsecond : ℕ}
    (hmsText : HmsText hms hour minute second) (fractionText : FractionText fraction microsecond) :
    (splitFraction (hms ++ fraction)).1 = hms ∧ parseFraction (splitFraction (hms ++ fraction)).2 = some microsecond := by
  have clean : ∀ c ∈ hms, (c == '.') = false := by
    intro c member
    rcases hmsText.chars c member with digit | rfl
    · rw [beq_eq_false_iff_ne]
      rintro rfl
      cases digit
    · rfl
  rcases fractionText with ⟨rfl, rfl⟩ | ⟨f, n, rfl, numeral, rfl⟩
  · have none_ := cutOnce_none.mpr clean
    rw [List.append_nil, splitFraction, none_]
    exact ⟨rfl, rfl⟩
  · have cut : cutOnce (· == '.') (hms ++ '.' :: f) = some (hms, f) := cutOnce_some.mpr ⟨'.', rfl, rfl, clean⟩
    rw [splitFraction, cut]
    refine ⟨rfl, ?_⟩
    rw [parseFraction, parseDigits_some.mpr ⟨numeral, ?_⟩]
    · rfl
    · have low := value_lt numeral.digits
      rw [numeral.value_eq] at low
      have wide : 10 ^ f.length ≤ 10 ^ 6 := Nat.pow_le_pow_right (by decide) numeral.le_most
      omega

/-- What is cut off the end of a clock is a fraction. -/
theorem splitFraction_ok {clock : List Char} {microsecond : ℕ} (parsed : parseFraction (splitFraction clock).2 = some microsecond) :
    ∃ fraction, clock = (splitFraction clock).1 ++ fraction ∧ FractionText fraction microsecond := by
  rw [splitFraction] at parsed ⊢
  cases cut : cutOnce (· == '.') clock with
  | none =>
      rw [cut] at parsed
      cases parsed
      exact ⟨[], (List.append_nil _).symm, .inl ⟨rfl, rfl⟩⟩
  | some parts =>
      obtain ⟨hms, f⟩ := parts
      rw [cut] at parsed
      obtain ⟨n, found, same⟩ := Option.map_eq_some_iff.mp parsed
      obtain ⟨c, dot, whole, _⟩ := cutOnce_some.mp cut
      cases eq_of_beq dot
      exact ⟨'.' :: f, whole, .inr ⟨f, n, rfl, (parseDigits_some.mp found).1, same.symm⟩⟩

/-- An offset is accepted exactly when it is below one day in the documented form. -/
theorem parseOffset_some {text : List Char} {offset : Int16} : parseOffset text = some offset ↔ OffsetText text offset.toInt := by
  constructor
  · intro parsed
    cases text with
    | nil => cases parsed
    | cons sign rest =>
        obtain ⟨unit, signed, parsed⟩ := Option.bind_eq_some_iff.mp parsed
        obtain ⟨⟨h, m⟩, cut, parsed⟩ := Option.bind_eq_some_iff.mp parsed
        obtain ⟨hours, hh, parsed⟩ := Option.bind_eq_some_iff.mp parsed
        obtain ⟨minutes, hm, parsed⟩ := Option.bind_eq_some_iff.mp parsed
        cases parsed
        obtain ⟨hoursText, hoursSmall⟩ := (parseDigits_filter (by decide)).mp hh
        obtain ⟨minutesText, minutesSmall⟩ := (parseDigits_filter (by decide)).mp hm
        obtain ⟨c, colon, rfl, _⟩ := cutOnce_some.mp cut
        cases eq_of_beq colon
        refine ⟨h, m, hours, hoursSmall, minutes, minutesSmall, hoursText, minutesText, ?_⟩
        rw [signOf] at signed
        split at signed
        · rename_i plus
          cases signed
          refine .inl ⟨by rw [plus], ?_⟩
          rw [Int16.toInt_ofInt_of_le (by omega) (by omega)]
          omega
        · split at signed
          · rename_i minus
            cases signed
            refine .inr ⟨by rw [minus], ?_⟩
            rw [Int16.toInt_ofInt_of_le (by omega) (by omega)]
            omega
          · cases signed
  · rintro ⟨h, m, hours, hoursSmall, minutes, minutesSmall, hoursText, minutesText, signed⟩
    have colon : ∀ c ∈ h, (c == ':') = false := by
      intro c member
      have digit := hoursText.digits c member
      rw [beq_eq_false_iff_ne]
      rintro rfl
      cases digit
    have cut : cutOnce (· == ':') (h ++ ':' :: m) = some (h, m) := cutOnce_some.mpr ⟨':', rfl, rfl, colon⟩
    have hh : (parseDigits 32767 2 2 h).filter (fun n => decide (n < 24)) = some hours :=
      (parseDigits_filter (by decide)).mpr ⟨hoursText, hoursSmall⟩
    have hm : (parseDigits 32767 2 2 m).filter (fun n => decide (n < 60)) = some minutes :=
      (parseDigits_filter (by decide)).mpr ⟨minutesText, minutesSmall⟩
    rcases signed with ⟨rfl, same⟩ | ⟨rfl, same⟩
    · have unit : signOf '+' = some 1 := rfl
      simp only [parseOffset, unit, cut, hh, hm, Option.bind_eq_bind, Option.bind_some]
      refine congrArg some ?_
      rw [← Int16.ofInt_toInt offset, same]
      exact congrArg Int16.ofInt (by omega)
    · have unit : signOf '-' = some (-1) := rfl
      simp only [parseOffset, unit, cut, hh, hm, Option.bind_eq_bind, Option.bind_some]
      refine congrArg some ?_
      rw [← Int16.ofInt_toInt offset, same]
      exact congrArg Int16.ofInt (by omega)

theorem stripSuffix_some {c : Char} {text front : List Char} : stripSuffix c text = some front ↔ text = front ++ [c] := by
  rw [stripSuffix]
  constructor
  · intro found
    split at found
    · rename_i last
      cases found
      exact (List.dropLast_append_getLast? c last).symm
    · cases found
  · rintro rfl
    rw [if_pos List.getLast?_concat, List.dropLast_concat]

theorem stripSuffix_none {c : Char} {text : List Char} (other : ∀ last, text.getLast? = some last → last ≠ c) :
    stripSuffix c text = none := if_neg fun found => other c found rfl

/-- What is cut off the end of a time is a zone. -/
theorem parseZone_ok {time clock : List Char} {offset : Int16} (parsed : parseZone time = some (clock, offset)) :
    ∃ zone, time = clock ++ zone ∧ ZoneText zone offset.toInt := by
  rw [parseZone] at parsed
  cases suffix : stripSuffix 'Z' time with
  | some front =>
      rw [suffix] at parsed
      cases parsed
      exact ⟨['Z'], stripSuffix_some.mp suffix, .inr (.inl ⟨rfl, rfl⟩)⟩
  | none =>
      cases cut : cutAtLast isSign time with
      | some parts =>
          obtain ⟨front, zone⟩ := parts
          rw [suffix, cut] at parsed
          obtain ⟨minutes, found, same⟩ := Option.map_eq_some_iff.mp parsed
          cases same
          obtain ⟨c, rest, _, rfl, whole, _⟩ := cutAtLast_some.mp cut
          exact ⟨c :: rest, whole, .inr (.inr (parseOffset_some.mp found))⟩
      | none =>
          rw [suffix, cut] at parsed
          cases parsed
          exact ⟨[], (List.append_nil _).symm, .inl ⟨rfl, rfl⟩⟩

theorem IsClockChar.plain {c : Char} (clock : IsClockChar c) : isSign c = false ∧ c ≠ 'Z' := by
  rcases clock with digit | rfl | rfl
  · refine ⟨?_, ?_⟩
    · rw [isSign, Bool.or_eq_false_iff, beq_eq_false_iff_ne, beq_eq_false_iff_ne]
      refine ⟨?_, ?_⟩ <;> rintro rfl <;> cases digit
    · rintro rfl
      cases digit
  · exact ⟨rfl, by decide⟩
  · exact ⟨rfl, by decide⟩

/-- A zone behind a clock is found. -/
theorem parseZone_append {clock zone : List Char} {offset : Int16} (plain : ∀ c ∈ clock, IsClockChar c)
    (zoneText : ZoneText zone offset.toInt) : parseZone (clock ++ zone) = some (clock, offset) := by
  rcases zoneText with ⟨rfl, zero⟩ | ⟨rfl, zero⟩ | text
  · have suffix : stripSuffix 'Z' clock = none :=
      stripSuffix_none fun last found => (plain last (List.mem_of_getLast? found)).plain.2
    have cut : cutAtLast isSign clock = none := cutAtLast_none.mpr fun c member => (plain c member).plain.1
    rw [List.append_nil, parseZone, suffix, cut, ← Int16.toInt_inj.mp (zero.trans Int16.toInt_zero.symm)]
  · rw [parseZone, stripSuffix_some.mpr rfl, Int16.toInt_inj.mp (zero.trans Int16.toInt_zero.symm)]
  · have parsed := parseOffset_some.mpr text
    obtain ⟨h, m, hours, _, minutes, _, hoursText, minutesText, signed⟩ := text
    obtain ⟨sign, found, rfl⟩ : ∃ sign, isSign sign = true ∧ zone = sign :: (h ++ ':' :: m) := by
      rcases signed with ⟨same, _⟩ | ⟨same, _⟩
      · exact ⟨'+', rfl, same⟩
      · exact ⟨'-', rfl, same⟩
    have inside : ∀ c ∈ h ++ ':' :: m, IsClockChar c := by
      intro c member
      rcases List.mem_append.mp member with front | back
      · exact .inl (hoursText.digits c front)
      · rcases List.mem_cons.mp back with rfl | back
        · exact .inr (.inl rfl)
        · exact .inl (minutesText.digits c back)
    have suffix : stripSuffix 'Z' (clock ++ sign :: (h ++ ':' :: m)) = none := by
      refine stripSuffix_none fun last final => ?_
      have front : clock ++ sign :: (h ++ ':' :: m) = (clock ++ [sign]) ++ (h ++ ':' :: m) := by simp
      rw [front, List.getLast?_append_of_ne_nil _ (by simp)] at final
      exact (inside last (List.mem_of_getLast? final)).plain.2
    have cut : cutAtLast isSign (clock ++ sign :: (h ++ ':' :: m)) = some (clock, sign :: (h ++ ':' :: m)) :=
      cutAtLast_some.mpr ⟨sign, _, found, rfl, rfl, fun c member => (inside c member).plain.1⟩
    rw [parseZone, suffix, cut]
    exact Option.map_eq_some_iff.mpr ⟨offset, parsed, rfl⟩

end Times

/-! ## Date-times -/

section DateTimes

theorem DateText.chars {text : List Char} {year month day : ℕ} (date : DateText text year month day) :
    ∀ c ∈ text, isDateEnd c = false := by
  obtain ⟨y, m, d, rfl, yearText, monthText, dayText⟩ := date
  have digit : ∀ c : Char, c.isDigit = true → isDateEnd c = false := by
    intro c digit
    rw [isDateEnd, Bool.or_eq_false_iff, beq_eq_false_iff_ne, beq_eq_false_iff_ne]
    refine ⟨?_, ?_⟩ <;> rintro rfl <;> cases digit
  intro c member
  simp only [List.mem_append, List.mem_cons] at member
  rcases member with inside | rfl | inside | rfl | inside
  · exact digit c (yearText.digits c inside)
  · rfl
  · exact digit c (monthText.digits c inside)
  · rfl
  · exact digit c (dayText.digits c inside)

/-- A text is a date-time exactly when it is one of the calendar in the documented form. -/
theorem parseDatetime_some {text : List Char} {dt : DateTime} :
    parseDatetime text = some dt ↔ DateTimeText text dt ∧ dt.CalendarValid := by
  constructor
  · intro parsed
    obtain ⟨⟨front, time⟩, cut, parsed⟩ := Option.bind_eq_some_iff.mp parsed
    obtain ⟨date, hdate, parsed⟩ := Option.bind_eq_some_iff.mp parsed
    obtain ⟨⟨clock, offset⟩, hzone, parsed⟩ := Option.bind_eq_some_iff.mp parsed
    obtain ⟨⟨hour, minute, second⟩, hhms, parsed⟩ := Option.bind_eq_some_iff.mp parsed
    obtain ⟨microsecond, hfraction, parsed⟩ := Option.bind_eq_some_iff.mp parsed
    cases parsed
    obtain ⟨sep, ends, whole, _⟩ := cutOnce_some.mp cut
    obtain ⟨dateText, dateValid⟩ := parseDate_some.mp hdate
    obtain ⟨hmsText, hourSmall, minuteSmall, secondSmall⟩ := parseHms_some.mp hhms
    obtain ⟨fraction, sameClock, fractionText⟩ := splitFraction_ok hfraction
    obtain ⟨zone, sameTime, zoneText⟩ := parseZone_ok hzone
    have small := fractionText.lt
    have h := toNat_uint8 (n := hour) (by omega)
    have m := toNat_uint8 (n := minute) (by omega)
    have s := toNat_uint8 (n := second) (by omega)
    have us := toNat_uint32 (n := microsecond) (by omega)
    refine ⟨⟨front, sep, (splitFraction clock).1, fraction, zone, ?_, ends, dateText, ?_, ?_, zoneText⟩, dateValid, ?_⟩
    · rw [whole, sameTime, ← sameClock]
    · dsimp only
      rwa [h, m, s]
    · dsimp only
      rwa [us]
    · unfold timeIsValid
      dsimp only
      rw [h, m, s, us]
      exact ⟨hourSmall, minuteSmall, secondSmall, small⟩
  · rintro ⟨⟨front, sep, hms, fraction, zone, rfl, ends, dateText, hmsText, fractionText, zoneText⟩, dateValid, hour, minute, second, _⟩
    have cut : cutOnce isDateEnd (front ++ sep :: (hms ++ fraction ++ zone)) = some (front, hms ++ fraction ++ zone) :=
      cutOnce_some.mpr ⟨sep, ends, rfl, dateText.chars⟩
    have hdate : parseDate front = some ⟨dt.year, dt.month, dt.day⟩ := parseDate_some.mpr ⟨dateText, dateValid⟩
    have hzone : parseZone (hms ++ fraction ++ zone) = some (hms ++ fraction, dt.timezoneOffsetMinutes) := by
      refine parseZone_append (fun c member => ?_) zoneText
      rcases List.mem_append.mp member with inside | inside
      · rcases hmsText.chars c inside with digit | colon
        · exact .inl digit
        · exact .inr (.inl colon)
      · exact fractionText.chars c inside
    have hhms := parseHms_some.mpr ⟨hmsText, hour, minute, second⟩
    obtain ⟨sameHms, hfraction⟩ := splitFraction_append hmsText fractionText
    simp only [parseDatetime, cut, hdate, hzone, sameHms, hhms, hfraction, Option.bind_eq_bind, Option.bind_some,
      UInt8.ofNat_toNat, UInt32.ofNat_toNat]
    rfl

/-- The text of a date-time of the calendar is parsed back. -/
theorem parseDatetime_display {dt : DateTime} (valid : dt.CalendarValid) (offset : BelowOneDay dt.timezoneOffsetMinutes) :
    parseDatetime dt.display = some dt := by
  obtain ⟨month, day⟩ := validDate_small valid.1
  obtain ⟨hour, minute, second, microsecond⟩ := valid.2
  have year := dt.year.toNat_lt
  have numeral : ∀ {width n : ℕ}, n < 10 ^ width → 0 < width → NumeralOf width width (padded width n) n :=
    fun fits positive => padded_numeral fits positive le_rfl le_rfl
  have length : (padded 6 dt.microsecond.toNat).length = 6 :=
    le_antisymm (numeral (by omega) (by decide)).le_most (numeral (by omega) (by decide)).least_le
  refine parseDatetime_some.mpr ⟨⟨padded 4 dt.year.toNat ++ '-' :: (padded 2 dt.month.toNat ++ '-' :: padded 2 dt.day.toNat), 'T',
    padded 2 dt.hour.toNat ++ ':' :: (padded 2 dt.minute.toNat ++ ':' :: padded 2 dt.second.toNat),
    '.' :: padded 6 dt.microsecond.toNat,
    (if dt.timezoneOffsetMinutes.toInt < 0 then '-' else '+') ::
      (padded 2 (dt.timezoneOffsetMinutes.toInt.natAbs / 60) ++ ':' :: padded 2 (dt.timezoneOffsetMinutes.toInt.natAbs % 60)),
    ?_, rfl, ?_, ?_, ?_, ?_⟩, valid⟩
  · rw [DateTime.display]
    simp
  · exact ⟨_, _, _, rfl, padded_numeral (by omega) (by decide) (by decide) (by decide), numeral (by omega) (by decide),
      numeral (by omega) (by decide)⟩
  · exact ⟨_, _, _, rfl, numeral (by omega) (by decide), numeral (by omega) (by decide), numeral (by omega) (by decide)⟩
  · refine .inr ⟨_, dt.microsecond.toNat, rfl, padded_numeral (by omega) (by decide) (by decide) (by decide), ?_⟩
    rw [length]
    simp
  · obtain ⟨low, high⟩ := offset
    refine .inr (.inr ⟨_, _, dt.timezoneOffsetMinutes.toInt.natAbs / 60, by omega, dt.timezoneOffsetMinutes.toInt.natAbs % 60, by omega,
      numeral (by omega) (by decide), numeral (by omega) (by decide), ?_⟩)
    split
    · exact .inr ⟨rfl, by omega⟩
    · exact .inl ⟨rfl, by omega⟩

end DateTimes
end WasmDbms.Sql
