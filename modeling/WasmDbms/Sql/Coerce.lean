import Mathlib.Algebra.Order.Floor.Ring
import Mathlib.Data.Rat.Floor
import Mathlib.Tactic.Linarith
import Mathlib.Tactic.NormNum
import Mathlib.Tactic.Ring
import WasmDbms.Db.Aggregate
import WasmDbms.Lib.Result
import WasmDbms.Sql.Calendar
import WasmDbms.Sql.Hexadecimal
import WasmDbms.Sql.Syntax

/-!
# Conversion of statement values

A literal or a parameter becomes a value of the type of its column. Integers are accepted
in the range of the type, a parameter converts like the literal it equals, and texts are
read in the documented forms. A decimal literal with more digits than a decimal holds is
rounded.
-/
namespace WasmDbms.Sql
open Numerals Gregorian

/-! ## Types -/

def kindName : DataTypeKind → String
  | .blob => "Blob"
  | .boolean => "Boolean"
  | .date => "Date"
  | .dateTime => "DateTime"
  | .decimal => "Decimal"
  | .int8 => "Int8"
  | .int16 => "Int16"
  | .int32 => "Int32"
  | .int64 => "Int64"
  | .json => "Json"
  | .text => "Text"
  | .uint8 => "Uint8"
  | .uint16 => "Uint16"
  | .uint32 => "Uint32"
  | .uint64 => "Uint64"
  | .uuid => "Uuid"
  | .custom tag => s!"Custom({tag})"

section Kinds
variable {D J : Type}

/-- The type of a value, none for `Null`. -/
def kindOf : StoredValue D J → Option DataTypeKind
  | .blob _ => some .blob
  | .boolean _ => some .boolean
  | .date _ => some .date
  | .dateTime _ => some .dateTime
  | .decimal _ => some .decimal
  | .int8 _ => some .int8
  | .int16 _ => some .int16
  | .int32 _ => some .int32
  | .int64 _ => some .int64
  | .json _ => some .json
  | .null => none
  | .text _ => some .text
  | .uint8 _ => some .uint8
  | .uint16 _ => some .uint16
  | .uint32 _ => some .uint32
  | .uint64 _ => some .uint64
  | .uuid _ => some .uuid
  | .custom value => some (.custom value.typeTag)

/-- `type_name`. -/
def typeName (value : StoredValue D J) : String := ((kindOf value).map kindName).getD "Null"

/-- `has_kind`. -/
def hasKind (value : StoredValue D J) (kind : DataTypeKind) : Bool := kindOf value == some kind

end Kinds

/-- What a conversion uses of other crates: the number of a decimal, the ways to one, and
the parser of JSON documents. A literal is rounded to a decimal when its own number is none. -/
structure Conversions (D J : Type) where
  number : D → ℚ
  fromStr : DecimalLiteral → Option D
  tryFromI128 : ℤ → Option D
  parse : String → Except String J
  number_isDecimal : ∀ d, IsDecimal (number d)
  fromStr_exact : ∀ l d, IsDecimal l.number → fromStr l = some d → number d = l.number
  fromStr_isSome : ∀ l, (fromStr l).isSome = true ↔ |l.number| < 2 ^ 96 - 1 / 2
  tryFromI128_exact : ∀ n d, tryFromI128 n = some d → number d = n
  tryFromI128_isSome : ∀ n, (tryFromI128 n).isSome = true ↔ |n| < 2 ^ 96

section Coerce
variable {D J : Type}

/-- A statement value reduced to what matters for conversion. -/
inductive Input (D J : Type) where
  | null
  | integer (value : ℤ)
  | float (value : DecimalLiteral)
  | text (value : String)
  | boolean (value : Bool)
  | typed (value : StoredValue D J)

/-- `parameter_input`. -/
def parameterInput : StoredValue D J → Input D J
  | .null => .null
  | .int8 value => .integer value.toInt
  | .int16 value => .integer value.toInt
  | .int32 value => .integer value.toInt
  | .int64 value => .integer value.toInt
  | .uint8 value => .integer value.toNat
  | .uint16 value => .integer value.toNat
  | .uint32 value => .integer value.toNat
  | .uint64 value => .integer value.toNat
  | .text value => .text value
  | .boolean value => .boolean value
  | other => .typed other

def literalInput : Literal → Input D J × String
  | .null => (.null, "Null")
  | .integer value => (.integer value, "Integer")
  | .float value => (.float value, "Float")
  | .string value => (.text value, "String")
  | .boolean value => (.boolean value, "Boolean")

/-- `input`. -/
def input (params : List (StoredValue D J)) : ValueExpr → Except SqlError (Input D J × String)
  | .literal literal => .ok (literalInput literal)
  | .parameter index =>
      match params[index]? with
      | some param => .ok (parameterInput param, typeName param)
      | none => .error (.parameterCountMismatch (index + 1) params.length)

/-- `try_from`, for a type with this least and this greatest number. -/
def tryFrom (least greatest : ℤ) (make : ℤ → StoredValue D J) (value : ℤ) : Option (StoredValue D J) :=
  if least ≤ value ∧ value ≤ greatest then some (make value) else none

/-- `integer`. -/
def integer (value : ℤ) : DataTypeKind → Option (Option (StoredValue D J))
  | .int8 => some (tryFrom (-128) 127 (.int8 ∘ Int8.ofInt) value)
  | .int16 => some (tryFrom (-32768) 32767 (.int16 ∘ Int16.ofInt) value)
  | .int32 => some (tryFrom (-2147483648) 2147483647 (.int32 ∘ Int32.ofInt) value)
  | .int64 => some (tryFrom (-9223372036854775808) 9223372036854775807 (.int64 ∘ Int64.ofInt) value)
  | .uint8 => some (tryFrom 0 255 (.uint8 ∘ UInt8.ofNat ∘ Int.toNat) value)
  | .uint16 => some (tryFrom 0 65535 (.uint16 ∘ UInt16.ofNat ∘ Int.toNat) value)
  | .uint32 => some (tryFrom 0 4294967295 (.uint32 ∘ UInt32.ofNat ∘ Int.toNat) value)
  | .uint64 => some (tryFrom 0 18446744073709551615 (.uint64 ∘ UInt64.ofNat ∘ Int.toNat) value)
  | _ => none

/-- `ok_or_else`. -/
def okOr {α : Type} (found : Option α) (error : SqlError) : Except SqlError α :=
  match found with
  | some value => .ok value
  | none => .error error

variable (conversions : Conversions D J)

/-- `Json::from_str`. -/
def jsonFromStr (text : String) : Except String (Json J) := (conversions.parse text).map fun value => ⟨value, text⟩

/-- The conversion of a text. -/
def convertText (mismatch : SqlError) (invalid : String → SqlError) (text : String) :
    DataTypeKind → Except SqlError (StoredValue D J)
  | .text => .ok (.text text)
  | .date => okOr ((parseDate text.toList).map .date) (invalid s!"`{text}` is not a valid date (expected YYYY-MM-DD)")
  | .dateTime => okOr ((parseDatetime text.toList).map .dateTime)
      (invalid s!"`{text}` is not a valid date-time (expected YYYY-MM-DDTHH:MM:SS[.ffffff][Z|+HH:MM|-HH:MM])")
  | .uuid => okOr ((parseUuid text.toList).map .uuid) (invalid s!"`{text}` is not a valid UUID")
  | .blob => okOr ((parseHex text.toList).map .blob)
      (invalid s!"`{text}` is not a hexadecimal string with an even number of digits")
  | .json =>
      match jsonFromStr conversions text with
      | .ok document => .ok (.json document)
      | .error error => .error (invalid s!"`{text}` is not valid JSON: {error}")
  | _ => .error mismatch

/-- The conversion of an integer. -/
def convertInteger (mismatch : SqlError) (invalid : String → SqlError) (value : ℤ) (kind : DataTypeKind) :
    Except SqlError (StoredValue D J) :=
  if kind = .decimal then
    okOr ((conversions.tryFromI128 value).map .decimal) (invalid s!"integer {value} is out of range for Decimal")
  else do
    let made ← okOr (integer value kind) mismatch
    okOr made (invalid s!"integer {value} is out of range for {kindName kind}")

/-- The table of `coerce`, for a value that errors call `got`. -/
def convert (column : String) (kind : DataTypeKind) : Input D J × String → Except SqlError (StoredValue D J)
  | (input, got) =>
      let mismatch := SqlError.typeMismatch column kind got
      let invalid := SqlError.invalidLiteral column kind
      match input with
      | .null => .ok .null
      | .integer value => convertInteger conversions mismatch invalid value kind
      | .float value =>
          if kind = .decimal then okOr ((conversions.fromStr value).map .decimal) (invalid s!"`{value.text}` is not a valid decimal")
          else .error mismatch
      | .boolean value => if kind = .boolean then .ok (.boolean value) else .error mismatch
      | .text text => convertText conversions mismatch invalid text kind
      | .typed value => if hasKind value kind then .ok value else .error mismatch

/-- `coerce`. -/
def coerce (value : ValueExpr) (params : List (StoredValue D J)) (column : String) (kind : DataTypeKind) :
    Except SqlError (StoredValue D J) :=
  input params value >>= convert conversions column kind

end Coerce

/-! ## What is meant -/

section Meaning
variable {D J : Type}

/-- The number of an integer value. -/
def integerOf : StoredValue D J → Option ℤ
  | .int8 value => some value.toInt
  | .int16 value => some value.toInt
  | .int32 value => some value.toInt
  | .int64 value => some value.toInt
  | .uint8 value => some value.toNat
  | .uint16 value => some value.toNat
  | .uint32 value => some value.toNat
  | .uint64 value => some value.toNat
  | _ => none

/-- The literal that a parameter equals. The other parameters are used as they are. -/
def equalLiteral : StoredValue D J → Option Literal
  | .null => some .null
  | .text value => some (.string value)
  | .boolean value => some (.boolean value)
  | value => (integerOf value).map .integer

/-- The range of a numeric type. -/
def InRange : DataTypeKind → ℤ → Prop
  | .int8, n => -2 ^ 7 ≤ n ∧ n < 2 ^ 7
  | .int16, n => -2 ^ 15 ≤ n ∧ n < 2 ^ 15
  | .int32, n => -2 ^ 31 ≤ n ∧ n < 2 ^ 31
  | .int64, n => -2 ^ 63 ≤ n ∧ n < 2 ^ 63
  | .uint8, n => 0 ≤ n ∧ n < 2 ^ 8
  | .uint16, n => 0 ≤ n ∧ n < 2 ^ 16
  | .uint32, n => 0 ≤ n ∧ n < 2 ^ 32
  | .uint64, n => 0 ≤ n ∧ n < 2 ^ 64
  | .decimal, n => |n| < 2 ^ 96
  | _, _ => False

variable (conversions : Conversions D J)

/-- A value is what a literal stands for. -/
inductive Denotes : Literal → StoredValue D J → Prop
  | null : Denotes .null .null
  | integer {n value} (same : integerOf value = some n) : Denotes (.integer n) value
  | decimal {n : ℤ} {d} (same : conversions.number d = n) : Denotes (.integer n) (.decimal d)
  | float {l d} (same : conversions.number d = l.number) : Denotes (.float l) (.decimal d)
  | boolean {b} : Denotes (.boolean b) (.boolean b)
  | text {t} : Denotes (.string t) (.text t)
  | date {t d} (form : DateText t.toList d.year.toNat d.month.toNat d.day.toNat) : Denotes (.string t) (.date d)
  | dateTime {t dt} (form : DateTimeText t.toList dt) : Denotes (.string t) (.dateTime dt)
  | uuid {t bytes} (form : UuidText t.toList bytes.1) : Denotes (.string t) (.uuid bytes)
  | blob {t bytes} (form : HexText t.toList bytes) : Denotes (.string t) (.blob bytes)
  | json {t document} (form : conversions.parse t = .ok document) : Denotes (.string t) (.json ⟨document, t⟩)

/-- A value is what a parameter stands for: what the literal it equals does, or itself. -/
def ParameterDenotes (param value : StoredValue D J) : Prop :=
  (∃ literal, equalLiteral param = some literal ∧ Denotes conversions literal value) ∨ equalLiteral param = none ∧ value = param

/-- A value is what a statement value stands for. -/
def Means (params : List (StoredValue D J)) (value : StoredValue D J) : ValueExpr → Prop
  | .literal literal => Denotes conversions literal value
  | .parameter index => ∃ param, params[index]? = some param ∧ ParameterDenotes conversions param value

/-- Whatever a statement value is converted to has the type of the column, or is null, and
is what is meant. -/
def KeepsMeaning (params : List (StoredValue D J)) (kind : DataTypeKind) (expr : ValueExpr) : Prop :=
  ∀ column value, coerce conversions expr params column kind = .ok value →
    (value = .null ∨ hasKind value kind = true) ∧ Means conversions params value expr

/-- A statement value that is a literal, or a parameter equal to it. -/
def Stands (params : List (StoredValue D J)) (expr : ValueExpr) (literal : Literal) : Prop :=
  expr = .literal literal ∨
    ∃ index param, expr = .parameter index ∧ params[index]? = some param ∧ equalLiteral param = some literal

/-- A decimal literal for a decimal column, in the range of decimals but with more digits
than they hold. -/
def IsRounded (kind : DataTypeKind) (expr : ValueExpr) : Prop :=
  kind = .decimal ∧ ∃ l, expr = .literal (.float l) ∧ ¬ IsDecimal l.number ∧ |l.number| < 2 ^ 96 - 1 / 2

end Meaning

/-! ## Integers -/

section Integers
variable {D J : Type}

theorem okOr_ok {α : Type} {found : Option α} {error : SqlError} {value : α} : okOr found error = .ok value ↔ found = some value := by
  cases found with
  | none =>
      constructor <;> intro absent <;> cases absent
  | some made =>
      constructor
      · intro same
        cases same
        rfl
      · intro same
        cases same
        rfl

theorem tryFrom_some {least greatest n : ℤ} {make : ℤ → StoredValue D J} {value : StoredValue D J} :
    tryFrom least greatest make n = some value ↔ (least ≤ n ∧ n ≤ greatest) ∧ make n = value := by
  rw [tryFrom]
  split
  · rename_i inside
    exact ⟨fun found => ⟨inside, Option.some.inj found⟩, fun found => congrArg some found.2⟩
  · rename_i outside
    exact ⟨fun found => (by cases found), fun found => absurd found.1 outside⟩

/-- An integer that is converted to an integer type is in its range, and kept. -/
theorem integer_some {n : ℤ} {kind : DataTypeKind} {value : StoredValue D J} (found : integer n kind = some (some value)) :
    InRange kind n ∧ hasKind value kind = true ∧ integerOf value = some n := by
  cases kind <;> try cases found
  all_goals
    obtain ⟨⟨low, high⟩, rfl⟩ := tryFrom_some.mp (Option.some.inj found)
    refine ⟨⟨by omega, by omega⟩, rfl, congrArg some ?_⟩
  · exact Int8.toInt_ofInt_of_le low (by omega)
  · exact Int16.toInt_ofInt_of_le low (by omega)
  · exact Int32.toInt_ofInt_of_le low (by omega)
  · exact Int64.toInt_ofInt_of_le low (by omega)
  · have same := toNat_uint8 (n := n.toNat) (by omega)
    change ((UInt8.ofNat n.toNat).toNat : ℤ) = n
    omega
  · have same := toNat_uint16 (n := n.toNat) (by omega)
    change ((UInt16.ofNat n.toNat).toNat : ℤ) = n
    omega
  · have same := toNat_uint32 (n := n.toNat) (by omega)
    change ((UInt32.ofNat n.toNat).toNat : ℤ) = n
    omega
  · have same : (UInt64.ofNat n.toNat).toNat = n.toNat := by
      rw [UInt64.toNat_ofNat', Nat.mod_eq_of_lt (by omega)]
    change ((UInt64.ofNat n.toNat).toNat : ℤ) = n
    omega

/-- An integer in the range of an integer type is converted. -/
theorem integer_of_inRange {n : ℤ} {kind : DataTypeKind} (range : InRange kind n) (other : kind ≠ .decimal) :
    ∃ value : StoredValue D J, integer n kind = some (some value) := by
  cases kind <;> first | exact absurd rfl other | exact range.elim | skip
  all_goals
    obtain ⟨low, high⟩ := range
    exact ⟨_, congrArg some (tryFrom_some.mpr ⟨⟨by omega, by omega⟩, rfl⟩)⟩

variable (conversions : Conversions D J)

theorem convertInteger_ok {n : ℤ} {kind : DataTypeKind} {mismatch : SqlError} {invalid : String → SqlError}
    {value : StoredValue D J} (converted : convertInteger conversions mismatch invalid n kind = .ok value) :
    InRange kind n ∧ hasKind value kind = true ∧ Denotes conversions (.integer n) value := by
  rw [convertInteger] at converted
  split at converted
  · rename_i decimal
    subst decimal
    obtain ⟨d, found, rfl⟩ := Option.map_eq_some_iff.mp (okOr_ok.mp converted)
    refine ⟨(conversions.tryFromI128_isSome n).mp ?_, rfl, .decimal (conversions.tryFromI128_exact n d found)⟩
    rw [found]
    rfl
  · obtain ⟨made, found, converted⟩ := Result.bind_eq_ok.mp converted
    have here := okOr_ok.mp found
    rw [okOr_ok.mp converted] at here
    obtain ⟨range, kinded, same⟩ := integer_some here
    exact ⟨range, kinded, .integer same⟩

theorem convertInteger_of_inRange {n : ℤ} {kind : DataTypeKind} (mismatch : SqlError) (invalid : String → SqlError)
    (range : InRange kind n) : ∃ value, convertInteger conversions mismatch invalid n kind = .ok value := by
  rw [convertInteger]
  split
  · rename_i decimal
    subst decimal
    obtain ⟨d, found⟩ := Option.isSome_iff_exists.mp ((conversions.tryFromI128_isSome n).mpr range)
    exact ⟨.decimal d, okOr_ok.mpr (Option.map_eq_some_iff.mpr ⟨d, found, rfl⟩)⟩
  · rename_i other
    obtain ⟨value, found⟩ := integer_of_inRange (D := D) (J := J) range other
    refine ⟨value, ?_⟩
    rw [found]
    rfl

end Integers

/-! ## Every conversion -/

section Conversion
variable {D J : Type} (conversions : Conversions D J)

theorem convertText_ok {text : String} {kind : DataTypeKind} {mismatch : SqlError} {invalid : String → SqlError}
    {value : StoredValue D J} (converted : convertText conversions mismatch invalid text kind = .ok value) :
    hasKind value kind = true ∧ Denotes conversions (.string text) value := by
  cases kind with
  | text =>
      cases converted
      exact ⟨rfl, .text⟩
  | date =>
      obtain ⟨d, found, rfl⟩ := Option.map_eq_some_iff.mp (okOr_ok.mp converted)
      exact ⟨rfl, .date (parseDate_some.mp found).1⟩
  | dateTime =>
      obtain ⟨dt, found, rfl⟩ := Option.map_eq_some_iff.mp (okOr_ok.mp converted)
      exact ⟨rfl, .dateTime (parseDatetime_some.mp found).1⟩
  | uuid =>
      obtain ⟨bytes, found, rfl⟩ := Option.map_eq_some_iff.mp (okOr_ok.mp converted)
      exact ⟨rfl, .uuid (parseUuid_some.mp found)⟩
  | blob =>
      obtain ⟨bytes, found, rfl⟩ := Option.map_eq_some_iff.mp (okOr_ok.mp converted)
      exact ⟨rfl, .blob (parseHex_some.mp found)⟩
  | json =>
      rw [convertText, jsonFromStr] at converted
      cases parsed : conversions.parse text with
      | ok document =>
          rw [parsed] at converted
          cases converted
          exact ⟨rfl, .json parsed⟩
      | error error =>
          rw [parsed] at converted
          cases converted
  | _ => cases converted

/-- Whatever a literal other than a decimal is converted to, or a decimal literal that is a
decimal, is what the literal stands for. -/
theorem convert_literal {literal : Literal} {column : String} {kind : DataTypeKind} {value : StoredValue D J}
    (converted : convert conversions column kind (literalInput literal) = .ok value)
    (exact_ : ¬ IsRounded kind (.literal literal)) :
    (value = .null ∨ hasKind value kind = true) ∧ Denotes conversions literal value := by
  cases literal with
  | null =>
      cases converted
      exact ⟨.inl rfl, .null⟩
  | integer n =>
      obtain ⟨_, kinded, same⟩ := convertInteger_ok conversions converted
      exact ⟨.inr kinded, same⟩
  | float l =>
      rw [literalInput, convert] at converted
      split at converted
      · rename_i decimal
        obtain ⟨d, found, rfl⟩ := Option.map_eq_some_iff.mp (okOr_ok.mp converted)
        have small := (conversions.fromStr_isSome l).mp (Option.isSome_iff_exists.mpr ⟨d, found⟩)
        have holds : IsDecimal l.number := by
          by_contra other
          exact exact_ ⟨decimal, l, rfl, other, small⟩
        refine ⟨.inr ?_, .float (conversions.fromStr_exact l d holds found)⟩
        rw [decimal]
        rfl
      · cases converted
  | boolean b =>
      rw [literalInput, convert] at converted
      split at converted
      · rename_i boolean
        cases converted
        refine ⟨.inr ?_, .boolean⟩
        rw [boolean]
        rfl
      · cases converted
  | string text =>
      obtain ⟨kinded, same⟩ := convertText_ok conversions converted
      exact ⟨.inr kinded, same⟩

/-- A parameter is taken like the literal it equals. -/
theorem parameterInput_equal {param : StoredValue D J} {literal : Literal} (same : equalLiteral param = some literal) :
    parameterInput param = (literalInput literal).1 := by
  cases param <;> cases same <;> rfl

theorem parameterInput_other {param : StoredValue D J} (other : equalLiteral param = none) : parameterInput param = .typed param := by
  cases param <;> first | rfl | cases other

/-- The name of a value in errors left out. -/
def withoutName : SqlError → SqlError
  | .typeMismatch column expected _ => .typeMismatch column expected ""
  | error => error

theorem okOr_withoutName {α : Type} {found : Option α} {error other : SqlError} (same : withoutName error = withoutName other) :
    (okOr found error).mapError withoutName = (okOr found other).mapError withoutName := by
  cases found with
  | some value => rfl
  | none => exact congrArg Except.error same

/-- The name of a value decides nothing but a text in an error. -/
theorem convert_name (column : String) (kind : DataTypeKind) (input : Input D J) (got other : String) :
    (convert conversions column kind (input, got)).mapError withoutName =
      (convert conversions column kind (input, other)).mapError withoutName := by
  have mismatch : (Except.error (.typeMismatch column kind got) : Except SqlError (StoredValue D J)).mapError withoutName =
      (Except.error (.typeMismatch column kind other) : Except SqlError (StoredValue D J)).mapError withoutName := rfl
  cases input with
  | null => rfl
  | integer n =>
      rw [convert, convert, convertInteger, convertInteger]
      split
      · rfl
      · cases integer (D := D) (J := J) n kind with
        | none => rfl
        | some made => rfl
  | float l =>
      rw [convert, convert]
      split
      · rfl
      · exact mismatch
  | boolean b =>
      rw [convert, convert]
      split
      · rfl
      · exact mismatch
  | text t => cases kind <;> rfl
  | typed value =>
      rw [convert, convert]
      split
      · rfl
      · exact mismatch

/-- A parameter converts like the literal it equals. -/
theorem coerce_parameter {params : List (StoredValue D J)} {index : ℕ} {param : StoredValue D J} {literal : Literal}
    (there : params[index]? = some param) (same : equalLiteral param = some literal) (column : String) (kind : DataTypeKind) :
    (coerce conversions (.parameter index) params column kind).mapError withoutName =
      (coerce conversions (.literal literal) params column kind).mapError withoutName := by
  have resolved : input params (.parameter index) = .ok (parameterInput param, typeName param) := by
    rw [input, there]
  rw [coerce, coerce, resolved, parameterInput_equal same]
  exact convert_name conversions column kind (literalInput literal).1 (typeName param) (literalInput literal).2

theorem mapError_ok {ε ε' α : Type} {f : ε → ε'} {x : Except ε α} {value : α} : x.mapError f = .ok value ↔ x = .ok value := by
  cases x with
  | error e =>
      constructor <;> intro absent <;> cases absent
  | ok made =>
      constructor
      · intro same
        cases same
        rfl
      · intro same
        cases same
        rfl

/-- No parameter is rounded. -/
theorem equalLiteral_exact {param : StoredValue D J} {literal : Literal} (same : equalLiteral param = some literal)
    (kind : DataTypeKind) : ¬ IsRounded kind (.literal literal) := by
  rintro ⟨_, l, shape, _⟩
  cases shape
  cases param <;> cases same

/-- A decimal literal for a decimal column is rounded, or what it stands for is kept. -/
theorem keepsMeaning_iff (params : List (StoredValue D J)) (kind : DataTypeKind) (expr : ValueExpr) :
    KeepsMeaning conversions params kind expr ↔ ¬ IsRounded kind expr := by
  constructor
  · rintro keeps ⟨rfl, l, rfl, other, small⟩
    obtain ⟨d, found⟩ := Option.isSome_iff_exists.mp ((conversions.fromStr_isSome l).mpr small)
    have converted : coerce conversions (.literal (.float l)) params "" .decimal = .ok (.decimal d) := by
      change convert conversions "" .decimal (.float l, "Float") = .ok (.decimal d)
      rw [convert, if_pos rfl, found]
      rfl
    obtain ⟨_, meant⟩ := keeps "" (.decimal d) converted
    cases meant with
    | float same =>
        rw [← same] at other
        exact other (conversions.number_isDecimal d)
  · intro exact_ column value converted
    cases expr with
    | literal literal => exact convert_literal conversions converted exact_
    | parameter index =>
        cases there : params[index]? with
        | none =>
            rw [coerce, input, there] at converted
            cases converted
        | some param =>
            cases same : equalLiteral param with
            | some literal =>
                have alike := coerce_parameter conversions there same column kind
                rw [converted] at alike
                obtain ⟨kinded, meant⟩ := convert_literal conversions (mapError_ok.mp alike.symm) (equalLiteral_exact same kind)
                exact ⟨kinded, param, there, .inl ⟨literal, same, meant⟩⟩
            | none =>
                have resolved : input params (.parameter index) = .ok (parameterInput param, typeName param) := by
                  rw [input, there]
                rw [coerce, resolved, parameterInput_other same] at converted
                change convert conversions column kind (.typed param, typeName param) = _ at converted
                rw [convert] at converted
                split at converted
                · rename_i kinded
                  obtain rfl := Except.ok.inj converted
                  exact ⟨.inr kinded, param, there, .inr ⟨same, rfl⟩⟩
                · cases converted

/-- A value is converted as the literal is for which it stands. -/
theorem Stands.coerce {params : List (StoredValue D J)} {expr : ValueExpr} {literal : Literal} (stands : Stands params expr literal)
    {column : String} {kind : DataTypeKind} {value : StoredValue D J} :
    coerce conversions expr params column kind = .ok value ↔
      convert conversions column kind (literalInput literal) = .ok value := by
  rcases stands with rfl | ⟨index, param, rfl, there, same⟩
  · exact Iff.rfl
  · rw [← mapError_ok (f := withoutName), coerce_parameter conversions there same, mapError_ok]
    rfl

/-- An integer is accepted in the range of the type. -/
theorem coerce_integer {params : List (StoredValue D J)} {expr : ValueExpr} {n : ℤ} (stands : Stands params expr (.integer n))
    (column : String) (kind : DataTypeKind) : (∃ value, coerce conversions expr params column kind = .ok value) ↔ InRange kind n := by
  constructor
  · rintro ⟨value, converted⟩
    exact (convertInteger_ok conversions ((stands.coerce conversions).mp converted)).1
  · intro range
    obtain ⟨value, converted⟩ := convertInteger_of_inRange conversions (.typeMismatch column kind "Integer") (.invalidLiteral column kind) range
    exact ⟨value, (stands.coerce conversions).mpr converted⟩

/-- What is accepted as a date or a date-time is one for the sanitizer. -/
theorem coerce_calendar {params : List (StoredValue D J)} {expr : ValueExpr} {text : String} (stands : Stands params expr (.string text))
    {column : String} {kind : DataTypeKind} {value : StoredValue D J} (converted : coerce conversions expr params column kind = .ok value) :
    (∀ d, value = .date d →
      (validateCalendarFields ⟨d.year, d.month, d.day, 0, 0, 0, 0, 0⟩ : Except (DbmsError J) Unit) = .ok ()) ∧
    ∀ dt, value = .dateTime dt → (validateCalendarFields dt : Except (DbmsError J) Unit) = .ok () := by
  have text := (stands.coerce conversions).mp converted
  constructor
  · rintro d rfl
    obtain ⟨kinded, _⟩ := convertText_ok conversions text
    obtain rfl : DataTypeKind.date = kind := Option.some.inj (eq_of_beq kinded)
    obtain ⟨_, found, same⟩ := Option.map_eq_some_iff.mp (okOr_ok.mp text)
    cases same
    have midnight : timeIsValid ⟨d.year, d.month, d.day, 0, 0, 0, 0, 0⟩ :=
      ⟨Nat.zero_lt_succ _, Nat.zero_lt_succ _, Nat.zero_lt_succ _, Nat.zero_lt_succ _⟩
    exact validateCalendarFields_ok ⟨(parseDate_some.mp found).2, midnight⟩
  · rintro dt rfl
    obtain ⟨kinded, _⟩ := convertText_ok conversions text
    obtain rfl : DataTypeKind.dateTime = kind := Option.some.inj (eq_of_beq kinded)
    obtain ⟨_, found, same⟩ := Option.map_eq_some_iff.mp (okOr_ok.mp text)
    cases same
    exact validateCalendarFields_ok (parseDatetime_some.mp found).2

/-- The canonical text of a value is read back. -/
def ReadsBack (params : List (StoredValue D J)) (text : List Char) (kind : DataTypeKind) (value : StoredValue D J) : Prop :=
  ∀ expr column, Stands params expr (.string (String.ofList text)) → coerce conversions expr params column kind = .ok value

theorem readsBack_date (params : List (StoredValue D J)) {d : Date} (valid : ValidDate d.year.toNat d.month.toNat d.day.toNat) :
    ReadsBack conversions params d.display .date (.date d) := by
  intro expr column stands
  refine (stands.coerce conversions).mpr (okOr_ok.mpr ?_)
  rw [String.toList_ofList, parseDate_display valid]
  rfl

theorem readsBack_dateTime (params : List (StoredValue D J)) {dt : DateTime} (valid : dt.CalendarValid)
    (offset : BelowOneDay dt.timezoneOffsetMinutes) : ReadsBack conversions params dt.display .dateTime (.dateTime dt) := by
  intro expr column stands
  refine (stands.coerce conversions).mpr (okOr_ok.mpr ?_)
  rw [String.toList_ofList, parseDatetime_display valid offset]
  rfl

theorem readsBack_uuid (params : List (StoredValue D J)) (bytes : {bytes : List UInt8 // bytes.length = 16}) :
    ReadsBack conversions params (displayUuid bytes.1) .uuid (.uuid bytes) := by
  intro expr column stands
  refine (stands.coerce conversions).mpr (okOr_ok.mpr ?_)
  rw [String.toList_ofList, parseUuid_display bytes]
  rfl

theorem readsBack_blob (params : List (StoredValue D J)) (bytes : List UInt8) :
    ReadsBack conversions params (hexText bytes) .blob (.blob bytes) := by
  intro expr column stands
  refine (stands.coerce conversions).mpr (okOr_ok.mpr ?_)
  rw [String.toList_ofList, parseHex_hexText bytes]
  rfl

/-- A converted value has the type of the column and is what is meant, unless a decimal
literal is rounded. Integers are accepted in the range of the type, parameters convert like
the literals they equal, canonical texts are read back, and the calendar check of the
sanitizer accepts every date that is read. -/
theorem coerce_keeps_meaning :
    (∀ params kind expr, KeepsMeaning conversions params kind expr ↔ ¬ IsRounded kind expr) ∧
    (∀ params expr n column kind, Stands params expr (.integer n) →
      ((∃ value, coerce conversions expr params column kind = .ok value) ↔ InRange kind n)) ∧
    (∀ (params : List (StoredValue D J)) index param literal column kind, params[index]? = some param →
      equalLiteral param = some literal → (coerce conversions (.parameter index) params column kind).mapError withoutName =
        (coerce conversions (.literal literal) params column kind).mapError withoutName) ∧
    (∀ params d, ValidDate d.year.toNat d.month.toNat d.day.toNat → ReadsBack conversions params d.display .date (.date d)) ∧
    (∀ params dt, dt.CalendarValid → BelowOneDay dt.timezoneOffsetMinutes →
      ReadsBack conversions params dt.display .dateTime (.dateTime dt)) ∧
    (∀ params bytes, ReadsBack conversions params (displayUuid bytes.1) .uuid (.uuid bytes)) ∧
    (∀ params bytes, ReadsBack conversions params (hexText bytes) .blob (.blob bytes)) ∧
    ∀ params expr text column kind value, Stands params expr (.string text) →
      coerce conversions expr params column kind = .ok value →
        (∀ d, value = .date d →
          (validateCalendarFields ⟨d.year, d.month, d.day, 0, 0, 0, 0, 0⟩ : Except (DbmsError J) Unit) = .ok ()) ∧
        ∀ dt, value = .dateTime dt → (validateCalendarFields dt : Except (DbmsError J) Unit) = .ok () :=
  ⟨fun params kind expr => keepsMeaning_iff conversions params kind expr,
    fun _ _ _ column kind stands => coerce_integer conversions stands column kind,
    fun _ _ _ _ column kind there same => coerce_parameter conversions there same column kind,
    fun params _ valid => readsBack_date conversions params valid,
    fun params _ valid offset => readsBack_dateTime conversions params valid offset,
    readsBack_uuid conversions, readsBack_blob conversions,
    fun _ _ _ _ _ _ stands converted => coerce_calendar conversions stands converted⟩

end Conversion

/-! ## Rounding to the nearest decimal -/

namespace NearestDecimal

/-- Halves are rounded away from zero. -/
def roundHalfAway (q : ℚ) : ℤ := if 0 ≤ q then ⌊q + 1 / 2⌋ else -⌊-q + 1 / 2⌋

theorem abs_roundHalfAway (q : ℚ) : |roundHalfAway q| = ⌊|q| + 1 / 2⌋ := by
  rw [roundHalfAway]
  split
  · rename_i positive
    rw [abs_of_nonneg positive, abs_of_nonneg (Int.floor_nonneg.mpr (by linarith))]
  · rename_i negative
    rw [abs_neg, abs_of_neg (lt_of_not_ge negative), abs_of_nonneg (Int.floor_nonneg.mpr (by linarith))]

theorem abs_roundHalfAway_lt {q : ℚ} : |roundHalfAway q| < 2 ^ 96 ↔ |q| < 2 ^ 96 - 1 / 2 := by
  rw [abs_roundHalfAway, Int.floor_lt, lt_sub_iff_add_lt]
  norm_cast

theorem roundHalfAway_int (n : ℤ) : roundHalfAway n = n := by
  rw [roundHalfAway]
  split
  · rw [Int.floor_eq_iff]
    constructor <;> linarith
  · rw [neg_eq_iff_eq_neg, Int.floor_eq_iff]
    push_cast
    constructor <;> linarith

/-- A coefficient and a scale. -/
abbrev Scaled := {made : ℤ × ℕ // |made.1| < 2 ^ 96 ∧ made.2 ≤ 28}

def number (d : Scaled) : ℚ := d.1.1 / 10 ^ d.1.2

/-- The nearest number with so many digits behind the point, if it is in range. -/
def attempt (q : ℚ) (scale : ℕ) : Option Scaled :=
  if fits : |roundHalfAway (q * 10 ^ scale)| < 2 ^ 96 ∧ scale ≤ 28 then some ⟨(roundHalfAway (q * 10 ^ scale), scale), fits⟩ else none

/-- As many digits behind the point as there is room for. -/
def nearest (q : ℚ) : ℕ → Option Scaled
  | 0 => attempt q 0
  | scale + 1 => (attempt q (scale + 1)).or (nearest q scale)

theorem attempt_exact {q : ℚ} {m : ℤ} {least scale : ℕ} {d : Scaled} (whole : q = m / 10 ^ least) (le : least ≤ scale)
    (made : attempt q scale = some d) : number d = q := by
  rw [attempt] at made
  split at made
  · obtain rfl := Option.some.inj made
    obtain ⟨more, rfl⟩ := Nat.exists_eq_add_of_le le
    have power : (10 : ℚ) ^ least ≠ 0 := pow_ne_zero _ (by norm_num)
    have power' : (10 : ℚ) ^ more ≠ 0 := pow_ne_zero _ (by norm_num)
    have shifted : q * 10 ^ (least + more) = ((m * 10 ^ more : ℤ) : ℚ) := by
      rw [whole, pow_add]
      push_cast
      field_simp
    rw [number]
    dsimp only
    rw [shifted, roundHalfAway_int, ← shifted, mul_div_assoc, div_self (pow_ne_zero _ (by norm_num)), mul_one]
  · cases made

theorem nearest_exact {q : ℚ} {m : ℤ} {least scale : ℕ} {d : Scaled} (whole : q = m / 10 ^ least) (small : |m| < 2 ^ 96)
    (le : least ≤ scale) (most : scale ≤ 28) (made : nearest q scale = some d) : number d = q := by
  induction scale with
  | zero => exact attempt_exact whole le made
  | succ scale ih =>
      rw [nearest] at made
      cases here : attempt q (scale + 1) with
      | some found =>
          rw [here] at made
          obtain rfl := Option.some.inj made
          exact attempt_exact whole le here
      | none =>
          rw [here] at made
          rcases Nat.lt_or_eq_of_le le with less | rfl
          · exact ih (by omega) (by omega) made
          · have fits : q * 10 ^ (scale + 1) = (m : ℚ) := by
              rw [whole]
              field_simp
            rw [attempt, dif_pos] at here
            · cases here
            · rw [fits, roundHalfAway_int]
              exact ⟨small, most⟩

theorem attempt_isSome {q : ℚ} {scale : ℕ} (most : scale ≤ 28) :
    (attempt q scale).isSome = true ↔ |q * 10 ^ scale| < 2 ^ 96 - 1 / 2 := by
  rw [← abs_roundHalfAway_lt, attempt]
  split
  · rename_i fits
    exact ⟨fun _ => fits.1, fun _ => rfl⟩
  · rename_i wide
    exact ⟨fun absent => (by cases absent), fun small => absurd ⟨small, most⟩ wide⟩

theorem nearest_isSome {q : ℚ} {scale : ℕ} (most : scale ≤ 28) : (nearest q scale).isSome = true ↔ |q| < 2 ^ 96 - 1 / 2 := by
  induction scale with
  | zero => rw [nearest, attempt_isSome most, pow_zero, mul_one]
  | succ scale ih =>
      rw [nearest, Option.isSome_or, Bool.or_eq_true, attempt_isSome most, ih (by omega)]
      constructor
      · rintro (shifted | small)
        · have power : (0 : ℚ) < 10 ^ (scale + 1) := pow_pos (by norm_num) _
          rw [abs_mul, abs_of_pos power] at shifted
          have grows : |q| * 1 ≤ |q| * 10 ^ (scale + 1) :=
            mul_le_mul_of_nonneg_left (one_le_pow₀ (by norm_num)) (abs_nonneg q)
          linarith
        · exact small
      · exact .inr

def fromInteger (n : ℤ) : Option Scaled := if small : |n| < 2 ^ 96 then some ⟨(n, 0), small, Nat.zero_le 28⟩ else none

theorem fromInteger_exact (n : ℤ) (d : Scaled) (made : fromInteger n = some d) : number d = n := by
  rw [fromInteger] at made
  split at made
  · obtain rfl := Option.some.inj made
    rw [number, pow_zero, div_one]
  · cases made

theorem fromInteger_isSome (n : ℤ) : (fromInteger n).isSome = true ↔ |n| < 2 ^ 96 := by
  rw [fromInteger]
  split
  · rename_i small
    exact ⟨fun _ => small, fun _ => rfl⟩
  · rename_i wide
    exact ⟨fun absent => (by cases absent), fun small => absurd small wide⟩

theorem number_isDecimal (d : Scaled) : IsDecimal (number d) := ⟨d.1.1, d.1.2, d.2.2, d.2.1, rfl⟩

theorem nearest_of_isDecimal (l : DecimalLiteral) (d : Scaled) (decimal : IsDecimal l.number) (made : nearest l.number 28 = some d) :
    number d = l.number := by
  obtain ⟨m, least, most, small, whole⟩ := decimal
  exact nearest_exact whole small most le_rfl made

theorem nearest_range (l : DecimalLiteral) : (nearest l.number 28).isSome = true ↔ |l.number| < 2 ^ 96 - 1 / 2 := nearest_isSome le_rfl

/-- Literals are rounded to the nearest decimal. -/
def conversions : Conversions Scaled Unit where
  number := number
  fromStr l := nearest l.number 28
  tryFromI128 := fromInteger
  parse s := if s = "null" then .ok () else .error "expected value"
  number_isDecimal := number_isDecimal
  fromStr_exact := nearest_of_isDecimal
  fromStr_isSome := nearest_range
  tryFromI128_exact := fromInteger_exact
  tryFromI128_isSome := fromInteger_isSome

/-- Digits with a one in the 29th place. -/
def tinyDigits : List Char := List.replicate 28 '0' ++ ['1']

theorem tinyDigits_ne_nil : tinyDigits ≠ [] := by decide

theorem tinyDigits_digits : ∀ c ∈ '0' :: tinyDigits, c.isDigit = true := by
  apply List.all_eq_true.mp
  decide

def tiny : DecimalLiteral := ⟨false, ['0'], tinyDigits, List.cons_ne_nil _ _, tinyDigits_ne_nil, tinyDigits_digits⟩

theorem tiny_number : tiny.number = 1 / 10 ^ 29 := by
  have zero : value ['0'] = 0 := rfl
  have one : value tinyDigits = 1 := rfl
  have length : tinyDigits.length = 29 := rfl
  change 1 * ((value ['0'] : ℚ) + value tinyDigits / 10 ^ tinyDigits.length) = _
  rw [zero, one, length]
  norm_num

theorem zero_scaled : |(0 : ℤ)| < 2 ^ 96 ∧ 28 ≤ 28 := by decide

/-- Zero with 28 digits behind the point. -/
def zero : Scaled := ⟨(0, 28), zero_scaled⟩

theorem tiny_rounded : nearest tiny.number 28 = some zero := by
  have shifted : roundHalfAway (tiny.number * 10 ^ 28) = 0 := by
    rw [tiny_number, roundHalfAway, if_pos (by norm_num), Int.floor_eq_iff]
    norm_num
  have found : attempt tiny.number 28 = some zero := by
    have fits : |roundHalfAway (tiny.number * 10 ^ 28)| < 2 ^ 96 ∧ 28 ≤ 28 := by
      rw [shifted]
      exact zero_scaled
    rw [attempt, dif_pos fits]
    exact congrArg some (Subtype.ext (Prod.ext shifted rfl))
  rw [nearest, found]
  rfl

theorem tiny_ne_zero : number zero ≠ tiny.number := by
  rw [tiny_number]
  change ((0 : ℤ) : ℚ) / 10 ^ 28 ≠ 1 / 10 ^ 29
  norm_num

/-- The literal is accepted and becomes zero. -/
theorem tiny_becomes_zero :
    coerce conversions (.literal (.float tiny)) [] "price" .decimal = .ok (.decimal zero) ∧
      ¬ Means conversions [] (.decimal zero) (.literal (.float tiny)) := by
  constructor
  · change convert conversions "price" .decimal (.float tiny, "Float") = .ok (.decimal zero)
    rw [convert, if_pos rfl]
    change okOr ((nearest tiny.number 28).map StoredValue.decimal) _ = _
    rw [tiny_rounded]
    rfl
  · intro meant
    cases meant with
    | float same => exact tiny_ne_zero same

theorem tiny_isRounded : IsRounded .decimal (.literal (.float tiny)) := by
  refine ⟨rfl, tiny, rfl, fun decimal => tiny_ne_zero (nearest_of_isDecimal tiny zero decimal tiny_rounded), ?_⟩
  rw [tiny_number]
  norm_num

/-- A literal is rounded, and a parameter is kept. -/
theorem rounded_and_kept :
    ¬ KeepsMeaning conversions [.int8 5] .decimal (.literal (.float tiny)) ∧
      KeepsMeaning conversions [.int8 5] .uint8 (.parameter 0) ∧
        ∃ value, coerce conversions (.parameter 0) [.int8 5] "age" .uint8 = .ok value := by
  obtain ⟨keeps, accepts, _⟩ := coerce_keeps_meaning conversions
  refine ⟨fun kept => (keeps _ _ _).mp kept tiny_isRounded, (keeps _ _ _).mpr ?_, (accepts _ _ 5 "age" .uint8 ?_).mpr ⟨by decide, by decide⟩⟩
  · rintro ⟨kind, _⟩
    cases kind
  · exact .inr ⟨0, .int8 5, rfl, rfl, rfl⟩

end NearestDecimal
end WasmDbms.Sql
