import Mathlib.Algebra.Order.Ring.Rat
import Mathlib.Data.List.Lex
import Mathlib.Data.Int.Cast.Lemmas
import Mathlib.Data.Nat.Cast.Order.Ring
import Mathlib.Data.Prod.Lex
import Mathlib.Data.String.Basic
import Mathlib.Order.WithBot

/-!
# Values and columns

`Value` with the order that is derived for it: by variant, then by the content of
the variant. Values that compare as equal are one value here: a decimal is its
number, a custom value its type tag and encoding. The type of JSON documents and
its order are a parameter.
-/
namespace WasmDbms

@[ext]
structure Date where
  year : UInt16
  month : UInt8
  day : UInt8
  deriving DecidableEq, Repr

@[ext]
structure DateTime where
  year : UInt16
  month : UInt8
  day : UInt8
  hour : UInt8
  minute : UInt8
  second : UInt8
  microsecond : UInt32
  timezoneOffsetMinutes : Int16
  deriving DecidableEq

/-- A value of any data type. -/
inductive Value (J : Type) where
  | blob (bytes : List UInt8)
  | boolean (b : Bool)
  | date (d : Date)
  | dateTime (d : DateTime)
  | decimal (q : ℚ)
  | int8 (i : Int8)
  | int16 (i : Int16)
  | int32 (i : Int32)
  | int64 (i : Int64)
  | json (j : J)
  | null
  | text (s : String)
  | uint8 (n : UInt8)
  | uint16 (n : UInt16)
  | uint32 (n : UInt32)
  | uint64 (n : UInt64)
  | uuid (bytes : BitVec 128)
  | custom (typeTag : String) (encoded : List UInt8)

namespace Value
variable {J : Type}

def isNull : Value J → Bool
  | null => true
  | _ => false

def typeName : Value J → String
  | blob _ => "Blob"
  | boolean _ => "Boolean"
  | date _ => "Date"
  | dateTime _ => "DateTime"
  | decimal _ => "Decimal"
  | int8 _ => "Int8"
  | int16 _ => "Int16"
  | int32 _ => "Int32"
  | int64 _ => "Int64"
  | json _ => "Json"
  | null => "Null"
  | text _ => "Text"
  | uint8 _ => "Uint8"
  | uint16 _ => "Uint16"
  | uint32 _ => "Uint32"
  | uint64 _ => "Uint64"
  | uuid _ => "Uuid"
  | custom typeTag _ => s!"Custom({typeTag})"

/-- The position of the variant. -/
def tag : Value J → ℕ
  | blob _ => 0
  | boolean _ => 1
  | date _ => 2
  | dateTime _ => 3
  | decimal _ => 4
  | int8 _ => 5
  | int16 _ => 6
  | int32 _ => 7
  | int64 _ => 8
  | json _ => 9
  | null => 10
  | text _ => 11
  | uint8 _ => 12
  | uint16 _ => 13
  | uint32 _ => 14
  | uint64 _ => 15
  | uuid _ => 16
  | custom _ _ => 17

def chars (s : String) : List ℤ := s.toList.map fun c => (c.toNat : ℤ)

def codes (bytes : List UInt8) : List ℤ := bytes.map fun b => (b.toNat : ℤ)

/-- The content of a variant: a document, a number, a sequence, a second sequence. -/
def content : Value J → WithBot J ×ₗ ℚ ×ₗ List ℤ ×ₗ List ℤ
  | blob bytes => toLex (⊥, toLex (0, toLex (codes bytes, [])))
  | boolean b => toLex (⊥, toLex ((b.toNat : ℚ), toLex ([], [])))
  | date d => toLex (⊥, toLex (0, toLex ([(d.year.toNat : ℤ), d.month.toNat, d.day.toNat], [])))
  | dateTime d => toLex (⊥, toLex (0, toLex ([(d.year.toNat : ℤ), d.month.toNat, d.day.toNat,
      d.hour.toNat, d.minute.toNat, d.second.toNat, d.microsecond.toNat,
      d.timezoneOffsetMinutes.toInt], [])))
  | decimal q => toLex (⊥, toLex (q, toLex ([], [])))
  | int8 i => toLex (⊥, toLex ((i.toInt : ℚ), toLex ([], [])))
  | int16 i => toLex (⊥, toLex ((i.toInt : ℚ), toLex ([], [])))
  | int32 i => toLex (⊥, toLex ((i.toInt : ℚ), toLex ([], [])))
  | int64 i => toLex (⊥, toLex ((i.toInt : ℚ), toLex ([], [])))
  | json j => toLex ((j : WithBot J), toLex (0, toLex ([], [])))
  | null => toLex (⊥, toLex (0, toLex ([], [])))
  | text s => toLex (⊥, toLex (0, toLex (chars s, [])))
  | uint8 n => toLex (⊥, toLex ((n.toNat : ℚ), toLex ([], [])))
  | uint16 n => toLex (⊥, toLex ((n.toNat : ℚ), toLex ([], [])))
  | uint32 n => toLex (⊥, toLex ((n.toNat : ℚ), toLex ([], [])))
  | uint64 n => toLex (⊥, toLex ((n.toNat : ℚ), toLex ([], [])))
  | uuid bytes => toLex (⊥, toLex ((bytes.toNat : ℚ), toLex ([], [])))
  | custom typeTag encoded => toLex (⊥, toLex (0, toLex (chars typeTag, codes encoded)))

def key (v : Value J) : ℕ ×ₗ WithBot J ×ₗ ℚ ×ₗ List ℤ ×ₗ List ℤ := toLex (v.tag, v.content)

theorem chars_injective : Function.Injective chars := by
  intro s t same
  apply String.toList_injective
  refine List.map_injective_iff.mpr ?_ same
  intro c d equal
  exact Char.ext (UInt32.toNat_inj.mp (Int.ofNat_inj.mp equal))

theorem codes_injective : Function.Injective codes :=
  List.map_injective_iff.mpr fun _ _ equal => UInt8.toNat_inj.mp (Int.ofNat_inj.mp equal)

theorem key_injective : Function.Injective (key (J := J)) := by
  intro v w same
  have tags : v.tag = w.tag := congrArg (fun k => (ofLex k).1) same
  have contents : v.content = w.content := congrArg (fun k => (ofLex k).2) same
  cases v <;> cases w <;> first
    | exact absurd tags (Nat.ne_of_beq_eq_false rfl)
    | simp only [content, EmbeddingLike.apply_eq_iff_eq, Prod.mk.injEq, List.cons.injEq, true_and,
        and_true, codes_injective.eq_iff, chars_injective.eq_iff, WithBot.coe_inj, Nat.cast_inj,
        Int.cast_inj, UInt8.toNat_inj, UInt16.toNat_inj,
        UInt32.toNat_inj, UInt64.toNat_inj, Int8.toInt_inj, Int16.toInt_inj, Int32.toInt_inj,
        Int64.toInt_inj, BitVec.toNat_inj] at contents
  case boolean.boolean b c =>
    cases b <;> cases c <;> first
      | rfl
      | cases contents
  case date.date d e =>
    obtain ⟨year, month, day⟩ := contents
    exact congrArg _ (Date.ext year month day)
  case dateTime.dateTime d e =>
    obtain ⟨year, month, day, hour, minute, second, microsecond, offset⟩ := contents
    exact congrArg _ (DateTime.ext year month day hour minute second microsecond offset)
  case custom.custom t x u y => rw [contents.1, contents.2]
  all_goals first
    | exact congrArg _ contents
    | rfl

/-- The derived order. -/
instance [LinearOrder J] : LinearOrder (Value J) := LinearOrder.lift' key key_injective

instance [LinearOrder J] : LawfulBEq (Value J) where
  eq_of_beq := of_decide_eq_true
  rfl := decide_eq_true rfl

section Order
variable [LinearOrder J]

theorem le_iff (v w : Value J) : v ≤ w ↔ key v ≤ key w := Iff.rfl

theorem lt_iff (v w : Value J) : v < w ↔ key v < key w := Iff.rfl

theorem lt_of_tag_lt {v w : Value J} (before : v.tag < w.tag) : v < w :=
  Prod.Lex.toLex_lt_toLex.mpr (.inl before)

theorem le_of_content_le {v w : Value J} (tags : v.tag = w.tag) (contents : v.content ≤ w.content) :
    v ≤ w :=
  Prod.Lex.toLex_le_toLex.mpr (.inr ⟨tags, contents⟩)

/-- Contents without a document compare by their number first. -/
theorem number_le {x y : ℚ} {xs ys : List ℤ ×ₗ List ℤ} (numbers : x < y ∨ x = y ∧ xs ≤ ys) :
    (toLex ((⊥ : WithBot J), toLex (x, xs)) : WithBot J ×ₗ ℚ ×ₗ List ℤ ×ₗ List ℤ)
      ≤ toLex (⊥, toLex (y, ys)) :=
  Prod.Lex.toLex_le_toLex.mpr (.inr ⟨rfl, Prod.Lex.toLex_le_toLex.mpr numbers⟩)

theorem zero_le_number {n : ℕ} :
    (toLex ((⊥ : WithBot J), toLex (((0 : ℕ) : ℚ), toLex (([] : List ℤ), ([] : List ℤ))))
        : WithBot J ×ₗ ℚ ×ₗ List ℤ ×ₗ List ℤ)
      ≤ toLex (⊥, toLex ((n : ℚ), toLex ([], []))) := by
  refine number_le ?_
  obtain positive | zero := (Nat.zero_le n).lt_or_eq
  · exact .inl (Nat.cast_lt.mpr positive)
  · exact .inr ⟨by rw [zero], le_refl _⟩

theorem empty_text_le (s : String) : (text "" : Value J) ≤ text s := by
  refine le_of_content_le rfl (number_le (.inr ⟨rfl, ?_⟩))
  obtain same | longer := (chars s).eq_nil_or_concat'
  · exact le_of_eq (by rw [same]; rfl)
  · refine Prod.Lex.toLex_le_toLex.mpr (.inl ?_)
    obtain ⟨xs, x, form⟩ := longer
    rw [form]
    cases xs <;> exact List.nil_lt_cons _ _

end Order
end Value

inductive DataTypeKind where
  | blob
  | boolean
  | date
  | dateTime
  | decimal
  | int8
  | int16
  | int32
  | int64
  | json
  | text
  | uint8
  | uint16
  | uint32
  | uint64
  | uuid
  | custom (tag : String)
  deriving DecidableEq, Repr

/-- The data type a value other than `Null` belongs to. -/
def Value.kind {J : Type} : Value J → Option DataTypeKind
  | .blob _ => some .blob
  | .boolean _ => some .boolean
  | .date _ => some .date
  | .dateTime _ => some .dateTime
  | .decimal _ => some .decimal
  | .int8 _ => some .int8
  | .int16 _ => some .int16
  | .int32 _ => some .int32
  | .int64 _ => some .int64
  | .json _ => some .json
  | .null => none
  | .text _ => some .text
  | .uint8 _ => some .uint8
  | .uint16 _ => some .uint16
  | .uint32 _ => some .uint32
  | .uint64 _ => some .uint64
  | .uuid _ => some .uuid
  | .custom typeTag _ => some (.custom typeTag)

structure ForeignKeyDef where
  localColumn : String
  foreignTable : String
  foreignColumn : String
  deriving DecidableEq, Repr

structure ColumnDef where
  name : String
  dataType : DataTypeKind
  autoIncrement : Bool
  nullable : Bool
  primaryKey : Bool
  unique : Bool
  foreignKey : Option ForeignKeyDef
  deriving DecidableEq, Repr

/-- The values a record can hold in a column. -/
def ColumnDef.Admits {J : Type} (column : ColumnDef) (v : Value J) : Prop :=
  v.kind = some column.dataType ∨ (v = .null ∧ column.nullable = true)

/-- The columns of an index, in order. -/
structure IndexDef where
  columns : List String
  deriving DecidableEq, Repr

/-- The values of a record, `[(ColumnDef, Value)]`. -/
abbrev Row (J : Type) := List (ColumnDef × Value J)

/-- The value of the column of this name. -/
def findColumn {J : Type} (field : String) (values : Row J) : Option (Value J) :=
  (values.find? fun entry => entry.1.name == field).map Prod.snd

/-- The index key of a record. A column that is not found counts as `Null`. -/
def indexKey {J : Type} (columns : List String) (values : Row J) : List (Value J) :=
  columns.map fun column => (findColumn column values).getD .null

/-- A record of a table: its columns in order, each with a value of its type. -/
structure RowOf {J : Type} (columns : List ColumnDef) (values : Row J) : Prop where
  names : values.map Prod.fst = columns
  typed : ∀ entry ∈ values, entry.1.Admits entry.2

end WasmDbms
