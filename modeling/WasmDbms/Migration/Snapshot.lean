import Mathlib.Algebra.BigOperators.Group.List.Basic
import WasmDbms.Db.Value
import WasmDbms.Memory.UnclaimedPages

/-!
# Schema snapshots

What is stored of a table type, and the snapshot a table type has. `V` is the type
of the default values.
-/
namespace WasmDbms

/-- How many bytes of a record a column of a custom type takes. -/
inductive WireSize where
  | fixed (size : ℕ)
  | lengthPrefixed
  deriving DecidableEq, Repr

/-- `from_data_size`. -/
def WireSize.fromDataSize : DataSize → WireSize
  | .fixed size => .fixed size
  | .dynamic => .lengthPrefixed

structure CustomDataTypeSnapshot where
  tag : String
  wireSize : WireSize
  deriving DecidableEq, Repr

inductive DataTypeSnapshot where
  | blob
  | boolean
  | custom (type : CustomDataTypeSnapshot)
  | date
  | datetime
  | decimal
  | float32
  | float64
  | int16
  | int32
  | int64
  | int8
  | json
  | text
  | uuid
  | uint16
  | uint32
  | uint64
  | uint8
  deriving DecidableEq, Repr

inductive OnDeleteSnapshot where
  | restrict
  | cascade
  deriving DecidableEq, Repr

structure ForeignKeySnapshot where
  table : String
  column : String
  onDelete : OnDeleteSnapshot
  deriving DecidableEq, Repr

structure IndexSnapshot where
  columns : List String
  unique : Bool
  deriving DecidableEq, Repr

structure ColumnSnapshot (V : Type) where
  name : String
  dataType : DataTypeSnapshot
  nullable : Bool
  autoIncrement : Bool
  unique : Bool
  primaryKey : Bool
  foreignKey : Option ForeignKeySnapshot
  default : Option V
  deriving DecidableEq

structure TableSchemaSnapshot (V : Type) where
  version : ℕ
  name : String
  primaryKey : String
  alignment : ℕ
  columns : List (ColumnSnapshot V)
  indexes : List IndexSnapshot
  deriving DecidableEq

/-- `latest_version`. -/
def schemaSnapshotVersion : ℕ := 1

/-! ## Table types -/

/-- The sizes of a list of types that all have a fixed one. -/
def DataSize.fixedSizes : List DataSize → Option (List ℕ)
  | [] => some []
  | .fixed size :: sizes => (fixedSizes sizes).map (size :: ·)
  | .dynamic :: _ => none

/-- A type that implements `Encode`, by its encodings. Those of a type of fixed size
have that size. -/
structure Encoding where
  dataSize : DataSize
  codes : Set (List UInt8)
  fixed : ∀ size, dataSize = .fixed size → ∀ code ∈ codes, code.length = size

namespace Encoding

/-- `impl_size_const`. -/
def derivedSize (fields : List Encoding) : DataSize :=
  match DataSize.fixedSizes (fields.map dataSize) with
  | some sizes => .fixed sizes.sum
  | none => .dynamic

/-- The encodings of the fields one after the other. -/
inductive Codes : List Encoding → List UInt8 → Prop
  | nil : Codes [] []
  | cons {field : Encoding} {fields : List Encoding} {code rest : List UInt8} (first : code ∈ field.codes)
      (later : Codes fields rest) : Codes (field :: fields) (code ++ rest)

theorem Codes.length_eq {fields : List Encoding} {code : List UInt8} (made : Codes fields code)
    {sizes : List ℕ} (fixed : DataSize.fixedSizes (fields.map dataSize) = some sizes) : code.length = sizes.sum := by
  induction made generalizing sizes with
  | nil =>
      cases fixed
      rfl
  | @cons field fields code rest first later ih =>
      rw [List.map_cons] at fixed
      cases known : field.dataSize with
      | fixed size =>
          rw [known, DataSize.fixedSizes] at fixed
          obtain ⟨others, sized, rfl⟩ := Option.map_eq_some_iff.mp fixed
          rw [List.length_append, field.fixed size known code first, ih sized, List.sum_cons]
      | dynamic =>
          rw [known, DataSize.fixedSizes] at fixed
          cases fixed

/-- `#[derive(Encode)]`: the fields of a struct, one after the other. -/
def derive (fields : List Encoding) : Encoding where
  dataSize := derivedSize fields
  codes := {code | Codes fields code}
  fixed size known code made := by
    unfold derivedSize at known
    split at known
    next sizes sized =>
      cases known
      exact made.length_eq sized
    next => cases known

end Encoding

/-- The type of a field, `Nullable` stripped. -/
inductive FieldType where
  | blob
  | boolean
  | custom (tag : String) (encoding : Encoding)
  | date
  | dateTime
  | decimal
  | int8
  | int16
  | int32
  | int64
  | json
  | text
  | uint8
  | uint16
  | uint32
  | uint64
  | uuid

namespace FieldType

/-- `Encode::SIZE`. -/
def dataSize : FieldType → DataSize
  | blob | json | text => .dynamic
  | custom _ encoding => encoding.dataSize
  | boolean | int8 | uint8 => .fixed 1
  | int16 | uint16 => .fixed 2
  | date | int32 | uint32 => .fixed 4
  | int64 | uint64 => .fixed 8
  | dateTime => .fixed 13
  | decimal | uuid => .fixed 16

/-- `data_type_to_snapshot` of the data type kind of the field. -/
def snapshot : FieldType → DataTypeSnapshot
  | blob => .blob
  | boolean => .boolean
  | custom tag encoding => .custom ⟨tag, .fromDataSize encoding.dataSize⟩
  | date => .date
  | dateTime => .datetime
  | decimal => .decimal
  | int8 => .int8
  | int16 => .int16
  | int32 => .int32
  | int64 => .int64
  | json => .json
  | text => .text
  | uint8 => .uint8
  | uint16 => .uint16
  | uint32 => .uint32
  | uint64 => .uint64
  | uuid => .uuid

end FieldType

/-- A field of a struct with `#[derive(Table)]`. -/
structure Field (V : Type) where
  name : String
  type : FieldType
  nullable : Bool
  autoIncrement : Bool
  unique : Bool
  primaryKey : Bool
  foreignKey : Option ForeignKeyDef
  default : Option V
  renamedFrom : List String

/-- `Encode::SIZE` of the type of a field. -/
def Field.dataSize {V : Type} (field : Field V) : DataSize :=
  if field.nullable then .dynamic else field.type.dataSize

/-- A struct with `#[derive(Table)]`. -/
structure TableType (V : Type) where
  name : String
  primaryKey : String
  fields : List (Field V)
  indexes : List (List String)
  alignment : Option ℕ
  fieldNames : (fields.map Field.name).Nodup

namespace TableType
variable {V : Type}

/-- `impl_alignment_const`. -/
def recordAlignment (table : TableType V) : ℕ :=
  if table.fields.isEmpty then 1
  else match DataSize.fixedSizes (table.fields.map Field.dataSize) with
    | some sizes => if sizes.sum = 0 then 1 else sizes.sum
    | none => table.alignment.getD defaultAlignment

/-- The column of a field: a primary key is unique. -/
def columnSnapshot (field : Field V) : ColumnSnapshot V where
  name := field.name
  dataType := field.type.snapshot
  nullable := field.nullable
  autoIncrement := field.autoIncrement
  unique := field.unique || field.primaryKey
  primaryKey := field.primaryKey
  foreignKey := field.foreignKey.map fun fk => ⟨fk.foreignTable, fk.foreignColumn, .restrict⟩
  default := field.default

def uniqueIndex (table : TableType V) : List String → Bool
  | [column] => (table.fields.find? fun field => field.name == column).any fun field =>
      field.unique || field.primaryKey
  | _ => false

/-- `schema_snapshot`. -/
def schemaSnapshot (table : TableType V) : TableSchemaSnapshot V where
  version := schemaSnapshotVersion
  name := table.name
  primaryKey := table.primaryKey
  alignment := table.recordAlignment
  columns := table.fields.map columnSnapshot
  indexes := table.indexes.map fun columns => ⟨columns, table.uniqueIndex columns⟩

end TableType
end WasmDbms
