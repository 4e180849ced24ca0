import WasmDbms.Db.AutoIncrement
import WasmDbms.Migration.Codec
import WasmDbms.Migration.Diff

/-!
# Stored tables

The tables of the schema registry, and how they are registered: a new table has the
snapshot it is registered with, no records, and a counter for each auto-increment
column.
-/
namespace WasmDbms
open Result

variable {D J : Type}

/-- The entries of the index trees of a table by their columns. -/
abbrev IndexTrees (D J : Type) := List (List String × List (List (StoredValue D J) × RecordAddress))

/-- A registered table: its snapshot, its records in storage order, its index ledger, and
the registry on its autoincrement page, if it has that page. -/
structure StoredTable (D J : Type) where
  snapshot : TableSchemaSnapshot (StoredValue D J)
  records : List (RecordAddress × List UInt8)
  indexes : IndexTrees D J
  counters : Option (AutoincrementRegistry J)

abbrev Tables (D J : Type) := List (StoredTable D J)

/-- What the engine runs on: the formats, the fingerprints of table names, the place
a record is written to, the check of an index key against the size of a page, and the
typed reads of the compiled schema, with a condition on one column or none. -/
structure MigrationEngine (D J : Type) where
  formats : Formats D J
  fingerprint : String → ℕ
  place : List (RecordAddress × List UInt8) → ℕ → List UInt8 → Except Fault RecordAddress
  checkKey : List (StoredValue D J) → Except Fault Unit
  select : Tables D J → String → Option (String × StoredValue D J) →
    Except (MigrationFailure J) (List (List (String × StoredValue D J)))

namespace MigrationEngine
variable (engine : MigrationEngine D J)

def violation {α : Type} (table column reason : String) : Except (MigrationFailure J) α :=
  .error (.migration (.constraintViolation table column reason))

/-! ## Registration -/

/-- `check_field_len`. -/
def checkFieldLen (field : String) (len max : ℕ) : Except Fault ℕ :=
  if len > max then
    .error (.error (.constraintViolation s!"{field} is {len}, but the schema snapshot format allows at most {max}"))
  else .ok len

/-- `encode` of `Value`, for its length. -/
def encodedLen : StoredValue D J → ℕ
  | .custom value => 1 + 2 + value.typeTag.utf8ByteSize + 2 + value.encoded.length
  | value => 1 + (value.encode engine.formats).length

def indexEncodedLen (table : String) (index : IndexSnapshot) : Except Fault ℕ := do
  let _ ← checkFieldLen s!"table `{table}` index column count" index.columns.length 255
  let lens ← index.columns.mapM fun column =>
    checkFieldLen s!"table `{table}` index column `{column}` name length" column.utf8ByteSize 255
  return 2 + (lens.map (1 + ·)).sum

def foreignKeyEncodedLen (column : String) (fk : ForeignKeySnapshot) : Except Fault ℕ := do
  let table ← checkFieldLen s!"column `{column}` foreign key table name length" fk.table.utf8ByteSize 255
  let target ← checkFieldLen s!"column `{column}` foreign key column name length" fk.column.utf8ByteSize 255
  return 1 + table + 1 + target + 1

def dataTypeEncodedLen (column : String) : DataTypeSnapshot → Except Fault ℕ
  | .custom ⟨tag, wireSize⟩ => do
      let len ← checkFieldLen s!"column `{column}` custom type tag length" tag.utf8ByteSize 255
      let header := match wireSize with
        | .fixed _ => 5
        | .lengthPrefixed => 1
      return 1 + header + 1 + len
  | _ => .ok 1

def foreignKeyLen (column : String) : Option ForeignKeySnapshot → Except Fault ℕ
  | none => .ok 0
  | some fk => do
      let len ← foreignKeyEncodedLen column fk
      let checked ← checkFieldLen s!"column `{column}` foreign key encoded length" len 65535
      return 2 + checked

def defaultLen (column : String) : Option (StoredValue D J) → Except Fault ℕ
  | none => .ok 0
  | some value => do
      let checked ← checkFieldLen s!"column `{column}` default value encoded length" (engine.encodedLen value) 65535
      return 2 + checked

def columnEncodedLen (table : String) (column : ColumnSnapshot (StoredValue D J)) : Except Fault ℕ := do
  let name ← checkFieldLen s!"table `{table}` column name length" column.name.utf8ByteSize 255
  let type ← dataTypeEncodedLen column.name column.dataType
  let fk ← foreignKeyLen column.name column.foreignKey
  let default ← engine.defaultLen column.name column.default
  return 1 + name + type + 3 + fk + default

/-- `validate_encoding`. -/
def validateEncoding (s : TableSchemaSnapshot (StoredValue D J)) : Except Fault Unit := do
  let name ← checkFieldLen "table name length" s.name.utf8ByteSize 255
  let key ← checkFieldLen s!"table `{s.name}` primary key name length" s.primaryKey.utf8ByteSize 255
  let _ ← checkFieldLen s!"table `{s.name}` column count" s.columns.length 65535
  let columns ← s.columns.mapM fun column => do
    let len ← engine.columnEncodedLen s.name column
    checkFieldLen s!"column `{s.name}.{column.name}` encoded length" len 65535
  let _ ← checkFieldLen s!"table `{s.name}` index count" s.indexes.length 65535
  let indexes ← s.indexes.mapM fun index => do
    let len ← indexEncodedLen s.name index
    checkFieldLen s!"table `{s.name}` index encoded length" len 65535
  let total := 1 + 1 + name + 1 + key + 4 + 2 + (columns.map (2 + ·)).sum + 2 + (indexes.map (2 + ·)).sum
  let _ ← checkFieldLen s!"table `{s.name}` schema snapshot length" total 65535
  return ()

/-- `IndexLedger::validate_columns`. -/
def validateIndexColumns (columns : List String) : Except Fault Unit :=
  match columns.find? fun column => column.utf8ByteSize > 255 with
  | some column => .error (.error (.constraintViolation
      s!"index column name `{column}` is {column.utf8ByteSize} bytes long, maximum is 255"))
  | none => .ok ()

/-- `AutoincrementLedger::snapshot_zero`, and `zero` where it is `some`. -/
def snapshotZero : DataTypeSnapshot → Option (Value J)
  | .int8 => some (.int8 0)
  | .int16 => some (.int16 0)
  | .int32 => some (.int32 0)
  | .int64 => some (.int64 0)
  | .uint8 => some (.uint8 0)
  | .uint16 => some (.uint16 0)
  | .uint32 => some (.uint32 0)
  | .uint64 => some (.uint64 0)
  | _ => none

def autoColumns (columns : List (ColumnSnapshot (StoredValue D J))) : List (ColumnSnapshot (StoredValue D J)) :=
  columns.filter ColumnSnapshot.autoIncrement

/-- `AutoincrementRegistry::validate_columns`. -/
def validateCounters (columns : List (ColumnSnapshot (StoredValue D J))) : Except Fault Unit :=
  match (autoColumns columns).find? fun column => column.name.utf8ByteSize > 255 with
  | some column => .error (.error (.constraintViolation
      s!"autoincrement column name `{column.name}` is {column.name.utf8ByteSize} bytes long, maximum is 255"))
  | none =>
      if (autoColumns columns).length > 255 then .error (.error (.constraintViolation
        s!"table has {(autoColumns columns).length} autoincrement columns, maximum is 255"))
      else .ok ()

/-- `AutoincrementLedger::validate_snapshot`. -/
def validateCounterTypes (columns : List (ColumnSnapshot (StoredValue D J))) : Except Fault Unit :=
  match (autoColumns columns).find? fun column => (snapshotZero (J := J) column.dataType).isNone with
  | some column => .error (.error (.constraintViolation
      s!"unsupported autoincrement type for column `{column.name}`: {engine.formats.debugType column.dataType}"))
  | none => validateCounters columns

/-- `init`, for one column. -/
def initCounter (registry : AutoincrementRegistry J) (column : ColumnSnapshot (StoredValue D J)) :
    AutoincrementRegistry J :=
  match snapshotZero column.dataType with
  | some zero => Function.update registry column.name (some zero)
  | none => registry

/-- The registry `AutoincrementLedger::init_from_snapshot` writes. -/
def initCounters (columns : List (ColumnSnapshot (StoredValue D J))) : AutoincrementRegistry J :=
  columns.foldl initCounter fun _ => none

/-- The autoincrement page of a new table: it has one if a column asks for it. -/
def newCounters (columns : List (ColumnSnapshot (StoredValue D J))) : Option (AutoincrementRegistry J) :=
  if (autoColumns columns).isEmpty then none else some (initCounters (autoColumns columns))

/-- The ledger `init_from_keys` writes: an empty tree for each key. -/
def initIndexes (keys : List (List String)) : IndexTrees D J := keys.dedup.map fun columns => (columns, [])

def newTable (s : TableSchemaSnapshot (StoredValue D J)) : StoredTable D J :=
  ⟨s, [], initIndexes (s.indexes.map IndexSnapshot.columns), newCounters s.columns⟩

/-- The entry of the schema registry for the fingerprint of a name. -/
def find (tables : Tables D J) (name : String) : Option (StoredTable D J) :=
  tables.find? fun t => engine.fingerprint t.snapshot.name == engine.fingerprint name

/-- `register_table_from_snapshot`. -/
def registerTableFromSnapshot (tables : Tables D J) (s : TableSchemaSnapshot (StoredValue D J)) :
    Except Fault (Tables D J) :=
  match engine.find tables s.name with
  | some t =>
      if t.snapshot.name ≠ s.name then .error (.error (.nameCollision s.name t.snapshot.name)) else .ok tables
  | none => do
      engine.validateEncoding s
      engine.validateCounterTypes s.columns
      let _ ← s.indexes.mapM fun index => validateIndexColumns index.columns
      return tables ++ [newTable s]

/-- `register_table`: a column type without a zero makes it panic. -/
def registerTable (tables : Tables D J) (table : TableType (StoredValue D J)) : Except Fault (Tables D J) :=
  match engine.find tables table.name with
  | some t =>
      if t.snapshot.name ≠ table.name then .error (.error (.nameCollision table.name t.snapshot.name)) else .ok tables
  | none => do
      engine.validateEncoding table.schemaSnapshot
      let _ ← table.indexes.mapM validateIndexColumns
      validateCounters table.schemaSnapshot.columns
      if (autoColumns table.schemaSnapshot.columns).any fun c => (snapshotZero (J := J) c.dataType).isNone then
        .error .panic
      else return tables ++ [newTable table.schemaSnapshot]

/-- `unregister_table`. -/
def unregisterTable (tables : Tables D J) (name : String) : Tables D J :=
  tables.filter fun t => engine.fingerprint t.snapshot.name != engine.fingerprint name

end MigrationEngine
end WasmDbms
