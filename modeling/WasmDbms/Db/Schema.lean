import WasmDbms.Db.Reader
import WasmDbms.Lib.Result

/-!
# The schema of a database

What the operations use of the table types, and the foreign keys between them.
-/
namespace WasmDbms

variable {J : Type}

/-- A table type: `TableSchema`, with the sanitizers and validators of its columns.
The first index is the one of the primary key. -/
structure TableDef (J : Type) where
  name : String
  columns : List ColumnDef
  primaryKey : String
  indexes : List IndexDef
  sanitizer : String → Option (Value J → Except (DbmsError J) (Value J))
  validator : String → Option (Value J → Except (DbmsError J) Unit)
  columnNames : (columns.map ColumnDef.name).Nodup
  keyed : ∃ c ∈ columns, c.name = primaryKey ∧ c.primaryKey = true
  oneKey : ∀ c ∈ columns, c.primaryKey = true → c.name = primaryKey
  indexNames : (indexes.map IndexDef.columns).Nodup
  keyIndex : indexes ≠ []

/-- The tables of a database. A foreign key stands in the column it names and refers
to a column of the table it names. -/
structure DatabaseSchema (J : Type) where
  tables : List (TableDef J)
  names : (tables.map TableDef.name).Nodup
  local_ : ∀ t ∈ tables, ∀ c ∈ t.columns, ∀ fk, c.foreignKey = some fk → fk.localColumn = c.name
  foreign : ∀ t ∈ tables, ∀ c ∈ t.columns, ∀ fk, c.foreignKey = some fk →
    ∀ t' ∈ tables, t'.name = fk.foreignTable → ∃ c' ∈ t'.columns, c'.name = fk.foreignColumn

/-- A record has a value in each column of its table. -/
theorem RowOf.find {columns : List ColumnDef} {values : Row J} (row : RowOf columns values)
    {c : ColumnDef} (column : c ∈ columns) : ∃ v, findColumn c.name values = some v := by
  rw [← row.names, List.mem_map] at column
  obtain ⟨entry, member, rfl⟩ := column
  unfold findColumn
  cases search : values.find? fun e => e.1.name == entry.1.name with
  | none =>
      have absent := List.find?_eq_none.mp search entry member
      simp at absent
  | some e => exact ⟨e.2, rfl⟩

namespace DatabaseSchema
variable (schema : DatabaseSchema J)

/-- The dispatch on a table name. -/
def table (name : String) : Except (DbmsError J) (TableDef J) :=
  match schema.tables.find? fun t => t.name == name with
  | some t => .ok t
  | none => .error (.query (.tableNotFound name))

/-- The local columns of the foreign keys to a table. -/
def foreignColumns (target : String) (columns : List ColumnDef) : List String :=
  ((columns.filterMap ColumnDef.foreignKey).filter fun fk => fk.foreignTable == target).map
    ForeignKeyDef.localColumn

/-- `get_referenced_tables`. -/
def referencedTables (target : String) : List (String × List String) :=
  schema.tables.filterMap fun t =>
    let columns := foreignColumns target t.columns
    if columns.isEmpty then none else some (t.name, columns)

def referencedColumn (table column : String) : Except (DbmsError J) String := do
  let t ← schema.table table
  match (t.columns.find? fun c => c.name == column).bind ColumnDef.foreignKey with
  | some fk => return fk.foreignColumn
  | none => throw (.query (.unknownColumn column))

/-- A foreign key column with the value a row that references the record has there. -/
structure Reference (J : Type) where
  table : String
  column : String
  value : Value J

def referencingColumn (values : Row J) (table column : String) : Except (DbmsError J) (Reference J) := do
  let referencedColumn ← schema.referencedColumn table column
  match findColumn referencedColumn values with
  | some value => return ⟨table, column, value⟩
  | none => throw (.query (.unknownColumn referencedColumn))

/-- `referencing_columns`, for a record of the table `target`. -/
def referencingColumns (target : String) (values : Row J) : Except (DbmsError J) (List (Reference J)) := do
  let perTable ← (schema.referencedTables target).mapM fun (table, columns) =>
    columns.mapM fun column => schema.referencingColumn values table column
  return perTable.flatten

variable {schema}

theorem table_ok {name : String} {t : TableDef J} (found : schema.table name = .ok t) :
    t ∈ schema.tables ∧ t.name = name := by
  unfold table at found
  split at found
  next t' some_ =>
    cases found
    exact ⟨List.mem_of_find?_eq_some some_, by simpa using List.find?_some some_⟩
  next => cases found

theorem table_eq {t : TableDef J} (listed : t ∈ schema.tables) : schema.table t.name = .ok t := by
  unfold table
  cases found : schema.tables.find? fun t' => t'.name == t.name with
  | none =>
      have absent := List.find?_eq_none.mp found t listed
      simp at absent
  | some t' =>
      have same : t'.name = t.name := by simpa using List.find?_some found
      have equal := List.inj_on_of_nodup_map schema.names (List.mem_of_find?_eq_some found) listed same
      rw [equal]

theorem mem_foreignColumns {target column : String} {columns : List ColumnDef} :
    column ∈ foreignColumns target columns ↔
      ∃ c ∈ columns, ∃ fk, c.foreignKey = some fk ∧ fk.foreignTable = target ∧ fk.localColumn = column := by
  simp only [foreignColumns, List.mem_map, List.mem_filter, List.mem_filterMap, beq_iff_eq]
  constructor
  · rintro ⟨fk, ⟨⟨c, listed, key⟩, points⟩, name⟩
    exact ⟨c, listed, fk, key, points, name⟩
  · rintro ⟨c, listed, fk, key, points, name⟩
    exact ⟨fk, ⟨⟨c, listed, key⟩, points⟩, name⟩

theorem mem_referencedTables {target name : String} {columns : List String} :
    (name, columns) ∈ schema.referencedTables target ↔
      ∃ t ∈ schema.tables, t.name = name ∧ columns = foreignColumns target t.columns ∧ columns ≠ [] := by
  unfold referencedTables
  rw [List.mem_filterMap]
  refine exists_congr fun t => and_congr_right fun _ => ?_
  dsimp only
  split
  next empty =>
    rw [List.isEmpty_iff] at empty
    constructor
    · intro h
      cases h
    · rintro ⟨_, rfl, some_⟩
      exact absurd empty some_
  next some_ =>
    rw [List.isEmpty_iff] at some_
    constructor
    · intro h
      cases h
      exact ⟨rfl, rfl, some_⟩
    · rintro ⟨rfl, rfl, _⟩
      rfl

/-- The column a foreign key references. -/
theorem referencedColumn_eq {t : TableDef J} (listed : t ∈ schema.tables) {c : ColumnDef}
    (column : c ∈ t.columns) {fk : ForeignKeyDef} (key : c.foreignKey = some fk) :
    schema.referencedColumn t.name fk.localColumn = .ok fk.foreignColumn := by
  unfold referencedColumn
  rw [table_eq listed, schema.local_ t listed c column fk key]
  have found : t.columns.find? (fun c' => c'.name == c.name) = some c := by
    cases search : t.columns.find? fun c' => c'.name == c.name with
    | none =>
        have absent := List.find?_eq_none.mp search c column
        simp at absent
    | some c' =>
        have same : c'.name = c.name := by simpa using List.find?_some search
        rw [List.inj_on_of_nodup_map t.columnNames (List.mem_of_find?_eq_some search) column same]
  simp only [bind, Except.bind, found, Option.bind_some, key]
  rfl

/-- What a foreign key column holds in the rows that reference a record. -/
theorem referencingColumn_eq {t : TableDef J} (listed : t ∈ schema.tables) {c : ColumnDef}
    (column : c ∈ t.columns) {fk : ForeignKeyDef} (key : c.foreignKey = some fk) {values : Row J}
    {v : Value J} (value : findColumn fk.foreignColumn values = some v) :
    schema.referencingColumn values t.name fk.localColumn = .ok ⟨t.name, fk.localColumn, v⟩ := by
  unfold referencingColumn
  rw [referencedColumn_eq listed column key]
  simp only [bind, Except.bind, value]
  rfl

/-- The references to a record: one for each foreign key to its table. -/
theorem referencingColumns_ok {t : TableDef J} (listed : t ∈ schema.tables) {values : Row J}
    (row : RowOf t.columns values) :
    ∃ references, schema.referencingColumns t.name values = .ok references ∧
      ∀ r, r ∈ references ↔ ∃ t' ∈ schema.tables, ∃ c ∈ t'.columns, ∃ fk, c.foreignKey = some fk ∧
        fk.foreignTable = t.name ∧ r.table = t'.name ∧ r.column = c.name ∧
        findColumn fk.foreignColumn values = some r.value := by
  have valued : ∀ t' ∈ schema.tables, ∀ c ∈ t'.columns, ∀ fk, c.foreignKey = some fk →
      fk.foreignTable = t.name → ∃ v, findColumn fk.foreignColumn values = some v := by
    intro t' listed' c column fk key points
    obtain ⟨c', column', name⟩ := schema.foreign t' listed' c column fk key t listed points.symm
    exact name ▸ row.find column'
  have each : ∀ entry ∈ schema.referencedTables t.name, ∃ references,
      (entry.2.mapM fun column => schema.referencingColumn values entry.1 column) = .ok references := by
    rintro ⟨name, columns⟩ member
    obtain ⟨t', listed', rfl, rfl, _⟩ := mem_referencedTables.mp member
    refine Result.mapM_ok fun column member => ?_
    obtain ⟨c, column', fk, key, points, rfl⟩ := mem_foreignColumns.mp member
    obtain ⟨v, value⟩ := valued t' listed' c column' fk key points
    exact ⟨_, referencingColumn_eq listed' column' key value⟩
  obtain ⟨perTable, run⟩ := Result.mapM_ok each
  refine ⟨perTable.flatten, ?_, ?_⟩
  · unfold referencingColumns
    rw [run]
    rfl
  · intro r
    rw [List.mem_flatten]
    constructor
    · rintro ⟨references, member, inner⟩
      obtain ⟨⟨name, columns⟩, entry, mapped⟩ := (Result.mem_mapM run).mp member
      obtain ⟨t', listed', rfl, rfl, _⟩ := mem_referencedTables.mp entry
      obtain ⟨column, member, found⟩ := (Result.mem_mapM mapped).mp inner
      obtain ⟨c, column', fk, key, points, rfl⟩ := mem_foreignColumns.mp member
      obtain ⟨v, value⟩ := valued t' listed' c column' fk key points
      rw [referencingColumn_eq listed' column' key value] at found
      cases found
      exact ⟨t', listed', c, column', fk, key, points, rfl, schema.local_ t' listed' c column' fk key, value⟩
    · rintro ⟨t', listed', c, column, fk, key, points, table, name, value⟩
      have local_ := schema.local_ t' listed' c column fk key
      have member : fk.localColumn ∈ foreignColumns t.name t'.columns :=
        mem_foreignColumns.mpr ⟨c, column, fk, key, points, rfl⟩
      have entry : (t'.name, foreignColumns t.name t'.columns) ∈ schema.referencedTables t.name :=
        mem_referencedTables.mpr ⟨t', listed', rfl, rfl, List.ne_nil_of_mem member⟩
      obtain ⟨references, mapped⟩ := each _ entry
      refine ⟨references, (Result.mem_mapM run).mpr ⟨_, entry, mapped⟩, ?_⟩
      refine (Result.mem_mapM mapped).mpr ⟨fk.localColumn, member, ?_⟩
      rw [referencingColumn_eq listed' column key value, local_, ← table, ← name]

end DatabaseSchema
end WasmDbms
