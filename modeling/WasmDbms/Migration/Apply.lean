import WasmDbms.Migration.Registration

/-!
# Migrations

The pass that applies the operations of a plan to the stored tables. It keeps the
snapshots it has changed aside and stores them at its end; when it fails, the stored
tables are those from before.
-/
namespace WasmDbms
open Result

variable {D J : Type}

/-- `widen_value`. -/
def widenValue (table column : String) (oldType newType : DataTypeSnapshot) (value : StoredValue D J) :
    Except (MigrationFailure J) (StoredValue D J) :=
  match oldType, newType, value with
  | _, _, .null => .ok .null
  | .int8, .int16, .int8 i => .ok (.int16 i.toInt16)
  | .int8, .int32, .int8 i => .ok (.int32 i.toInt32)
  | .int8, .int64, .int8 i => .ok (.int64 i.toInt64)
  | .int16, .int32, .int16 i => .ok (.int32 i.toInt32)
  | .int16, .int64, .int16 i => .ok (.int64 i.toInt64)
  | .int32, .int64, .int32 i => .ok (.int64 i.toInt64)
  | .uint8, .uint16, .uint8 n => .ok (.uint16 n.toUInt16)
  | .uint8, .uint32, .uint8 n => .ok (.uint32 n.toUInt32)
  | .uint8, .uint64, .uint8 n => .ok (.uint64 n.toUInt64)
  | .uint16, .uint32, .uint16 n => .ok (.uint32 n.toUInt32)
  | .uint16, .uint64, .uint16 n => .ok (.uint64 n.toUInt64)
  | .uint32, .uint64, .uint32 n => .ok (.uint64 n.toUInt64)
  | .uint8, .int16, .uint8 n => .ok (.int16 n.toUInt16.toInt16)
  | .uint8, .int32, .uint8 n => .ok (.int32 n.toUInt32.toInt32)
  | .uint8, .int64, .uint8 n => .ok (.int64 n.toUInt64.toInt64)
  | .uint16, .int32, .uint16 n => .ok (.int32 n.toUInt32.toInt32)
  | .uint16, .int64, .uint16 n => .ok (.int64 n.toUInt64.toInt64)
  | .uint32, .int64, .uint32 n => .ok (.int64 n.toUInt64.toInt64)
  | _, _, _ => .error (.migration (.wideningIncompatible table column oldType newType))

/-- The values of a record by the names of its columns. -/
abbrev NamedRow (D J : Type) := List (String × StoredValue D J)

namespace MigrationEngine
variable (engine : MigrationEngine D J) (schema : CompiledSchema D J)

/-! ## Records and indexes -/

/-- `table_registry_pages`. -/
def registryPages (tables : Tables D J) (table : String) : Except (MigrationFailure J) (StoredTable D J) :=
  match engine.find tables table with
  | some t => .ok t
  | none => violation table "" "table not present in schema registry"

/-- The table at an entry of the schema registry. -/
def modifyTable (tables : Tables D J) (name : String) (f : StoredTable D J → StoredTable D J) : Tables D J :=
  tables.map fun t => if engine.fingerprint t.snapshot.name == engine.fingerprint name then f t else t

/-- `insert` of the index ledger. -/
def insertIndex (ledger : IndexTrees D J) (columns : List String) (key : List (StoredValue D J))
    (address : RecordAddress) : Except Fault (IndexTrees D J) :=
  if ledger.any fun tree => tree.1 == columns then do
    engine.checkKey key
    return ledger.map fun tree => if tree.1 == columns then (tree.1, tree.2 ++ [(key, address)]) else tree
  else .error (.error (.indexNotFound columns))

/-- The key of a record in an index: a column that is not found counts as `Null`. -/
def rowKey (columns : List String) (values : NamedRow D J) : List (StoredValue D J) :=
  columns.map fun column => ((values.find? fun entry => entry.1 == column).map Prod.snd).getD .null

/-- `rebuild_indexes`: fresh trees for the indexes of the snapshot, filled from the rows. -/
def rebuildIndexes (s : TableSchemaSnapshot (StoredValue D J)) (rows : List (RecordAddress × NamedRow D J)) :
    Except Fault (IndexTrees D J) := do
  let _ ← s.indexes.mapM fun index => validateIndexColumns index.columns
  rows.foldlM (fun ledger row => s.indexes.foldlM (fun ledger index =>
    engine.insertIndex ledger index.columns (rowKey index.columns row.2) row.1) ledger)
    (initIndexes (s.indexes.map IndexSnapshot.columns))

/-- `load_live_rows`. -/
def loadLiveRows (t : StoredTable D J) (s : TableSchemaSnapshot (StoredValue D J)) :
    Except Fault (List (RecordAddress × NamedRow D J)) :=
  t.records.mapM fun record => do
    let values ← decodeRecordBySnapshot engine.formats record.2 s
    return (record.1, values)

/-- `rebuild_indexes_from_storage`. -/
def rebuildIndexesFromStorage (tables : Tables D J) (s : TableSchemaSnapshot (StoredValue D J)) :
    Except (MigrationFailure J) (Tables D J) := do
  let t ← engine.registryPages tables s.name
  let rows ← MigrationFailure.lift (engine.loadLiveRows t s)
  let ledger ← MigrationFailure.lift (engine.rebuildIndexes s rows)
  return engine.modifyTable tables s.name fun t => { t with indexes := ledger }

/-- The loop of `rewrite_table`: each record that was loaded is deleted and inserted again. -/
def rewriteRows (old new : TableSchemaSnapshot (StoredValue D J))
    (project : NamedRow D J → Except (MigrationFailure J) (NamedRow D J)) :
    List (RecordAddress × List UInt8) → List (RecordAddress × List UInt8) →
      Except (MigrationFailure J) (List (RecordAddress × List UInt8) × List (RecordAddress × NamedRow D J))
  | [], records => .ok (records, [])
  | row :: rows, records => do
      let values ← MigrationFailure.lift (decodeRecordBySnapshot engine.formats row.2 old)
      let projected ← project values
      let bytes ← MigrationFailure.lift (encodeRecordBySnapshot engine.formats projected new)
      let kept := records.filter fun record => record.1 != row.1
      let address ← MigrationFailure.lift (engine.place kept (new.alignment % 65536) bytes)
      let rewritten ← rewriteRows old new project rows (kept ++ [(address, bytes)])
      return (rewritten.1, (address, projected) :: rewritten.2)

/-- `rewrite_table`. -/
def rewriteTable (tables : Tables D J) (old new : TableSchemaSnapshot (StoredValue D J))
    (project : NamedRow D J → Except (MigrationFailure J) (NamedRow D J)) :
    Except (MigrationFailure J) (Tables D J) := do
  let t ← engine.registryPages tables old.name
  let rewritten ← rewriteRows engine old new project t.records t.records
  let ledger ← MigrationFailure.lift (engine.rebuildIndexes new rewritten.2)
  return engine.modifyTable tables old.name fun t => { t with records := rewritten.1, indexes := ledger }

/-! ## Checks of the stored rows -/

def valueIn (column : String) (row : NamedRow D J) : Option (StoredValue D J) :=
  (row.find? fun entry => entry.1 == column).map Prod.snd

def validateNoNulls (tables : Tables D J) (table column : String) : Except (MigrationFailure J) Unit := do
  let rows ← engine.select tables table none
  if rows.any fun row => (valueIn column row).any StoredValue.isNull then
    violation table column "existing row contains NULL for new NOT NULL constraint"
  else return ()

variable [LinearOrder J] in
def validateUnique (tables : Tables D J) (table column : String) : Except (MigrationFailure J) Unit := do
  let rows ← engine.select tables table none
  if ((rows.filterMap (valueIn column)).map (StoredValue.toValue engine.formats)).Nodup then return ()
  else violation table column "existing rows contain duplicate values for new UNIQUE constraint"

def validateForeignKeyValue (tables : Tables D J) (table column : String) (fk : ForeignKeySnapshot)
    (value : StoredValue D J) : Except (MigrationFailure J) Unit := do
  let rows ← engine.select tables fk.table (some (fk.column, value))
  if rows.isEmpty then
    .error (.migration (.foreignKeyViolation table column fk.table (engine.formats.debugValue value)))
  else return ()

def validateForeignKey (tables : Tables D J) (table column : String) (fk : ForeignKeySnapshot) :
    Except (MigrationFailure J) Unit := do
  let rows ← engine.select tables table none
  (rows.filterMap (valueIn column)).forM fun value =>
    if value.isNull then .ok () else engine.validateForeignKeyValue tables table column fk value

/-! ## Operations -/

/-- The state of a pass: the stored tables, and the snapshots that wait to be stored. -/
structure Pass (D J : Type) where
  tables : Tables D J
  touched : List (TableSchemaSnapshot (StoredValue D J))

/-- `swap_remove`: the last element takes the place of the removed one. -/
def swapRemove {α : Type} (l : List α) (i : ℕ) : List α :=
  match l.getLast? with
  | some last => (l.set i last).dropLast
  | none => l

/-- `load_snapshot_for_mutation`: a waiting snapshot is taken out, else the stored one is read. -/
def loadSnapshotForMutation (pass : Pass D J) (table : String) :
    Except (MigrationFailure J) (TableSchemaSnapshot (StoredValue D J) × List (TableSchemaSnapshot (StoredValue D J))) :=
  match pass.touched.findIdx? fun s => s.name == table with
  | some i => match pass.touched[i]? with
      | some s => .ok (s, swapRemove pass.touched i)
      | none => .error (.failed .panics)
  | none => match findByName (pass.tables.map StoredTable.snapshot) table with
      | some s => .ok (s, pass.touched)
      | none => violation table "" "table not present in stored schema"

/-- The column an operation names is one of the snapshot. -/
def requireColumn (s : TableSchemaSnapshot (StoredValue D J)) (table column : String) :
    Except (MigrationFailure J) Unit :=
  if s.columns.any fun c => c.name == column then .ok ()
  else violation table column "column not present in stored snapshot"

variable [LinearOrder J]

/-- The checks of `alter_column`: those of the constraints that are set. -/
def validateChanges (tables : Tables D J) (table column : String) (changes : ColumnChanges) :
    Except (MigrationFailure J) Unit := do
  if changes.nullable = some false then engine.validateNoNulls tables table column
  if changes.unique = some true then engine.validateUnique tables table column
  match changes.foreignKey with
  | some (some fk) => engine.validateForeignKey tables table column fk
  | _ => return ()

def alterColumn (pass : Pass D J) (table column : String) (changes : ColumnChanges) :
    Except (MigrationFailure J) (Pass D J) := do
  let (s, touched) ← loadSnapshotForMutation pass table
  requireColumn s table column
  engine.validateChanges pass.tables table column changes
  return ⟨pass.tables, touched ++ [withColumn s column changes.apply]⟩

def addIndex (pass : Pass D J) (table : String) (index : IndexSnapshot) : Except (MigrationFailure J) (Pass D J) := do
  let (s, touched) ← loadSnapshotForMutation pass table
  if s.indexes.contains index then return ⟨pass.tables, touched ++ [s]⟩
  else
    let s := { s with indexes := s.indexes ++ [index] }
    let tables ← engine.rebuildIndexesFromStorage pass.tables s
    return ⟨tables, touched ++ [s]⟩

def dropIndex (pass : Pass D J) (table : String) (index : IndexSnapshot) : Except (MigrationFailure J) (Pass D J) := do
  let (s, touched) ← loadSnapshotForMutation pass table
  let s := { s with indexes := s.indexes.filter fun i => i != index }
  let tables ← engine.rebuildIndexesFromStorage pass.tables s
  return ⟨tables, touched ++ [s]⟩

/-- `resolve_default`. -/
def resolveDefault (table : String) (column : ColumnSnapshot (StoredValue D J)) :
    Except (MigrationFailure J) (StoredValue D J) :=
  match schema.migrateDefault table column.name with
  | some v => .ok v
  | none => match column.default with
      | some v => .ok v
      | none =>
          if column.nullable then .ok .null else .error (.migration (.defaultMissing table column.name))

/-- `validate_added_column_constraints`. -/
def validateAddedColumnConstraints (tables : Tables D J) (table : String) (column : ColumnSnapshot (StoredValue D J))
    (default : StoredValue D J) : Except (MigrationFailure J) Unit := do
  if !column.nullable && default.isNull then
    violation table column.name "backfill default resolves to NULL for new NOT NULL column"
  let t ← engine.registryPages tables table
  if column.unique && t.records.length > 1 then
    violation table column.name "backfill default would duplicate values for new UNIQUE column"
  match column.foreignKey with
  | some fk => if default.isNull then return () else engine.validateForeignKeyValue tables table column.name fk default
  | none => return ()

def addColumn (pass : Pass D J) (table : String) (column : ColumnSnapshot (StoredValue D J)) :
    Except (MigrationFailure J) (Pass D J) := do
  let (old, touched) ← loadSnapshotForMutation pass table
  let new := { old with columns := old.columns ++ [column] }
  let default ← resolveDefault schema table column
  engine.validateAddedColumnConstraints pass.tables table column default
  let tables ← engine.rewriteTable pass.tables old new fun values => .ok (values ++ [(column.name, default)])
  return ⟨tables, touched ++ [new]⟩

def dropColumn (pass : Pass D J) (table column : String) : Except (MigrationFailure J) (Pass D J) := do
  let (old, touched) ← loadSnapshotForMutation pass table
  requireColumn old table column
  let new := { old with columns := old.columns.filter fun c => c.name != column }
  let tables ← engine.rewriteTable pass.tables old new fun values =>
    .ok (values.filter fun entry => entry.1 != column)
  return ⟨tables, touched ++ [new]⟩

def renameColumn (pass : Pass D J) (table old new : String) : Except (MigrationFailure J) (Pass D J) := do
  let (s, touched) ← loadSnapshotForMutation pass table
  requireColumn s table old
  let renamed := withColumn s old fun c => { c with name := new }
  let tables ← engine.rewriteTable pass.tables s renamed fun values =>
    .ok (values.map fun entry => if entry.1 == old then (new, entry.2) else entry)
  return ⟨tables, touched ++ [renamed]⟩

/-- `widen_column` and `transform_column`: the values of the column are converted. -/
def convertColumn (pass : Pass D J) (table column : String) (newType : DataTypeSnapshot)
    (convert : StoredValue D J → Except (MigrationFailure J) (StoredValue D J)) :
    Except (MigrationFailure J) (Pass D J) := do
  let (old, touched) ← loadSnapshotForMutation pass table
  requireColumn old table column
  let new := withColumn old column fun c => { c with dataType := newType }
  let tables ← engine.rewriteTable pass.tables old new fun values => values.mapM fun entry =>
    if entry.1 == column then (fun v => (entry.1, v)) <$> convert entry.2 else .ok entry
  return ⟨tables, touched ++ [new]⟩

def widenColumn (pass : Pass D J) (table column : String) (oldType newType : DataTypeSnapshot) :
    Except (MigrationFailure J) (Pass D J) :=
  engine.convertColumn pass table column newType (widenValue table column oldType newType)

/-- The value `transform_column` replaces a value by. -/
def transformValue (table column : String) (value : StoredValue D J) : Except (MigrationFailure J) (StoredValue D J) :=
  if value.isNull then .ok .null
  else do
    let transformed ← schema.migrateTransform table column value
    match transformed with
    | some v => return v
    | none => .error (.migration (.transformReturnedNone table column))

def transformColumn (pass : Pass D J) (table column : String) (newType : DataTypeSnapshot) :
    Except (MigrationFailure J) (Pass D J) :=
  engine.convertColumn pass table column newType (transformValue schema table column)

def createTable (pass : Pass D J) (s : TableSchemaSnapshot (StoredValue D J)) :
    Except (MigrationFailure J) (Pass D J) := do
  let tables ← MigrationFailure.lift (engine.registerTableFromSnapshot pass.tables s)
  return ⟨tables, pass.touched ++ [s]⟩

def dropTable (pass : Pass D J) (name : String) : Pass D J := ⟨engine.unregisterTable pass.tables name, pass.touched⟩

def applyOp (pass : Pass D J) : MigrationOp (StoredValue D J) → Except (MigrationFailure J) (Pass D J)
  | .createTable _ s => engine.createTable pass s
  | .dropTable name => .ok (engine.dropTable pass name)
  | .alterColumn table column changes => engine.alterColumn pass table column changes
  | .addIndex table index => engine.addIndex pass table index
  | .dropIndex table index => engine.dropIndex pass table index
  | .addColumn table column => engine.addColumn schema pass table column
  | .dropColumn table column => engine.dropColumn pass table column
  | .renameColumn table old new => engine.renameColumn pass table old new
  | .widenColumn table column oldType newType => engine.widenColumn pass table column oldType newType
  | .transformColumn table column _ newType => engine.transformColumn schema pass table column newType

/-- `commit_snapshots`. -/
def commitSnapshots (pass : Pass D J) : Tables D J :=
  pass.touched.foldl (fun tables s => engine.modifyTable tables s.name fun t => { t with snapshot := s }) pass.tables

/-- `apply`. -/
def applyOps (tables : Tables D J) (ops : List (MigrationOp (StoredValue D J))) :
    Except (MigrationFailure J) (Tables D J) :=
  engine.commitSnapshots <$> ops.foldlM (engine.applyOp schema) ⟨tables, []⟩

/-- `pending_migrations`. -/
def pendingMigrations (tables : Tables D J) : Except (MigrationFailure J) (List (MigrationOp (StoredValue D J))) :=
  diff schema (tables.map StoredTable.snapshot) schema.snapshots

def migrate (tables : Tables D J) (allowDestructive : Bool) : Except (MigrationFailure J) (Tables D J) := do
  let ops ← pendingMigrations schema tables
  validatePlan allowDestructive ops
  engine.applyOps schema tables (orderOps ops)

/-! ## What an operation does -/

/-- The snapshots and counters of stored tables. -/
def kept (t : StoredTable D J) : TableSchemaSnapshot (StoredValue D J) × Option (AutoincrementRegistry J) :=
  (t.snapshot, t.counters)

variable {engine schema}

omit [LinearOrder J] in
theorem modifyTable_kept {tables : Tables D J} {name : String} {f : StoredTable D J → StoredTable D J}
    (same : ∀ t, kept (f t) = kept t) : (engine.modifyTable tables name f).map kept = tables.map kept := by
  rw [modifyTable, List.map_map]
  refine List.map_congr_left fun t _ => ?_
  rw [Function.comp_apply]
  split
  · exact same t
  · rfl

omit [LinearOrder J] in
theorem rewriteTable_kept {tables tables' : Tables D J} {old new : TableSchemaSnapshot (StoredValue D J)}
    {project : NamedRow D J → Except (MigrationFailure J) (NamedRow D J)}
    (run : engine.rewriteTable tables old new project = .ok tables') : tables'.map kept = tables.map kept := by
  obtain ⟨t, _, run⟩ := bind_eq_ok.mp run
  obtain ⟨rewritten, _, run⟩ := bind_eq_ok.mp run
  obtain ⟨ledger, _, run⟩ := bind_eq_ok.mp run
  cases run
  exact modifyTable_kept fun _ => rfl

omit [LinearOrder J] in
theorem rebuildIndexesFromStorage_kept {tables tables' : Tables D J} {s : TableSchemaSnapshot (StoredValue D J)}
    (run : engine.rebuildIndexesFromStorage tables s = .ok tables') : tables'.map kept = tables.map kept := by
  obtain ⟨t, _, run⟩ := bind_eq_ok.mp run
  obtain ⟨rows, _, run⟩ := bind_eq_ok.mp run
  obtain ⟨ledger, _, run⟩ := bind_eq_ok.mp run
  cases run
  exact modifyTable_kept fun _ => rfl

/-- The effect of an operation on the table it names: its snapshot is taken, edited and
put back, and all tables keep their stored snapshots and counters. -/
structure Edits (pass pass' : Pass D J) (table : String) (op : MigrationOp (StoredValue D J)) : Prop where
  edited : ∃ s touched, loadSnapshotForMutation pass table = .ok (s, touched) ∧ pass'.touched = touched ++ [op.edit s]
  tables : pass'.tables.map kept = pass.tables.map kept

/-- What an operation on a table does. -/
theorem applyOp_edits {pass pass' : Pass D J} {op : MigrationOp (StoredValue D J)}
    (run : engine.applyOp schema pass op = .ok pass') {table : String} (target : op.target = some table) :
    Edits pass pass' table op := by
  cases op with
  | createTable name s => cases target
  | dropTable name => cases target
  | alterColumn table' column changes =>
      cases target
      obtain ⟨⟨s, touched⟩, loaded, run⟩ := bind_eq_ok.mp run
      obtain ⟨_, _, run⟩ := bind_eq_ok.mp run
      obtain ⟨_, _, run⟩ := bind_eq_ok.mp run
      cases run
      exact ⟨⟨s, touched, loaded, rfl⟩, rfl⟩
  | addIndex table' index =>
      cases target
      obtain ⟨⟨s, touched⟩, loaded, run⟩ := bind_eq_ok.mp run
      dsimp only at run
      split at run
      next present =>
        cases run
        refine ⟨⟨s, touched, loaded, ?_⟩, rfl⟩
        rw [MigrationOp.edit, if_pos present]
      next absent =>
        obtain ⟨tables, rebuilt, run⟩ := bind_eq_ok.mp run
        cases run
        refine ⟨⟨s, touched, loaded, ?_⟩, rebuildIndexesFromStorage_kept rebuilt⟩
        rw [MigrationOp.edit, if_neg absent]
  | dropIndex table' index =>
      cases target
      obtain ⟨⟨s, touched⟩, loaded, run⟩ := bind_eq_ok.mp run
      obtain ⟨tables, rebuilt, run⟩ := bind_eq_ok.mp run
      cases run
      exact ⟨⟨s, touched, loaded, rfl⟩, rebuildIndexesFromStorage_kept rebuilt⟩
  | addColumn table' column =>
      cases target
      obtain ⟨⟨s, touched⟩, loaded, run⟩ := bind_eq_ok.mp run
      obtain ⟨default, _, run⟩ := bind_eq_ok.mp run
      obtain ⟨_, _, run⟩ := bind_eq_ok.mp run
      obtain ⟨tables, rewritten, run⟩ := bind_eq_ok.mp run
      cases run
      exact ⟨⟨s, touched, loaded, rfl⟩, rewriteTable_kept rewritten⟩
  | dropColumn table' column =>
      cases target
      obtain ⟨⟨s, touched⟩, loaded, run⟩ := bind_eq_ok.mp run
      obtain ⟨_, _, run⟩ := bind_eq_ok.mp run
      obtain ⟨tables, rewritten, run⟩ := bind_eq_ok.mp run
      cases run
      exact ⟨⟨s, touched, loaded, rfl⟩, rewriteTable_kept rewritten⟩
  | renameColumn table' old new =>
      cases target
      obtain ⟨⟨s, touched⟩, loaded, run⟩ := bind_eq_ok.mp run
      obtain ⟨_, _, run⟩ := bind_eq_ok.mp run
      obtain ⟨tables, rewritten, run⟩ := bind_eq_ok.mp run
      cases run
      exact ⟨⟨s, touched, loaded, rfl⟩, rewriteTable_kept rewritten⟩
  | widenColumn table' column oldType newType =>
      cases target
      obtain ⟨⟨s, touched⟩, loaded, run⟩ := bind_eq_ok.mp run
      obtain ⟨_, _, run⟩ := bind_eq_ok.mp run
      obtain ⟨tables, rewritten, run⟩ := bind_eq_ok.mp run
      cases run
      exact ⟨⟨s, touched, loaded, rfl⟩, rewriteTable_kept rewritten⟩
  | transformColumn table' column oldType newType =>
      cases target
      obtain ⟨⟨s, touched⟩, loaded, run⟩ := bind_eq_ok.mp run
      obtain ⟨_, _, run⟩ := bind_eq_ok.mp run
      obtain ⟨tables, rewritten, run⟩ := bind_eq_ok.mp run
      cases run
      exact ⟨⟨s, touched, loaded, rfl⟩, rewriteTable_kept rewritten⟩

end MigrationEngine
end WasmDbms
