import Mathlib.Data.List.Sort
import WasmDbms.Db.Store
import WasmDbms.Migration.StoredValue

/-!
# Migration plans

`diff` compares the stored snapshots with the compiled ones and lists the operations
that lead from the first to the second; `orderOps` sorts them into the order they are
applied in.
-/
namespace WasmDbms
open Result

/-- The flags of a column that change, with their new values. -/
structure ColumnChanges where
  nullable : Option Bool
  unique : Option Bool
  autoIncrement : Option Bool
  primaryKey : Option Bool
  foreignKey : Option (Option ForeignKeySnapshot)
  deriving DecidableEq

def ColumnChanges.isEmpty (changes : ColumnChanges) : Bool :=
  changes.nullable.isNone && changes.unique.isNone && changes.autoIncrement.isNone &&
    changes.primaryKey.isNone && changes.foreignKey.isNone

/-- The column with the changes made. -/
def ColumnChanges.apply {V : Type} (changes : ColumnChanges) (c : ColumnSnapshot V) : ColumnSnapshot V :=
  { c with
    nullable := changes.nullable.getD c.nullable
    unique := changes.unique.getD c.unique
    autoIncrement := changes.autoIncrement.getD c.autoIncrement
    primaryKey := changes.primaryKey.getD c.primaryKey
    foreignKey := changes.foreignKey.getD c.foreignKey }

inductive MigrationOp (V : Type) where
  | createTable (name : String) (schema : TableSchemaSnapshot V)
  | dropTable (name : String)
  | addColumn (table : String) (column : ColumnSnapshot V)
  | dropColumn (table column : String)
  | renameColumn (table old new : String)
  | alterColumn (table column : String) (changes : ColumnChanges)
  | widenColumn (table column : String) (oldType newType : DataTypeSnapshot)
  | transformColumn (table column : String) (oldType newType : DataTypeSnapshot)
  | addIndex (table : String) (index : IndexSnapshot)
  | dropIndex (table : String) (index : IndexSnapshot)
  deriving DecidableEq

section Edit
variable {V : Type}

/-- The first column of this name, changed. -/
def editColumn (column : String) (f : ColumnSnapshot V → ColumnSnapshot V) : List (ColumnSnapshot V) → List (ColumnSnapshot V)
  | [] => []
  | c :: cs => if c.name == column then f c :: cs else c :: editColumn column f cs

/-- The snapshot with its first column of this name changed. -/
def withColumn (s : TableSchemaSnapshot V) (column : String) (f : ColumnSnapshot V → ColumnSnapshot V) :
    TableSchemaSnapshot V :=
  { s with columns := editColumn column f s.columns }

namespace MigrationOp

/-- The table whose snapshot an operation edits. -/
def target : MigrationOp V → Option String
  | createTable .. | dropTable .. => none
  | addColumn table _ | dropColumn table _ | renameColumn table .. | alterColumn table .. | widenColumn table ..
  | transformColumn table .. | addIndex table _ | dropIndex table _ => some table

/-- The table an operation creates. -/
def creates : MigrationOp V → Option String
  | createTable _ s => some s.name
  | _ => none

/-- The table an operation drops. -/
def drops : MigrationOp V → Option String
  | dropTable name => some name
  | _ => none

/-- What an operation makes of the snapshot of its table. -/
def edit (s : TableSchemaSnapshot V) : MigrationOp V → TableSchemaSnapshot V
  | createTable .. | dropTable .. => s
  | addColumn _ column => { s with columns := s.columns ++ [column] }
  | dropColumn _ column => { s with columns := s.columns.filter fun c => c.name != column }
  | renameColumn _ old new => withColumn s old fun c => { c with name := new }
  | alterColumn _ column changes => withColumn s column changes.apply
  | widenColumn _ column _ newType | transformColumn _ column _ newType =>
      withColumn s column fun c => { c with dataType := newType }
  | addIndex _ index => if s.indexes.contains index then s else { s with indexes := s.indexes ++ [index] }
  | dropIndex _ index => { s with indexes := s.indexes.filter fun i => i != index }

@[simp] theorem edit_name (s : TableSchemaSnapshot V) (op : MigrationOp V) : (edit s op).name = s.name := by
  cases op with
  | addIndex table index =>
      rw [edit]
      split <;> rfl
  | _ => rfl

theorem creates_of_target {op : MigrationOp V} {table : String} (on : op.target = some table) : op.creates = none := by
  cases op with
  | createTable => cases on
  | _ => rfl

theorem drops_of_target {op : MigrationOp V} {table : String} (on : op.target = some table) : op.drops = none := by
  cases op with
  | dropTable => cases on
  | _ => rfl

end MigrationOp
end Edit

inductive MigrationError where
  | defaultMissing (table column : String)
  | constraintViolation (table column reason : String)
  | destructiveOpDenied (op : String)
  | wideningIncompatible (table column : String) (oldType newType : DataTypeSnapshot)
  | transformReturnedNone (table column : String)
  | foreignKeyViolation (table column targetTable value : String)
  deriving DecidableEq

/-- How a migration ends without a value: by an error of its own, or as any other
operation does. -/
inductive MigrationFailure (J : Type) where
  | migration (e : MigrationError)
  | failed (e : Failure J)

/-- `?` on a result of the memory layer. -/
def MigrationFailure.lift {J α : Type} : Except Fault α → Except (MigrationFailure J) α
  | .ok a => .ok a
  | .error (.error e) => .error (.failed (.error (.memory e)))
  | .error .panic => .error (.failed .panics)
  | .error .diverges => .error (.failed .diverges)

theorem MigrationFailure.lift_eq_ok {J α : Type} {x : Except Fault α} {a : α} :
    MigrationFailure.lift (J := J) x = .ok a ↔ x = .ok a := by
  cases x with
  | ok b => rw [lift, Except.ok.injEq, Except.ok.injEq]
  | error fault =>
      refine iff_of_false (fun same => ?_) (fun same => ?_)
      · cases fault <;> cases same
      · cases same

/-- What the engine uses of the compiled schema: the table types and the hooks of their
`Migrate` implementations. -/
structure CompiledSchema (D J : Type) where
  tables : List (TableType (StoredValue D J))
  names : (tables.map TableType.name).Nodup
  migrateDefault : String → String → Option (StoredValue D J)
  migrateTransform : String → String → StoredValue D J → Except (MigrationFailure J) (Option (StoredValue D J))

section Diff
variable {D J : Type} (schema : CompiledSchema D J)

namespace CompiledSchema

/-- `compiled_snapshots_dyn`. -/
def snapshots : List (TableSchemaSnapshot (StoredValue D J)) := schema.tables.map TableType.schemaSnapshot

/-- `renamed_from_dyn`. -/
def renamedFrom (table column : String) : List String :=
  match schema.tables.find? fun t => t.name == table with
  | some t => ((t.fields.find? fun field => field.name == column).map Field.renamedFrom).getD []
  | none => []

end CompiledSchema

def findByName {V : Type} (snapshots : List (TableSchemaSnapshot V)) (name : String) : Option (TableSchemaSnapshot V) :=
  snapshots.find? fun s => s.name == name

def signedRank : DataTypeSnapshot → Option ℕ
  | .int8 => some 1
  | .int16 => some 2
  | .int32 => some 3
  | .int64 => some 4
  | _ => none

def unsignedRank : DataTypeSnapshot → Option ℕ
  | .uint8 => some 1
  | .uint16 => some 2
  | .uint32 => some 3
  | .uint64 => some 4
  | _ => none

def lowerRank : Option ℕ → Option ℕ → Bool
  | some o, some n => o < n
  | _, _ => false

def isWidening (old new : DataTypeSnapshot) : Bool :=
  lowerRank (signedRank old) (signedRank new) || lowerRank (unsignedRank old) (unsignedRank new) ||
    lowerRank (unsignedRank old) (signedRank new) || (old == .float32 && new == .float64)

/-- `(stored != compiled).then_some(compiled)`. -/
def changed {α : Type} [DecidableEq α] (stored compiled : α) : Option α :=
  if stored ≠ compiled then some compiled else none

section Columns
variable {V : Type}

def columnFlagDelta (stored compiled : ColumnSnapshot V) : ColumnChanges where
  nullable := changed stored.nullable compiled.nullable
  unique := changed stored.unique compiled.unique
  autoIncrement := changed stored.autoIncrement compiled.autoIncrement
  primaryKey := changed stored.primaryKey compiled.primaryKey
  foreignKey := changed stored.foreignKey compiled.foreignKey

def diffColumnPair (table : String) (stored compiled : ColumnSnapshot V) : List (MigrationOp V) :=
  (if stored.dataType ≠ compiled.dataType then
    if isWidening stored.dataType compiled.dataType then
      [.widenColumn table compiled.name stored.dataType compiled.dataType]
    else [.transformColumn table compiled.name stored.dataType compiled.dataType]
  else []) ++
  (if (columnFlagDelta stored compiled).isEmpty then []
  else [.alterColumn table compiled.name (columnFlagDelta stored compiled)])

/-- The stored column a compiled one was renamed from. -/
def renamedSource (renamedFrom : List String) (stored : List (ColumnSnapshot V)) (consumed : List String) :
    Option (ColumnSnapshot V) :=
  renamedFrom.findSome? fun previous => stored.find? fun c => c.name == previous && !consumed.contains c.name

def indexEq (a b : IndexSnapshot) : Bool :=
  a.unique == b.unique &&
    a.columns.mergeSort (fun x y => decide (x ≤ y)) == b.columns.mergeSort (fun x y => decide (x ≤ y))

def diffIndexes (table : String) (stored compiled : List IndexSnapshot) : List (MigrationOp V) :=
  (compiled.filter fun c => !stored.any fun s => indexEq s c).map (.addIndex table) ++
    (stored.filter fun s => !compiled.any fun c => indexEq c s).map (.dropIndex table)

end Columns

/-- The loop of `diff_columns` over the compiled columns: the operations, and the names
of the stored columns that are accounted for. -/
def diffCompiledColumns (table : String) (stored : List (ColumnSnapshot (StoredValue D J))) :
    List (ColumnSnapshot (StoredValue D J)) → List String →
      Except (MigrationFailure J) (List (MigrationOp (StoredValue D J)) × List String)
  | [], consumed => .ok ([], consumed)
  | col :: cols, consumed =>
      match stored.find? fun c => c.name == col.name with
      | some source => do
          let (ops, all) ← diffCompiledColumns table stored cols (consumed ++ [source.name])
          return (diffColumnPair table source col ++ ops, all)
      | none =>
          match renamedSource (schema.renamedFrom table col.name) stored consumed with
          | some source => do
              let (ops, all) ← diffCompiledColumns table stored cols (consumed ++ [source.name])
              return (.renameColumn table source.name col.name :: (diffColumnPair table source col ++ ops), all)
          | none =>
              if !col.nullable && col.default.isNone && (schema.migrateDefault table col.name).isNone then
                .error (.migration (.defaultMissing table col.name))
              else do
                let (ops, all) ← diffCompiledColumns table stored cols consumed
                return (.addColumn table col :: ops, all)

def diffColumns (stored compiled : TableSchemaSnapshot (StoredValue D J)) :
    Except (MigrationFailure J) (List (MigrationOp (StoredValue D J))) := do
  let (ops, consumed) ← diffCompiledColumns schema compiled.name stored.columns compiled.columns []
  return ops ++ (stored.columns.filter fun c => !consumed.contains c.name).map fun c => .dropColumn compiled.name c.name

def diffTable (stored compiled : TableSchemaSnapshot (StoredValue D J)) :
    Except (MigrationFailure J) (List (MigrationOp (StoredValue D J))) := do
  let columns ← diffColumns schema stored compiled
  return columns ++ diffIndexes compiled.name stored.indexes compiled.indexes

/-- One turn of the loop of `diff`. -/
def diffCompiled (stored : List (TableSchemaSnapshot (StoredValue D J))) (compiled : TableSchemaSnapshot (StoredValue D J)) :
    Except (MigrationFailure J) (List (MigrationOp (StoredValue D J))) :=
  match findByName stored compiled.name with
  | none => .ok [.createTable compiled.name compiled]
  | some source => diffTable schema source compiled

def diff (stored compiled : List (TableSchemaSnapshot (StoredValue D J))) :
    Except (MigrationFailure J) (List (MigrationOp (StoredValue D J))) := do
  let perTable ← compiled.mapM (diffCompiled schema stored)
  return perTable.flatten ++
    (stored.filter fun s => (findByName compiled s.name).isNone).map fun s => .dropTable s.name

end Diff

/-! ## The order of operations -/

section Plan
variable {V : Type}

def isRelaxation (changes : ColumnChanges) : Bool :=
  !(changes.nullable == some false || changes.unique == some true || changes.primaryKey == some true ||
    (changes.foreignKey.any Option.isSome) || changes.autoIncrement.isSome)

def opPriority : MigrationOp V → ℕ
  | .createTable .. => 0
  | .dropIndex .. => 1
  | .dropColumn .. => 2
  | .renameColumn .. => 3
  | .alterColumn _ _ changes => if isRelaxation changes then 4 else 8
  | .widenColumn .. => 5
  | .transformColumn .. => 6
  | .addColumn .. => 7
  | .addIndex .. => 9
  | .dropTable .. => 10

def orderOps (ops : List (MigrationOp V)) : List (MigrationOp V) :=
  ops.mergeSort fun a b => decide (opPriority a ≤ opPriority b)

theorem mem_orderOps {ops : List (MigrationOp V)} {op : MigrationOp V} : op ∈ orderOps ops ↔ op ∈ ops :=
  List.mem_mergeSort

/-- The text of the error for an operation the policy denies. -/
def denied (allowDestructive : Bool) : MigrationOp V → Option String
  | .dropTable name => if allowDestructive then none else some s!"DropTable({name})"
  | .dropColumn table column => if allowDestructive then none else some s!"DropColumn({table}.{column})"
  | _ => none

/-- `validate`. -/
def validatePlan {J : Type} (allowDestructive : Bool) (ops : List (MigrationOp V)) : Except (MigrationFailure J) Unit :=
  match ops.findSome? (denied allowDestructive) with
  | some op => .error (.migration (.destructiveOpDenied op))
  | none => .ok ()

end Plan
end WasmDbms
