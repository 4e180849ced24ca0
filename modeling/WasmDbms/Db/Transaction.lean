import WasmDbms.Db.Write

/-!
# Transactions

The operations a transaction stages, its commit, and a context with any number of open
transactions. An update or a deletion captures the rows it finds; at commit each of
them has to be found again.
-/
namespace WasmDbms

variable {J F : Type} [LinearOrder J]

namespace TableDef
variable (table : TableDef J)

/-- The value a typed record has in a column: the last one of its type. -/
def recordValue (column : ColumnDef) (row : Row J) : Value J :=
  (((row.filter fun entry => entry.1.name == column.name && column.accepts entry.2).getLast?).map
    Prod.snd).getD .null

/-- `to_values` of the record `from_values` makes of a row: the foreign keys are left
out. -/
def recordValues (row : Row J) : Row J :=
  (table.columns.filter fun column => column.foreignKey.isNone).map fun column =>
    (column, recordValue column row)

/-- The values of all columns. -/
def columnValues (row : Row J) : Row J :=
  table.columns.map fun column => (column, recordValue column row)

/-- `captured_row_filter`. -/
def capturedRowFilter (primaryKey : Value J) (row : Row J) : Filter J F :=
  (row.filter fun entry => entry.1.name != table.primaryKey).foldl
    (fun filter entry => .and filter (.eq entry.1.name entry.2)) (.eq table.primaryKey primaryKey)

/-- `primary_key` of the overlay. -/
def keyOf (values : Row J) : Except (DbmsError J) (Value J) :=
  match findColumn table.primaryKey values with
  | some key => .ok key
  | none => .error (.query (.missingNonNullableField table.primaryKey))

end TableDef

inductive TransactionOp (J F : Type) where
  | insert (table : TableDef J) (values : Row J)
  | delete (table : TableDef J) (behaviour : DeleteBehavior) (filters : List (Filter J F))
  | update (table : TableDef J) (patch : Row J) (filters : List (Filter J F))

structure Transaction (J F : Type) where
  operations : List (TransactionOp J F)
  overlay : String → List (Operation J)

namespace Transaction

def new : Transaction J F := ⟨[], fun _ => []⟩

/-- Adds a change to the overlay of a table. -/
def record (tx : Transaction J F) (table : TableDef J) (changes : List (Operation J))
    (op : TransactionOp J F) : Transaction J F :=
  ⟨tx.operations ++ [op], Function.update tx.overlay table.name (tx.overlay table.name ++ changes)⟩

def insert (tx : Transaction J F) (table : TableDef J) (values : Row J) :
    Except (DbmsError J) (Transaction J F) := do
  let key ← table.keyOf values
  return tx.record table [.insert key values] (.insert table values)

def update (tx : Transaction J F) (table : TableDef J) (patch : Row J) (rows : List (Value J × Row J)) :
    Transaction J F :=
  tx.record table (rows.map fun row => .update row.1 patch)
    (.update table patch (rows.map fun row => table.capturedRowFilter row.1 row.2))

def delete (tx : Transaction J F) (table : TableDef J) (behaviour : DeleteBehavior)
    (rows : List (Value J × Row J)) : Transaction J F :=
  tx.record table (rows.map fun row => .delete row.1)
    (.delete table behaviour (rows.map fun row => table.capturedRowFilter row.1 row.2))

/-- The rows that can be seen in the transaction. -/
def view (tx : Transaction J F) (s : DbState J) : View J := fun name =>
  overlayRows (tx.overlay name) ((s name).rows.map Prod.snd)

end Transaction

namespace Database
variable (db : Database J F)

/-- The rows a query in a transaction returns. -/
def selectInside (tx : Transaction J F) (s : DbState J) (table : TableDef J) (filter : Option (Filter J F)) :
    Except (Failure J) (List (Row J)) :=
  db.selectMatching filter (db.visit table filter (s table.name).rows (tx.overlay table.name))

/-- `existing_rows_for_filter`. -/
def existingRowsForFilter (tx : Transaction J F) (s : DbState J) (table : TableDef J)
    (filter : Option (Filter J F)) : Except (Failure J) (List (Value J × Row J)) := do
  let rows ← db.selectInside tx s table filter
  rows.mapM fun row =>
    match findColumn table.primaryKey (table.recordValues row) with
    | some key => .ok (key, table.recordValues row)
    | none => .error .panics

/-- The error of a commit that does not find a row as it was captured. -/
def conflict (table : TableDef J) : Failure J :=
  .error (.query (.constraintViolation s!"transaction conflict on table '{table.name}'"))

/-- `validated_transaction_filter`. -/
def validatedTransactionFilter (table : TableDef J) (filters : List (Filter J F)) (s : DbState J) :
    Except (Failure J) (Option (Filter J F)) := do
  filters.forM fun filter => do
    let rows ← db.select s.view table (some filter)
    if rows.length ≠ 1 then throw (conflict table)
  match filters with
  | [] => return none
  | filter :: rest => return some (rest.foldl Filter.or filter)

/-- `insert` of a table given by its name, with `from_values` of the insert record. -/
def insertValues (table : TableDef J) (values : Row J) (s : DbState J) : Except (Failure J) (DbState J) := do
  let record ← Failure.lift (table.fromValues values)
  db.insert table record s

/-- One turn of the loop of `commit`. -/
def replayOp (fuel : ℕ) (op : TransactionOp J F) (s : DbState J) : Except (Failure J) (DbState J) :=
  match op with
  | .insert table values => do
      db.validateInsert s.view table values
      db.insertValues table values s
  | .delete table behaviour filters => do
      match ← db.validatedTransactionFilter table filters s with
      | some filter => do
          let (_, s) ← db.delete fuel table behaviour (some filter) s
          return s
      | none => return s
  | .update table patch filters => do
      match ← db.validatedTransactionFilter table filters s with
      | some filter => do
          let patch ← Failure.lift (typedPatch table (patch.map fun entry => (entry.1.name, entry.2)))
          let (_, s) ← db.update fuel table patch (some filter) s
          return s
      | none => return s

/-- The loop of `commit`. -/
def replayAll (fuel : ℕ) : List (TransactionOp J F) → DbState J → Except (Failure J) (DbState J)
  | [], s => .ok s
  | op :: rest, s => do
      let s ← db.replayOp fuel op s
      replayAll fuel rest s

end Database

/-- A context: the stored tables and the open transactions. -/
structure Context (J F : Type) where
  state : DbState J
  transactions : ℕ → Option (Transaction J F)
  nextTransactionId : ℕ

/-- A call on a context, outside of a transaction or in an open one. -/
inductive Call (J F : Type) where
  | begin
  | insert (id : Option ℕ) (table : TableDef J) (values : Row J)
  | update (id : Option ℕ) (table : TableDef J) (patch : Row J) (filter : Option (Filter J F))
  | delete (id : Option ℕ) (table : TableDef J) (behaviour : DeleteBehavior) (filter : Option (Filter J F))
  | commit (id : ℕ)
  | rollback (id : ℕ)

namespace Context
variable (ctx : Context J F)

def withState (s : DbState J) : Context J F := { ctx with state := s }

def withTransaction (id : ℕ) (tx : Option (Transaction J F)) : Context J F :=
  { ctx with transactions := Function.update ctx.transactions id tx }

/-- `get_transaction`. -/
def transaction (id : ℕ) : Except (Failure J) (Transaction J F) :=
  match ctx.transactions id with
  | some tx => .ok tx
  | none => .error (.error (.query .transactionNotFound))

/-- A call that succeeds, with its result and the context it leaves. -/
def perform (db : Database J F) (fuel : ℕ) : Call J F → Except (Failure J) (ℕ × Context J F)
  | .begin =>
      .ok (ctx.nextTransactionId, { ctx.withTransaction ctx.nextTransactionId (some .new) with
        nextTransactionId := ctx.nextTransactionId + 1 })
  | .insert none table values => do
      let s ← db.insert table values ctx.state
      return (0, ctx.withState s)
  | .insert (some id) table values => do
      let sanitized ← Failure.lift (table.sanitizeValues values)
      let tx ← ctx.transaction id
      db.validateInsert (tx.view ctx.state) table sanitized
      let tx ← Failure.lift (tx.insert table sanitized)
      return (0, ctx.withTransaction id (some tx))
  | .update none table patch filter => do
      let (n, s) ← db.update fuel table patch filter ctx.state
      return (n, ctx.withState s)
  | .update (some id) table patch filter => do
      let tx ← ctx.transaction id
      let rows ← db.existingRowsForFilter tx ctx.state table filter
      return (rows.length, ctx.withTransaction id (some (tx.update table patch rows)))
  | .delete none table behaviour filter => do
      let (n, s) ← db.delete fuel table behaviour filter ctx.state
      return (n, ctx.withState s)
  | .delete (some id) table behaviour filter => do
      let tx ← ctx.transaction id
      let rows ← db.existingRowsForFilter tx ctx.state table filter
      return (rows.length, ctx.withTransaction id (some (tx.delete table behaviour rows)))
  | .commit id => do
      let tx ← ctx.transaction id
      let s ← db.replayAll fuel tx.operations ctx.state
      return (0, (ctx.withTransaction id none).withState s)
  | .rollback id => .ok (0, ctx.withTransaction id none)

/-- A call: one that fails leaves the stored tables as they are, and a commit closes
its transaction either way. -/
def call (db : Database J F) (fuel : ℕ) (c : Call J F) : Except (Failure J) ℕ × Context J F :=
  match ctx.perform db fuel c with
  | .ok (n, ctx') => (.ok n, ctx')
  | .error e =>
      match c with
      | .commit id => (.error e, ctx.withTransaction id none)
      | _ => (.error e, ctx)

end Context
end WasmDbms
