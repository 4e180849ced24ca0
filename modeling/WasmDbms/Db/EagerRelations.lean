import WasmDbms.Db.NestedLoop
import WasmDbms.Db.SelectOrder

/-!
# Eager relations

The foreign rows that `select_columns` attaches to its rows: for each relation of the query
the values of the foreign keys to it are collected, the rows they refer to are fetched by
one query for each column, and attached to the rows that hold the value.
-/
namespace WasmDbms
open Result

variable {J F : Type}

inductive ValuesSource where
  | this
  | foreign (table column : String)
  deriving DecidableEq, Repr

/-- The columns of a row and of the foreign rows it has with it. -/
abbrev TableColumns (J : Type) := List (ValuesSource × Row J)

def thisColumns (record : TableColumns J) : Option (Row J) :=
  (record.find? fun part => part.1 = .this).map Prod.snd

/-- The distinct values of each foreign key column. -/
abbrev FkColumns (J : Type) := List (String × List (Value J))

/-! ## The typed record of a row -/

/-- What the record type keeps of a row in a field: the last value of its type. -/
def recordValue (column : ColumnDef) (row : Row J) : Value J :=
  (((row.filter fun entry => entry.1.name == column.name && column.accepts entry.2).getLast?).map Prod.snd).getD .null

/-- `to_values` of the record made from a row: the columns that are no foreign keys. -/
def toValues (table : TableDef J) (row : Row J) : Row J :=
  (table.columns.filter fun column => column.foreignKey.isNone).map fun column => (column, recordValue column row)

section Load
variable [LinearOrder J]

/-- The foreign key value is added to those of its column. -/
def addFkValue (column : String) (value : Value J) : FkColumns J → FkColumns J
  | [] => [(column, [value])]
  | entry :: rest =>
      if entry.1 = column then (entry.1, if value ∈ entry.2 then entry.2 else value :: entry.2) :: rest
      else entry :: addFkValue column value rest

/-- One column of a row; the flag tells that a foreign key to the relation was found. A null
value refers to no row. -/
def collectColumn (relation : String) (found : FkColumns J × Bool) (entry : ColumnDef × Value J) : FkColumns J × Bool :=
  match entry.1.foreignKey with
  | none => found
  | some fk =>
      if fk.foreignTable ≠ relation then found
      else if entry.2.isNull then (found.1, true)
      else (addFkValue fk.localColumn entry.2 found.1, true)

/-- One row of `collect_fk_values`. -/
def collectRecord (table : TableDef J) (relation : String) (fkColumns : FkColumns J) (record : TableColumns J) :
    Except (DbmsError J) (FkColumns J) :=
  match thisColumns record with
  | none => .ok fkColumns
  | some columns =>
      let found := columns.foldl (collectColumn relation) (fkColumns, false)
      if found.2 then .ok found.1
      else .error (.query (.invalidQuery
        s!"Cannot load relation '{relation}' for table '{table.name}': no foreign key found"))

def collectFkValues (table : TableDef J) (relation : String) (results : List (TableColumns J)) :
    Except (DbmsError J) (FkColumns J) :=
  results.foldlM (collectRecord table relation) []

/-- The rows of a batch by the values they are looked up with; the last row with a value counts. -/
abbrev FkBatch (J : Type) := List (Value J × Row J)

def FkBatch.get (batch : FkBatch J) (key : Value J) : Option (Row J) :=
  (batch.reverse.find? fun entry => entry.1 = key).map Prod.snd

/-- The entry of a fetched row, under its referenced column. -/
def batchEntry (entity : TableDef J) (referencedColumn : String) (row : Row J) :
    Except (DbmsError J) (Value J × Row J) :=
  match findColumn referencedColumn (toValues entity row) with
  | some key => .ok (key, toValues entity row)
  | none => .error (.query (.unknownColumn referencedColumn))

/-- `Query::builder().all().and_where(Filter::In(column, values))` -/
def inQuery (column : String) (values : List (Value J)) : SelectQuery J F :=
  ⟨⟨some (.inList column values), [], [], none, none⟩, .all⟩

/-- The changes of a transaction to a table. -/
def changesOf (tx : Option (Transaction J F)) (table : TableDef J) : Option (List (Operation J)) :=
  tx.map fun tx => tx.overlay table.name

/-- The foreign key of the table that the arm of the fetcher is made for. -/
def TableDef.foreignKeyTo (table : TableDef J) (relation localColumn : String) : Option ForeignKeyDef :=
  (table.columns.filterMap ColumnDef.foreignKey).find? fun fk =>
    fk.foreignTable == relation && fk.localColumn == localColumn

namespace Database
variable (db : Database J F) (s : DbState J) (tx : Option (Transaction J F)) (table : TableDef J)

/-- `fetch_batch` of the table. -/
def fetchBatch (relation localColumn : String) (values : List (Value J)) : Except (Failure J) (FkBatch J) :=
  match table.foreignKeyTo relation localColumn with
  | none => .error (.error (.query (.invalidQuery
      s!"ForeignFetcher: unknown relation '{relation}.{localColumn}' for {table.name} foreign fetcher")))
  | some fk => do
      let entity ← Failure.lift (db.schema.table relation)
      let results ← (inQuery fk.foreignColumn values).selectColumns db entity (s entity.name) tx.isSome
        (changesOf tx entity)
      Failure.lift (results.mapM (batchEntry entity fk.foreignColumn))

end Database

/-- All values were found. -/
def verifyFkBatch (batch : FkBatch J) (values : List (Value J)) (relation : String) : Except (DbmsError J) Unit :=
  match values.find? fun value => (batch.get value).isNone with
  | some missing => .error (.query (.brokenForeignKeyReference relation missing))
  | none => .ok ()

/-- The value of the foreign key column of a row. -/
def fkValue (relation localColumn : String) (columns : Row J) : Option (Value J) :=
  columns.findSome? fun entry => entry.1.foreignKey.bind fun fk =>
    if fk.foreignTable = relation ∧ fk.localColumn = localColumn then some entry.2 else none

def attachForeignData (results : List (TableColumns J)) (batch : FkBatch J) (relation localColumn : String) :
    List (TableColumns J) :=
  results.map fun record =>
    match (thisColumns record).bind (fkValue relation localColumn) with
    | none => record
    | some value =>
        match batch.get value with
        | none => record
        | some foreignValues => record ++ [(.foreign relation localColumn, foreignValues)]

namespace Database
variable (db : Database J F) (s : DbState J) (tx : Option (Transaction J F)) (table : TableDef J)

/-- The rows of one foreign key column are fetched and attached. -/
def loadColumn (relation : String) (results : List (TableColumns J)) (entry : String × List (Value J)) :
    Except (Failure J) (List (TableColumns J)) := do
  let batch ← db.fetchBatch s tx table relation entry.1 entry.2
  Failure.lift (verifyFkBatch batch entry.2 relation)
  return attachForeignData results batch relation entry.1

def loadRelation (results : List (TableColumns J)) (relation : String) : Except (Failure J) (List (TableColumns J)) := do
  let fkColumns ← Failure.lift (collectFkValues table relation results)
  fkColumns.foldlM (db.loadColumn s tx table relation) results

def batchLoadEagerRelations (eagerRelations : List String) (results : List (TableColumns J)) :
    Except (Failure J) (List (TableColumns J)) :=
  eagerRelations.foldlM (db.loadRelation s tx table) results

end Database

/-- A query with the relations it loads. -/
structure EagerQuery (J F : Type) extends SelectQuery J F where
  eagerRelations : List String

namespace EagerQuery
variable (db : Database J F) (query : EagerQuery J F) (s : DbState J) (tx : Option (Transaction J F)) (table : TableDef J)

/-- The rows an index gives: a covering index is not used by a query with relations. -/
def indexedRows : Except (Failure J) (Option (List (Row J))) :=
  if query.eagerRelations.isEmpty then
    query.toSelectQuery.indexedRows db table (s table.name) tx.isSome (changesOf tx table)
  else match query.filter with
    | some filter => db.tryIndexSelect table filter (s table.name) (changesOf tx table)
    | none => .ok none

/-- The rows that are read, without the duplicates. -/
def readRows : Except (Failure J) (List (Row J)) := do
  let offset := if query.deferPagination then 0 else query.offset.getD 0
  let limit := if query.deferPagination then none else query.limit
  let rows ← match ← query.indexedRows db s tx table with
    | some rows => db.takePage none offset limit rows
    | none => db.takePage query.filter offset limit (visibleRows tx s table)
  return applyDistinct query.distinctBy rows

/-- `apply_column_selection` leaves the foreign rows whole. -/
def selectThis (record : TableColumns J) : TableColumns J :=
  match query.columns with
  | .all => record
  | .columns names => record.map fun part => if part.1 = .this then (part.1, retainColumns names part.2) else part

def sortRecords (orderBy : List (String × OrderDirection)) (results : List (TableColumns J)) : List (TableColumns J) :=
  orderBy.foldr (fun order results => results.mergeSort fun a b =>
    sortValuesWithDirection ((thisColumns a).bind (findColumn order.1)) ((thisColumns b).bind (findColumn order.1))
      order.2 != .gt) results

def cutRecords (results : List (TableColumns J)) : List (TableColumns J) :=
  match query.limit with
  | some limit => (results.drop (query.offset.getD 0)).take limit
  | none => results.drop (query.offset.getD 0)

/-- `select_columns` -/
def selectColumns : Except (Failure J) (List (TableColumns J)) := do
  let rows ← query.readRows db s tx table
  let loaded ← db.batchLoadEagerRelations s tx table query.eagerRelations (rows.map fun row => [(.this, row)])
  let sorted := sortRecords query.orderBy (loaded.map query.selectThis)
  return if query.deferPagination then query.cutRecords sorted else sorted

end EagerQuery

end Load

end WasmDbms
