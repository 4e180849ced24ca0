import WasmDbms.Db.Plan
import WasmDbms.Db.Query
import WasmDbms.Lib.HashJoin

/-!
# Joins

The join engine: it joins the clauses of a query from left to right with hash joins
over the indexes of the loaded rows, and looks at the values again for the filter, the
order and the result.
-/
namespace WasmDbms
open Result

variable {J F : Type}

/-- `split_once('.')`. -/
def splitOnce (field : String) : Option (String × String) :=
  if '.' ∈ field.toList then
    some (String.ofList (field.toList.takeWhile fun c => c ≠ '.'),
      String.ofList ((field.toList.dropWhile fun c => c ≠ '.').drop 1))
  else none

/-- The tables of a joined row with their columns. -/
abbrev Groups (J : Type) := List (String × Row J)

/-! ## Filters on joined rows -/

def resolveJoinedColumn (field : String) (groups : Groups J) : Except (QueryError J) (Option (Value J)) :=
  match splitOnce field with
  | some (table, column) =>
      match groups.find? fun group => group.1 == table with
      | some group => .ok (findColumn column group.2)
      | none => .error (.invalidQuery s!"Table '{table}' not in query scope")
  | none =>
      match groups.flatMap fun group => group.2.filter fun entry => entry.1.name == field with
      | [] => .ok none
      | [entry] => .ok (some entry.2)
      | _ => .error (.invalidQuery
          s!"Ambiguous column '{field}': exists in multiple joined tables, qualify with table name")

def resolveJoinedColumnDef (field : String) (tables : List (String × List ColumnDef)) :
    Except (QueryError J) (Option ColumnDef) :=
  match splitOnce field with
  | some (table, column) =>
      match tables.find? fun group => group.1 == table with
      | some group => .ok (columnDef column group.2)
      | none => .error (.invalidQuery s!"Table '{table}' not in query scope")
  | none =>
      match tables.flatMap fun group => group.2.filter fun column => column.name == field with
      | [] => .ok none
      | [column] => .ok (some column)
      | _ => .error (.invalidQuery
          s!"Ambiguous column '{field}': exists in multiple joined tables, qualify with table name")

namespace Filter
variable [LinearOrder J] (P : Predicates J F)

/-- `matches_joined_row_ref`. -/
def matchesJoined : Filter J F → Groups J → Except (QueryError J) Bool
  | .eq field value, groups => do return (← resolveJoinedColumn field groups).any fun v => v = value
  | .ne field value, groups => do return (← resolveJoinedColumn field groups).any fun v => v ≠ value
  | .gt field value, groups => do return (← resolveJoinedColumn field groups).any fun v => value < v
  | .lt field value, groups => do return (← resolveJoinedColumn field groups).any fun v => v < value
  | .ge field value, groups => do return (← resolveJoinedColumn field groups).any fun v => value ≤ v
  | .le field value, groups => do return (← resolveJoinedColumn field groups).any fun v => v ≤ value
  | .inList field list, groups => do return (← resolveJoinedColumn field groups).any fun v => v ∈ list
  | .json field filter, groups => do matchesJson P field filter (← resolveJoinedColumn field groups)
  | .like field pattern, groups => do
      match ← resolveJoinedColumn field groups with
      | none => return false
      | some value => matchesLike P pattern value
  | .notNull field, groups => do return (← resolveJoinedColumn field groups).any fun v => !v.isNull
  | .isNull field, groups => do return (← resolveJoinedColumn field groups).any Value.isNull
  | .and left right, groups => do
      if ← left.matchesJoined groups then right.matchesJoined groups else return false
  | .or left right, groups => do
      if ← left.matchesJoined groups then return true else right.matchesJoined groups
  | .not inner, groups => do return !(← inner.matchesJoined groups)

/-- The check of a filter against the columns of the joined tables. -/
def validateJoined : Filter J F → List (String × List ColumnDef) → Except (QueryError J) Unit
  | .json field _, tables => do
      let column ← resolveJoinedColumnDef field tables
      if !column.any fun column => column.dataType = .json then
        throw (.invalidQuery s!"Column '{field}' is not a Json type")
  | .like field pattern, tables => do
      match (← resolveJoinedColumnDef field tables).map ColumnDef.dataType with
      | some .text =>
          match P.likeParse pattern with
          | .ok _ => return ()
          | .error e => throw (.invalidQuery s!"Invalid LIKE pattern {pattern}: {e}")
      | some _ => throw (.invalidQuery "LIKE operator can only be applied to Text values")
      | none => return ()
  | .and left right, tables | .or left right, tables => do
      left.validateJoined tables
      right.validateJoined tables
  | .not inner, tables => inner.validateJoined tables
  | .eq field _, tables | .ne field _, tables | .gt field _, tables | .lt field _, tables | .ge field _, tables
  | .le field _, tables | .inList field _, tables | .notNull field, tables | .isNull field, tables => do
      let _ ← resolveJoinedColumnDef field tables

end Filter

/-! ## Queries with joins -/

/-- A query with a filter only. -/
def Query.matching (filter : Filter J F) : Query J F := ⟨some filter, [], [], none, none⟩

inductive JoinType where
  | inner
  | left
  | right
  | full
  deriving DecidableEq

namespace JoinType

def keepUnmatchedLeft : JoinType → Bool
  | left | full => true
  | inner | right => false

def keepUnmatchedRight : JoinType → Bool
  | right | full => true
  | inner | left => false

end JoinType

/-- A join clause; an unqualified column on the left belongs to the FROM table. -/
structure Join where
  joinType : JoinType
  table : String
  leftColumn : String
  rightColumn : String

/-- A query with joins; no columns stand for all of them. -/
structure JoinQuery (J F : Type) extends Query J F where
  joins : List Join
  columns : Option (List String)

structure JoinColumnDef where
  table : Option String
  name : String
  dataType : DataTypeKind
  nullable : Bool
  primaryKey : Bool
  foreignKey : Option ForeignKeyDef

def JoinColumnDef.of (table : String) (column : ColumnDef) : JoinColumnDef :=
  ⟨some table, column.name, column.dataType, column.nullable, column.primaryKey, column.foreignKey⟩

structure JoinResultSet (J : Type) where
  columns : List JoinColumnDef
  rows : List (List (Value J))

/-- `resolve_column_ref`. -/
def resolveColumnRef (field defaultTable : String) : String × String := (splitOnce field).getD (defaultTable, field)

/-- `find_value`. -/
def findJoinedValue (column : String) (groups : Groups J) : Option (Value J) :=
  match splitOnce column with
  | some (table, column) => (groups.filter fun group => group.1 == table).findSome? fun group => findColumn column group.2
  | none => groups.findSome? fun group => findColumn column group.2

/-- `selected_columns`: a column can be selected by its name, also with its table. -/
def isSelected (selected : Option (List String)) (table : String) (column : ColumnDef) : Bool :=
  selected.all fun fields => fields.any fun field => field == column.name || field == table ++ "." ++ column.name

def selectedColumns (selected : Option (List String)) (table : String) (columns : List ColumnDef) : List Bool :=
  columns.map (isSelected selected table)

/-- `materialize_row`. -/
def materializeRow (selected : List (List Bool)) (groups : Groups J) : List (Value J) :=
  (groups.zip selected).flatMap fun group =>
    (group.1.2.zip group.2).filterMap fun entry => if entry.2 then some entry.1.2 else none

def JoinQuery.resultColumns (query : JoinQuery J F) (tables : List (String × List ColumnDef)) : List JoinColumnDef :=
  tables.flatMap fun table => (table.2.filter (isSelected query.columns table.1)).map (JoinColumnDef.of table.1)

section Finish
variable [LinearOrder J] {α : Type} (groups : α → Groups J)

def joinedRowMatches (P : Predicates J F) (filter : Option (Filter J F)) (groups : Groups J) :
    Except (Failure J) Bool :=
  match filter with
  | some filter => Failure.lift ((filter.matchesJoined P groups).mapError .query)
  | none => .ok true

/-- The rows that match the filter. -/
def filterJoined (P : Predicates J F) (filter : Option (Filter J F)) : List α → Except (Failure J) (List α)
  | [] => .ok []
  | row :: rest => do
      let keep ← joinedRowMatches P filter (groups row)
      let rest ← filterJoined P filter rest
      return if keep then row :: rest else rest

def sortJoinedRows (rows : List α) (column : String) (direction : OrderDirection) : List α :=
  rows.mergeSort fun a b =>
    sortValuesWithDirection (findJoinedValue column (groups a)) (findJoinedValue column (groups b)) direction != .gt

/-- The filter, the order and the page of a query over its joined rows. -/
def finishJoin (P : Predicates J F) (query : JoinQuery J F) (rows : List α) : Except (Failure J) (List α) := do
  let rows ← filterJoined groups P query.filter rows
  let rows := query.orderBy.foldr (fun order rows => sortJoinedRows groups rows order.1 order.2) rows
  let rows := rows.drop (query.offset.getD 0)
  match query.limit with
  | some limit => return rows.take limit
  | none => return rows

end Finish

/-! ## The engine -/

/-- The rows of one table that take part in a join. -/
structure JoinSide (J : Type) where
  table : String
  columns : List ColumnDef
  rows : List (Row J)

/-- For each side the index of its row, or `none` where the side is padded. -/
abbrev RowRef := List (Option ℕ)

/-- The position of a join key: its side and its column. -/
abbrev KeyPosition := ℕ × ℕ

/-- A row of NULL values. -/
def nullRow (columns : List ColumnDef) : Row J := columns.map fun column => (column, .null)

def columnPosition (columns : List ColumnDef) (column : String) : Option ℕ :=
  columns.findIdx? fun definition => definition.name == column

/-- The value in a position of a row; NULL keys never match. -/
def keyAt (column : ℕ) (row : Row J) : Option (Value J) :=
  (row[column]?.map Prod.snd).filter fun value => !value.isNull

def JoinSide.row (side : JoinSide J) : Option ℕ → Row J
  | some index => side.rows.getD index []
  | none => nullRow side.columns

def rowGroups (sides : List (JoinSide J)) (row : RowRef) : Groups J :=
  List.zipWith (fun side index => (side.table, side.row index)) sides row

/-- A table or a column that the query does not know yet gives no key. -/
def leftKey (sides : List (JoinSide J)) (table column : String) : Option KeyPosition := do
  let sideIndex ← sides.findIdx? fun side => side.table == table
  let side ← sides[sideIndex]?
  return (sideIndex, ← columnPosition side.columns column)

def leftValue (sides : List (JoinSide J)) (key : Option KeyPosition) (row : RowRef) : Option (Value J) := do
  let (sideIndex, column) ← key
  let side ← sides[sideIndex]?
  let index ← row[sideIndex]?.join
  keyAt column (side.rows.getD index [])

section Engine
variable [LinearOrder J]

def shouldPushDownJoinKeys (table : TableDef J) (column : String) (keyCount : ℕ) : Bool :=
  keyCount ≤ maxAlternatives && table.indexes.any fun index => index.columns.head? == some column

/-- The hash table over the indexes of the right rows. -/
def buildIndexes (rightSide : JoinSide J) (rightColumn : String) : List (Value J × List ℕ) :=
  match columnPosition rightSide.columns rightColumn with
  | some column =>
      HashJoin.build (fun index => keyAt column (rightSide.rows.getD index [])) (List.range rightSide.rows.length)
  | none => []

/-- The right rows a joined row matches. -/
def probe (sides : List (JoinSide J)) (key : Option KeyPosition) (build : List (Value J × List ℕ)) (row : RowRef) :
    Option (List ℕ) :=
  (leftValue sides key row).bind fun value => HashJoin.lookup value build

def hashJoin (sides : List (JoinSide J)) (rows : List RowRef) (key : Option KeyPosition) (rightSide : JoinSide J)
    (rightColumn : String) (keepUnmatchedLeft keepUnmatchedRight : Bool) : List RowRef :=
  let build := buildIndexes rightSide rightColumn
  let results := rows.flatMap fun row =>
    match probe sides key build row with
    | some rightIndexes => rightIndexes.map fun index => row ++ [some index]
    | none => if keepUnmatchedLeft then [row ++ [none]] else []
  let rightMatched (index : ℕ) := rows.any fun row => (probe sides key build row).any fun hits => index ∈ hits
  let unmatched := (List.range rightSide.rows.length).filter fun index => !rightMatched index
  results ++ if keepUnmatchedRight then unmatched.map fun index => List.replicate sides.length none ++ [some index] else []

namespace Database
variable (db : Database J F) (tx : Option (Transaction J F)) (s : DbState J)

/-- The rows of the right table that can take part in the join. -/
def loadJoinRightRows (sides : List (JoinSide J)) (rows : List RowRef) (key : Option KeyPosition)
    (rightTable : TableDef J) (rightColumn : String) (keepUnmatchedRight : Bool) : Except (Failure J) (List (Row J)) :=
  if keepUnmatchedRight then db.selectColumns tx s rightTable .all
  else
    let values := (rows.filterMap (leftValue sides key)).eraseDups
    if values.isEmpty then .ok []
    else if !shouldPushDownJoinKeys rightTable rightColumn values.length then
      db.selectColumns tx s rightTable (.matching (.ne rightColumn .null))
    else db.selectColumns tx s rightTable (.matching (.inList rightColumn values))

/-- The loop over the join clauses. -/
def joinClauses (fromTable : String) : List (Join × TableDef J) → List (JoinSide J) → List RowRef →
    Except (Failure J) (List (JoinSide J) × List RowRef)
  | [], sides, rows => .ok (sides, rows)
  | (join, table) :: rest, sides, rows => do
      let left := resolveColumnRef join.leftColumn fromTable
      let right := resolveColumnRef join.rightColumn join.table
      let key := leftKey sides left.1 left.2
      let rightRows ← loadJoinRightRows db tx s sides rows key table right.2 join.joinType.keepUnmatchedRight
      let rightSide : JoinSide J := ⟨join.table, table.columns, rightRows⟩
      joinClauses fromTable rest (sides ++ [rightSide])
        (hashJoin sides rows key rightSide right.2 join.joinType.keepUnmatchedLeft join.joinType.keepUnmatchedRight)

def validateJoin (filter : Option (Filter J F)) (tables : List (String × List ColumnDef)) : Except (Failure J) Unit :=
  match filter with
  | some filter => Failure.lift ((filter.validateJoined db.predicates tables).mapError .query)
  | none => .ok ()

/-- The tables of a query, with the check of its filter against their columns. -/
def resolveJoin (fromTable : String) (query : JoinQuery J F) :
    Except (Failure J) (TableDef J × List (Join × TableDef J)) := do
  let source ← Failure.lift (db.schema.table fromTable)
  let joined ← query.joins.mapM fun join => do return (join, ← Failure.lift (db.schema.table join.table))
  db.validateJoin query.filter
    ((fromTable, source.columns) :: joined.map fun join => (join.1.table, join.2.columns))
  return (source, joined)

/-- `JoinEngine::join`. -/
def join (fromTable : String) (query : JoinQuery J F) : Except (Failure J) (JoinResultSet J) := do
  let (source, joined) ← db.resolveJoin fromTable query
  let fromRows ← db.selectColumns tx s source .all
  let rows := (List.range fromRows.length).map fun index => [some index]
  let (sides, rows) ← db.joinClauses tx s fromTable joined [⟨fromTable, source.columns, fromRows⟩] rows
  let rows ← finishJoin (rowGroups sides) db.predicates query rows
  let selected := sides.map fun side => selectedColumns query.columns side.table side.columns
  return ⟨query.resultColumns (sides.map fun side => (side.table, side.columns)),
    rows.map fun row => materializeRow selected (rowGroups sides row)⟩

end Database
end Engine
end WasmDbms
