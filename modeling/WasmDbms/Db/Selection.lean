import WasmDbms.Db.IndexSelect
import WasmDbms.Db.Query

/-!
# The columns of a query

`select_columns` with a selection of columns. The rows come from an index that has all
the columns that are needed, from the candidates of an index path, or from a scan. The
columns that are not selected go before the rows are sorted.
-/
namespace WasmDbms
open Result

variable {J F : Type} [LinearOrder J]

inductive Select where
  | all
  | columns (names : List String)
  deriving DecidableEq

/-- A query with the columns it selects. -/
structure SelectQuery (J F : Type) extends Query J F where
  columns : Select

/-- What `retain` leaves of a row. -/
def retainColumns {J : Type} (names : List String) (row : Row J) : Row J := row.filter fun entry => entry.1.name ∈ names

namespace SelectQuery

section Definitions
variable {J F : Type} (query : SelectQuery J F)

def columnNames (table : TableDef J) : List String :=
  match query.columns with
  | .all => table.columns.map ColumnDef.name
  | .columns names => names

/-- `apply_column_selection`. -/
def applyColumnSelection (results : List (Row J)) : List (Row J) :=
  match query.columns with
  | .all => results
  | .columns names => results.map (retainColumns names)

/-- The columns a query reads: those it selects and those of its clauses. -/
def needed (table : TableDef J) : List String :=
  query.columnNames table ++ query.orderBy.map Prod.fst ++ query.distinctBy ++ query.filter.elim [] Filter.columns

def covers (table : TableDef J) (columns : List String) : Bool :=
  (query.needed table).all fun column => column ∈ columns

/-- Key positions of the covered columns, in table column order. -/
def layout (table : TableDef J) (columns : List String) : List (ℕ × ColumnDef) :=
  table.columns.filterMap fun column =>
    (columns.findIdx? fun name => name == column.name).map fun position => (position, column)

def keyValues (layout : List (ℕ × ColumnDef)) (key : List (Value J)) : Row J :=
  layout.map fun entry => (entry.2, key[entry.1]?.getD .null)

/-- Only a query without order and deduplication can stop before the end of the scan. -/
def stopAfter : Option ℕ :=
  if query.orderBy.isEmpty && query.distinctBy.isEmpty then query.limit.map fun limit => query.offset.getD 0 + limit
  else none

end Definitions

section Sources
variable (db : Database J F) (query : SelectQuery J F) (table : TableDef J) (data : TableData J)

def plannedScan : Option (IndexScan J) :=
  match query.filter with
  | some filter =>
      match planFilter filter table.indexes table.columns with
      | some (.scan scan) => some scan
      | _ => none
  | none =>
      (table.indexes.find? fun index : IndexDef => query.covers table index.columns).map fun index =>
        .ofPrefix index.columns []

/-- The scan of an index that has all the columns of the query. -/
def coveringScan (inTransaction : Bool) : Option (IndexScan J) :=
  if inTransaction || query.filter.any Filter.isFallible then none
  else (query.plannedScan table).filter fun scan => query.covers table scan.columns

def keyMatches (values : Row J) : Except (DbmsError J) Bool :=
  match query.filter with
  | some filter => (filter.matches db.predicates values).mapError .query
  | none => .ok true

def visitKey (layout : List (ℕ × ColumnDef)) (rows : List (Row J)) (key : List (Value J)) (_ : RecordAddress) :
    Except (DbmsError J) (ControlFlow (List (Row J))) := do
  let values := keyValues layout key
  let keep ← query.keyMatches db values
  if !keep then return .next rows
  let rows := rows ++ [values]
  return if query.stopAfter.any fun limit => limit ≤ rows.length then .stop rows else .next rows

/-- `try_covering_select`: the rows, with the columns of the index, from its keys. -/
def tryCoveringSelect (inTransaction : Bool) : Except (Failure J) (Option (List (Row J))) :=
  match query.coveringScan table inTransaction with
  | none => .ok none
  | some scan =>
      if query.limit = some 0 then .ok (some [])
      else do
        let rows ← Failure.lift
          (IndexReader.forEachEntry data.indexes scan (query.visitKey db (layout table scan.columns)) [])
        return some rows

variable (inTransaction : Bool) (changes : Option (List (Operation J)))

/-- The rows an index gives, if one does. -/
def indexedRows : Except (Failure J) (Option (List (Row J))) := do
  match ← query.tryCoveringSelect db table data inTransaction with
  | some rows => return some rows
  | none =>
      match query.filter with
      | some filter => db.tryIndexSelect table filter data changes
      | none => return none

/-- The loops over the rows of an index and over those of a scan. -/
def readRows : Except (Failure J) (List (Row J)) := do
  let offset := if query.deferPagination then 0 else query.offset.getD 0
  let limit := if query.deferPagination then none else query.limit
  match ← query.indexedRows db table data inTransaction changes with
  | some rows => db.takePage none offset limit rows
  | none => db.takePage query.filter offset limit (overlayReader changes (data.rows.map Prod.snd))

/-- The rows in the order of the clause, the first column first. -/
def sortBy (orderBy : List (String × OrderDirection)) (results : List (Row J)) : List (Row J) :=
  orderBy.foldr (fun order results => sortQueryResults results order.1 order.2) results

def cutRows (offset : ℕ) (limit : Option ℕ) (results : List (Row J)) : List (Row J) :=
  match limit with
  | some limit => (results.drop offset).take limit
  | none => results.drop offset

def cutPage (results : List (Row J)) : List (Row J) := cutRows (query.offset.getD 0) query.limit results

/-- `select_columns`. -/
def selectColumns : Except (Failure J) (List (Row J)) := do
  let results ← query.readRows db table data inTransaction changes
  let results := applyDistinct query.distinctBy results
  let results := query.applyColumnSelection results
  let results := sortBy query.orderBy results
  return if query.deferPagination then query.cutPage results else results

end Sources

end SelectQuery

/-! ## Rows with fewer columns -/

section Retain
variable {names : List String} {row : Row J}

omit [LinearOrder J] in
theorem findColumn_retain {name : String} (kept : name ∈ names) :
    findColumn name (retainColumns names row) = findColumn name row := by
  unfold findColumn retainColumns
  rw [List.find?_filter]
  congr 2
  funext entry
  by_cases here : entry.1.name = name
  · simp [here, kept]
  · simp [here]

omit [LinearOrder J] in
theorem findColumn_retain_none {name : String} (dropped : name ∉ names) :
    findColumn name (retainColumns names row) = none := by
  refine findColumn_none fun named => ?_
  obtain ⟨entry, member, rfl⟩ := List.mem_map.mp named
  exact dropped (by simpa using (List.mem_filter.mp member).2)

omit [LinearOrder J] in
theorem anyColumn_retain {name : String} (kept : name ∈ names) (test : Value J → Bool) :
    anyColumn name test (retainColumns names row) = anyColumn name test row := by
  unfold anyColumn retainColumns
  rw [List.any_filter]
  congr 1
  funext entry
  by_cases here : entry.1.name = name
  · simp [here, kept]
  · simp [here]

/-- A filter looks at its own columns only. -/
theorem Filter.matches_retain {P : Predicates J F} {filter : Filter J F} (kept : ∀ c ∈ filter.columns, c ∈ names) :
    filter.matches P (retainColumns names row) = filter.matches P row := by
  induction filter with
  | and left right ihl ihr =>
      obtain ⟨keptLeft, keptRight⟩ := List.forall_mem_append.mp kept
      rw [Filter.matches, Filter.matches, ihl keptLeft, ihr keptRight]
  | or left right ihl ihr =>
      obtain ⟨keptLeft, keptRight⟩ := List.forall_mem_append.mp kept
      rw [Filter.matches, Filter.matches, ihl keptLeft, ihr keptRight]
  | not inner ih => rw [Filter.matches, Filter.matches, ih kept]
  | json field filter =>
      have here : field ∈ names := kept field (List.mem_singleton.mpr rfl)
      rw [Filter.matches, Filter.matches, findColumn_retain here]
  | like field pattern =>
      have here : field ∈ names := kept field (List.mem_singleton.mpr rfl)
      rw [Filter.matches, Filter.matches, findColumn_retain here]
  | eq field _ | ne field _ | gt field _ | lt field _ | ge field _ | inList field _ | le field _ | notNull field
  | isNull field =>
      have here : field ∈ names := kept field (List.mem_singleton.mpr rfl)
      rw [Filter.matches, Filter.matches, anyColumn_retain here]

end Retain

/-! ## The clauses over full rows -/

namespace SelectQuery

/-- The rows that match, with all their columns, in the order in which the query reads them. -/
def readOrder (db : Database J F) (query : SelectQuery J F) (table : TableDef J) (data : TableData J)
    (inTransaction : Bool) (changes : Option (List (Operation J))) : Except (Failure J) (List (Row J)) := do
  match query.coveringScan table inTransaction with
  | some scan =>
      let addresses ← Failure.lift
        (IndexReader.forEachEntry data.indexes scan (fun found _ address => .ok (.next (found ++ [address]))) [])
      let rows ← Failure.lift (addresses.mapM data.readAt)
      db.selectMatching query.filter rows
  | none =>
      match ← query.indexedRows db table data inTransaction changes with
      | some rows => return rows
      | none => db.selectMatching query.filter (overlayReader changes (data.rows.map Prod.snd))

/-- The part of the order whose columns are selected. -/
def selectedOrder {J F : Type} (query : SelectQuery J F) : List (String × OrderDirection) :=
  match query.columns with
  | .all => query.orderBy
  | .columns names => query.orderBy.filter fun order => order.1 ∈ names

section Clauses
variable {f : Row J → Row J} {rows : List (Row J)}

theorem retainDistinct_map {columns : List String} (same : ∀ c ∈ columns, ∀ row, findColumn c (f row) = findColumn c row)
    (seen : List (List (Value J))) :
    retainDistinct columns seen (rows.map f) = (retainDistinct columns seen rows).map f := by
  induction rows generalizing seen with
  | nil => rfl
  | cons row rest ih =>
      have key : (columns.map fun column => (findColumn column (f row)).getD Value.null) =
          columns.map fun column => (findColumn column row).getD .null :=
        List.map_congr_left fun c member => by rw [same c member row]
      rw [List.map_cons, retainDistinct, retainDistinct, key]
      split
      · exact ih seen
      · rw [List.map_cons, ih]

theorem applyDistinct_map {distinctBy : List String}
    (same : ∀ c ∈ distinctBy, ∀ row, findColumn c (f row) = findColumn c row) :
    applyDistinct distinctBy (rows.map f) = (applyDistinct distinctBy rows).map f := by
  unfold applyDistinct
  split
  · rfl
  · exact retainDistinct_map same []

theorem sortQueryResults_map {column : String} (same : ∀ row, findColumn column (f row) = findColumn column row)
    (direction : OrderDirection) :
    sortQueryResults (rows.map f) column direction = (sortQueryResults rows column direction).map f := by
  refine (List.map_mergeSort fun a _ b _ => ?_).symm
  rw [same, same]

/-- A column that the rows do not have does not order them. -/
theorem sortQueryResults_absent {column : String} (absent : ∀ row ∈ rows, findColumn column row = none)
    (direction : OrderDirection) : sortQueryResults rows column direction = rows := by
  refine List.mergeSort_of_pairwise (List.pairwise_iff_forall_sublist.mpr fun {a b} sub => ?_)
  have pair := sub.subset
  rw [absent a (pair List.mem_cons_self), absent b (pair (List.mem_cons_of_mem _ List.mem_cons_self))]
  rfl

theorem sortBy_map {orderBy : List (String × OrderDirection)}
    (same : ∀ order ∈ orderBy, ∀ row, findColumn order.1 (f row) = findColumn order.1 row) :
    sortBy orderBy (rows.map f) = (sortBy orderBy rows).map f := by
  induction orderBy with
  | nil => rfl
  | cons order rest ih =>
      rw [List.forall_mem_cons] at same
      change sortQueryResults (sortBy rest (rows.map f)) order.1 order.2 =
        (sortQueryResults (sortBy rest rows) order.1 order.2).map f
      rw [ih same.2, sortQueryResults_map same.1]

/-- The columns that are gone do not order the rows. -/
theorem sortBy_retain (names : List String) (orderBy : List (String × OrderDirection)) :
    sortBy orderBy (rows.map (retainColumns names)) =
      (sortBy (orderBy.filter fun order => order.1 ∈ names) rows).map (retainColumns names) := by
  induction orderBy with
  | nil => rfl
  | cons order rest ih =>
      change sortQueryResults (sortBy rest (rows.map (retainColumns names))) order.1 order.2 = _
      rw [ih]
      by_cases kept : order.1 ∈ names
      · rw [List.filter_cons_of_pos (by simpa using kept), sortQueryResults_map fun row => findColumn_retain kept]
        rfl
      · rw [List.filter_cons_of_neg (by simpa using kept)]
        refine sortQueryResults_absent (fun row member => ?_) _
        obtain ⟨full, _, rfl⟩ := List.mem_map.mp member
        exact findColumn_retain_none kept

omit [LinearOrder J] in
theorem cutRows_map (offset : ℕ) (limit : Option ℕ) :
    cutRows offset limit (rows.map f) = (cutRows offset limit rows).map f := by
  cases limit with
  | none => exact List.map_drop.symm
  | some limit =>
      change (List.drop offset (rows.map f)).take limit = ((rows.drop offset).take limit).map f
      rw [← List.map_drop, ← List.map_take]

variable (query : SelectQuery J F)

/-- Sorting what is left of the rows is sorting the rows by the columns that are left. -/
theorem sortBy_applyColumnSelection :
    sortBy query.orderBy (query.applyColumnSelection rows) =
      query.applyColumnSelection (sortBy query.selectedOrder rows) := by
  unfold applyColumnSelection selectedOrder
  cases query.columns with
  | all => rfl
  | columns names => exact sortBy_retain names _

omit [LinearOrder J] in
theorem cutPage_applyColumnSelection :
    query.cutPage (query.applyColumnSelection rows) = query.applyColumnSelection (query.cutPage rows) := by
  unfold applyColumnSelection cutPage
  cases query.columns with
  | all => rfl
  | columns names => exact cutRows_map _ _

end Clauses

end SelectQuery

end WasmDbms
