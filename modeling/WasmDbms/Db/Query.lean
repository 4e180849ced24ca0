import Mathlib.Data.List.Sort
import WasmDbms.Db.Transaction

/-!
# Queries

What `select_columns` does with the rows it visits, for a query that selects all
columns: the filter, the distinct rows, the order and the page. The page is cut while
the rows are read, or at the end if the query orders or deduplicates.
-/
namespace WasmDbms
open Result

variable {J F : Type} [LinearOrder J]

inductive OrderDirection where
  | ascending
  | descending
  deriving DecidableEq

def sortValuesWithDirection (a b : Option (Value J)) (direction : OrderDirection) : Ordering :=
  match a, b with
  | some a, some b =>
      match direction with
      | .ascending => compare a b
      | .descending => compare b a
  | some _, none => .gt
  | none, some _ => .lt
  | none, none => .eq

structure Query (J F : Type) where
  filter : Option (Filter J F)
  distinctBy : List String
  orderBy : List (String × OrderDirection)
  offset : Option ℕ
  limit : Option ℕ

namespace Query

/-- A query without options. -/
def all : Query J F := ⟨none, [], [], none, none⟩

/-- The page is cut after sorting and deduplication. -/
def deferPagination (query : Query J F) : Bool := !query.orderBy.isEmpty || !query.distinctBy.isEmpty

end Query

/-- Keeps the first row for each key that has not been seen. -/
def retainDistinct (columns : List String) : List (List (Value J)) → List (Row J) → List (Row J)
  | _, [] => []
  | seen, row :: rest =>
      let key := columns.map fun column => (findColumn column row).getD .null
      if key ∈ seen then retainDistinct columns seen rest
      else row :: retainDistinct columns (key :: seen) rest

def applyDistinct (distinctBy : List String) (results : List (Row J)) : List (Row J) :=
  if distinctBy.isEmpty then results else retainDistinct distinctBy [] results

def sortQueryResults (results : List (Row J)) (column : String) (direction : OrderDirection) : List (Row J) :=
  results.mergeSort fun a b =>
    sortValuesWithDirection (findColumn column a) (findColumn column b) direction != .gt

namespace Database
variable (db : Database J F)

/-- The loop over the visited rows: it leaves out the rows before the page and stops
behind it. -/
def takePage (filter : Option (Filter J F)) : ℕ → Option ℕ → List (Row J) → Except (Failure J) (List (Row J))
  | _, _, [] => .ok []
  | offset, limit, row :: rest => do
      let keep ← db.recordMatchesFilter row filter
      if !keep then takePage filter offset limit rest
      else match offset, limit with
        | offset + 1, limit => takePage filter offset limit rest
        | 0, none => do
            let rest ← takePage filter 0 none rest
            return row :: rest
        | 0, some 0 => return []
        | 0, some 1 => return [row]
        | 0, some (limit + 2) => do
            let rest ← takePage filter 0 (some (limit + 1)) rest
            return row :: rest

/-- The rows a query visits: those of the access path, or in a transaction those of the
stored rows and its overlay. -/
def visited (tx : Option (Transaction J F)) (s : DbState J) (table : TableDef J) (filter : Option (Filter J F)) :
    List (Row J) :=
  match tx with
  | some tx => db.visit table filter (s table.name).rows (tx.overlay table.name)
  | none => (db.access table filter (s table.name).rows).map Prod.snd

/-- `select_columns`, with the columns of each row. -/
def selectColumns (tx : Option (Transaction J F)) (s : DbState J) (table : TableDef J) (query : Query J F) :
    Except (Failure J) (List (Row J)) := do
  let deferred := query.deferPagination
  let results ← db.takePage query.filter (if deferred then 0 else query.offset.getD 0)
    (if deferred then none else query.limit) (db.visited tx s table query.filter)
  let distinct := applyDistinct query.distinctBy results
  let sorted := query.orderBy.foldr (fun order results => sortQueryResults results order.1 order.2) distinct
  if !deferred then return sorted
  let behind := sorted.drop (query.offset.getD 0)
  match query.limit with
  | some limit => return behind.take limit
  | none => return behind

end Database

theorem retainDistinct_subset {columns : List String} {seen : List (List (Value J))} {results : List (Row J)} :
    retainDistinct columns seen results ⊆ results := by
  induction results generalizing seen with
  | nil => exact List.Subset.refl _
  | cons row rest ih =>
      rw [retainDistinct]
      split
      · exact List.subset_cons_of_subset _ ih
      · exact List.cons_subset_cons _ ih

theorem applyDistinct_subset {distinctBy : List String} {results : List (Row J)} :
    applyDistinct distinctBy results ⊆ results := by
  rw [applyDistinct]
  split
  · exact List.Subset.refl _
  · exact retainDistinct_subset

/-- Sorting by the columns of an order keeps the rows. -/
theorem sorted_perm {orderBy : List (String × OrderDirection)} {results : List (Row J)} :
    (orderBy.foldr (fun order results => sortQueryResults results order.1 order.2) results).Perm results := by
  induction orderBy with
  | nil => exact .refl _
  | cons order rest ih => exact (List.mergeSort_perm _ _).trans ih

namespace Database
variable {db : Database J F} {filter : Option (Filter J F)}

theorem takePage_subset {offset : ℕ} {limit : Option ℕ} {rows found : List (Row J)}
    (run : db.takePage filter offset limit rows = .ok found) : found ⊆ rows := by
  induction rows generalizing offset limit found with
  | nil =>
      cases run
      exact List.Subset.refl _
  | cons row rest ih =>
      obtain ⟨keep, _, run⟩ := bind_eq_ok.mp run
      cases keep with
      | false => exact List.subset_cons_of_subset _ (ih run)
      | true =>
          cases offset with
          | succ offset => exact List.subset_cons_of_subset _ (ih run)
          | zero =>
              match limit with
              | none =>
                  obtain ⟨others, later, run⟩ := bind_eq_ok.mp run
                  cases run
                  exact List.cons_subset_cons _ (ih later)
              | some 0 =>
                  cases run
                  exact List.nil_subset _
              | some 1 =>
                  cases run
                  exact List.cons_subset_cons _ (List.nil_subset _)
              | some (limit + 2) =>
                  obtain ⟨others, later, run⟩ := bind_eq_ok.mp run
                  cases run
                  exact List.cons_subset_cons _ (ih later)

/-- A query returns rows it has visited. -/
theorem selectColumns_subset {tx : Option (Transaction J F)} {s : DbState J} {table : TableDef J}
    {query : Query J F} {rows : List (Row J)} (run : db.selectColumns tx s table query = .ok rows) :
    rows ⊆ db.visited tx s table query.filter := by
  obtain ⟨results, taken, run⟩ := bind_eq_ok.mp run
  have sorted : query.orderBy.foldr (fun order results => sortQueryResults results order.1 order.2)
      (applyDistinct query.distinctBy results) ⊆ db.visited tx s table query.filter :=
    List.Subset.trans (List.Subset.trans sorted_perm.subset applyDistinct_subset) (takePage_subset taken)
  dsimp only at run
  split at run
  · cases run
    exact sorted
  · split at run
    · cases run
      exact List.Subset.trans (List.Subset.trans (List.take_subset _ _) (List.drop_subset _ _)) sorted
    · cases run
      exact List.Subset.trans (List.drop_subset _ _) sorted

end Database
end WasmDbms
