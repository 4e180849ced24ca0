import Mathlib.Logic.Function.Basic
import WasmDbms.Db.Overlay
import WasmDbms.Db.Schema
import WasmDbms.Lib.Result

/-!
# The stored tables

A table is the list of its live records with their addresses and the entries of
its indexes. Which records a query visits, and in which order, depends on the access
path; it is a parameter.
-/
namespace WasmDbms

variable {J F : Type} [LinearOrder J]

structure TableData (J : Type) where
  rows : List (RecordAddress × Row J)
  indexes : IndexLedger J

/-- The tables by their names. -/
abbrev DbState (J : Type) := String → TableData J

/-- How an operation ends without a value. -/
inductive Failure (J : Type) where
  | error (e : DbmsError J)
  | panics
  | diverges

/-- `?` on a result without calls that can run for ever. -/
def Failure.lift {J α : Type} : Except (DbmsError J) α → Except (Failure J) α
  | .ok a => .ok a
  | .error e => .error (.error e)

theorem Failure.lift_eq_ok {J α : Type} {x : Except (DbmsError J) α} {a : α} : lift x = .ok a ↔ x = .ok a := by
  cases x <;> simp [lift]

theorem Failure.lift_ne_diverges {J α : Type} {x : Except (DbmsError J) α} : lift x ≠ .error .diverges := by
  cases x <;> simp [lift]

theorem Failure.lift_ne_panics {J α : Type} {x : Except (DbmsError J) α} : lift x ≠ .error .panics := by
  cases x <;> simp [lift]

/-- The database: its schema, the predicates of its filters, the records the access
path for a filter visits, among them all that match, the rows it visits in a
transaction with changes to the table, and where the table registry puts a record: at
an address that is not taken, and back at its own when its size stays the same. -/
structure Database (J F : Type) [LinearOrder J] where
  schema : DatabaseSchema J
  predicates : Predicates J F
  access : TableDef J → Option (Filter J F) → List (RecordAddress × Row J) → List (RecordAddress × Row J)
  visits : ∀ t f rows, (access t f rows).Subperm rows
  covers : ∀ t f rows, ∀ x ∈ rows, (∀ filter, f = some filter → filter.matches predicates x.2 = .ok true) →
    x ∈ access t f rows
  visit : TableDef J → Option (Filter J F) → List (RecordAddress × Row J) → List (Operation J) → List (Row J)
  visitRows : ∀ t f rows ops, ∀ row ∈ visit t f rows ops, row ∈ overlayRows ops (rows.map Prod.snd)
  visitAll : ∀ t f rows ops,
    ((overlayRows ops (rows.map Prod.snd)).map fun row => findColumn t.primaryKey row).Nodup →
    (visit t f rows ops).Subperm (overlayRows ops (rows.map Prod.snd)) ∧
    ∀ row ∈ overlayRows ops (rows.map Prod.snd),
      (∀ filter, f = some filter → filter.matches predicates row = .ok true) → row ∈ visit t f rows ops
  place : TableDef J → List RecordAddress → Row J → RecordAddress
  fresh : ∀ t taken row, place t taken row ∉ taken
  sameSize : TableDef J → Row J → Row J → Bool

/-- A page behind all that are taken. -/
def nextPage (taken : List RecordAddress) : ℕ := taken.foldr (fun a page => max (a.page + 1) page) 0

theorem lt_nextPage {taken : List RecordAddress} {a : RecordAddress} (member : a ∈ taken) :
    a.page < nextPage taken := by
  induction taken with
  | nil => cases member
  | cons b rest ih =>
      unfold nextPage at ih ⊢
      rw [List.foldr_cons]
      rcases List.mem_cons.mp member with rfl | later
      · exact Nat.lt_of_lt_of_le (Nat.lt_succ_self _) (Nat.le_max_left _ _)
      · exact Nat.lt_of_lt_of_le (ih later) (Nat.le_max_right _ _)

/-- A database that reads its tables in the order the records were stored, one record
on each page. -/
def Database.scanning (schema : DatabaseSchema J) (predicates : Predicates J F) : Database J F where
  schema := schema
  predicates := predicates
  access _ _ rows := rows
  visits _ _ rows := .refl rows
  covers _ _ _ _ member _ := member
  visit _ _ rows ops := overlayRows ops (rows.map Prod.snd)
  visitRows _ _ _ _ _ member := member
  visitAll _ _ _ _ _ := ⟨.refl _, fun _ member _ => member⟩
  place _ taken _ := ⟨nextPage taken, 0⟩
  fresh _ _ _ member := Nat.lt_irrefl _ (lt_nextPage member)
  sameSize _ _ _ := true

namespace IndexLedger

/-- Replaces the entries of an index. -/
def modify (columns : List String) (f : List (IndexEntry J) → Except (DbmsError J) (List (IndexEntry J))) :
    IndexLedger J → Except (DbmsError J) (IndexLedger J)
  | [] => .error (.memory (.indexNotFound columns))
  | index :: rest =>
      if index.1 = columns then do
        let entries ← f index.2
        return (index.1, entries) :: rest
      else do
        let rest ← modify columns f rest
        return index :: rest

def delete (ledger : IndexLedger J) (columns : List String) (key : List (Value J)) (pointer : RecordAddress) :
    Except (DbmsError J) (IndexLedger J) :=
  ledger.modify columns fun entries =>
    if (key, pointer) ∈ entries then .ok (entries.erase (key, pointer)) else .error (.memory .entryNotFound)

def insert (ledger : IndexLedger J) (columns : List String) (key : List (Value J)) (pointer : RecordAddress) :
    Except (DbmsError J) (IndexLedger J) :=
  ledger.modify columns fun entries => .ok (entries.orderedInsert (fun a b => a.1 ≤ b.1) (key, pointer))

def update (ledger : IndexLedger J) (columns : List String) (key : List (Value J))
    (old new : RecordAddress) : Except (DbmsError J) (IndexLedger J) :=
  ledger.modify columns fun entries =>
    if (key, old) ∈ entries then .ok (entries.map fun e => if e = (key, old) then (key, new) else e)
    else .error (.memory .entryNotFound)

end IndexLedger

/-- The indexes hold one entry for each record, in key order. -/
def Indexed (indexes : List IndexDef) (data : TableData J) : Prop :=
  data.indexes.map Prod.fst = indexes.map IndexDef.columns ∧
    ∀ index ∈ data.indexes, IndexOf index.1 data.rows index.2

/-- A stored table: the records have the columns of the table, their addresses are
distinct, and the indexes are theirs. -/
structure Stored (table : TableDef J) (data : TableData J) : Prop where
  rows : ∀ x ∈ data.rows, RowOf table.columns x.2
  addresses : (data.rows.map Prod.fst).Nodup
  indexed : Indexed table.indexes data

namespace Database
variable (db : Database J F)

def recordMatchesFilter (values : Row J) : Option (Filter J F) → Except (Failure J) Bool
  | some filter => Failure.lift ((filter.matches db.predicates values).mapError .query)
  | none => .ok true

/-- The records that match, or the error the filter raises. -/
def matching (filter : Option (Filter J F)) :
    List (RecordAddress × Row J) → Except (Failure J) (List (RecordAddress × Row J))
  | [] => .ok []
  | x :: rest => do
      let keep ← db.recordMatchesFilter x.2 filter
      let rest ← matching filter rest
      return if keep then x :: rest else rest

def collectMatchingRecords (table : TableDef J) (filter : Option (Filter J F)) (s : DbState J) :
    Except (Failure J) (List (RecordAddress × Row J)) :=
  db.matching filter (db.access table filter (s table.name).rows)

/-- The filter selects the record. -/
def Selects (filter : Option (Filter J F)) (values : Row J) : Prop :=
  db.recordMatchesFilter values filter = .ok true

/-- The filter can be evaluated on every record. -/
def Evaluates (filter : Option (Filter J F)) (rows : List (RecordAddress × Row J)) : Prop :=
  ∀ x ∈ rows, ∃ b, db.recordMatchesFilter x.2 filter = .ok b

end Database

namespace Database
variable {db : Database J F} {filter : Option (Filter J F)}

open Classical in
/-- What a scan with a filter returns. -/
theorem matching_eq {rows : List (RecordAddress × Row J)} (safe : db.Evaluates filter rows) :
    db.matching filter rows = .ok (rows.filter fun x => decide (db.Selects filter x.2)) := by
  induction rows with
  | nil => rfl
  | cons x rest ih =>
      obtain ⟨⟨b, first⟩, safe⟩ := List.forall_mem_cons.mp safe
      rw [matching, first, ih safe]
      cases b <;> simp [Selects, first, bind, Except.bind, pure, Except.pure]

theorem evaluates_of_matching {rows found : List (RecordAddress × Row J)}
    (run : db.matching filter rows = .ok found) : db.Evaluates filter rows := by
  induction rows generalizing found with
  | nil => exact fun _ member => absurd member List.not_mem_nil
  | cons x rest ih =>
      obtain ⟨b, first, run⟩ := Result.bind_eq_ok.mp run
      obtain ⟨others, second, _⟩ := Result.bind_eq_ok.mp run
      exact List.forall_mem_cons.mpr ⟨⟨b, first⟩, ih second⟩

/-- A filter raises an error or is evaluated on every record. -/
theorem matching_fails {rows : List (RecordAddress × Row J)} (raises : ¬ db.Evaluates filter rows) :
    ∃ e, db.matching filter rows = .error (.error e) := by
  induction rows with
  | nil => exact absurd (fun _ member => absurd member List.not_mem_nil) raises
  | cons x rest ih =>
      rw [matching]
      cases first : db.recordMatchesFilter x.2 filter with
      | error failure =>
          cases filter with
          | none => cases first
          | some filter =>
              cases failure with
              | error e => exact ⟨e, rfl⟩
              | panics => exact absurd first Failure.lift_ne_panics
              | diverges => exact absurd first Failure.lift_ne_diverges
      | ok b =>
          have later : ¬ db.Evaluates filter rest := fun safe =>
            raises (List.forall_mem_cons.mpr ⟨⟨b, first⟩, safe⟩)
          obtain ⟨e, failed⟩ := ih later
          exact ⟨e, by rw [failed]; rfl⟩

open Classical in
theorem collect_eq {table : TableDef J} {s : DbState J}
    (safe : db.Evaluates filter (db.access table filter (s table.name).rows)) :
    db.collectMatchingRecords table filter s =
      .ok ((db.access table filter (s table.name).rows).filter fun x => decide (db.Selects filter x.2)) :=
  matching_eq safe

theorem mem_access {table : TableDef J} {rows : List (RecordAddress × Row J)} {x : RecordAddress × Row J}
    (member : x ∈ db.access table filter rows) : x ∈ rows :=
  (db.visits table filter rows).subset member

theorem access_nodup {table : TableDef J} {rows : List (RecordAddress × Row J)} (nodup : rows.Nodup) :
    (db.access table filter rows).Nodup := by
  obtain ⟨visited, perm, sub⟩ := db.visits table filter rows
  exact perm.nodup_iff.mp (nodup.sublist sub)

/-- A selected record is visited. -/
theorem access_selects {table : TableDef J} {rows : List (RecordAddress × Row J)} {x : RecordAddress × Row J} :
    x ∈ db.access table filter rows ∧ db.Selects filter x.2 ↔ x ∈ rows ∧ db.Selects filter x.2 := by
  refine and_congr_left fun selects => ⟨mem_access, fun row => db.covers table filter rows x row ?_⟩
  rintro filter rfl
  have selects : Failure.lift ((filter.matches db.predicates x.2).mapError .query) = .ok true := selects
  cases result : filter.matches db.predicates x.2 with
  | error e =>
      rw [result] at selects
      cases selects
  | ok b =>
      rw [result] at selects
      cases selects
      rfl

/-- The records collected are those the filter selects. -/
theorem mem_collect {table : TableDef J} {s : DbState J} {records : List (RecordAddress × Row J)}
    (run : db.collectMatchingRecords table filter s = .ok records) {x : RecordAddress × Row J} :
    x ∈ records ↔ x ∈ (s table.name).rows ∧ db.Selects filter x.2 := by
  rw [collect_eq (evaluates_of_matching run)] at run
  cases run
  simp [access_selects]

theorem collect_nodup {table : TableDef J} {s : DbState J} {records : List (RecordAddress × Row J)}
    (run : db.collectMatchingRecords table filter s = .ok records) (nodup : (s table.name).rows.Nodup) :
    records.Nodup := by
  rw [collect_eq (evaluates_of_matching run)] at run
  cases run
  exact (access_nodup nodup).filter _

/-- An equality raises no error. -/
theorem evaluates_eq {field : String} {value : Value J} {rows : List (RecordAddress × Row J)} :
    db.Evaluates (some (.eq field value)) rows := fun _ _ => ⟨_, rfl⟩

end Database
end WasmDbms
