import WasmDbms.Db.Reader

/-!
# The access-path planner

A filter is turned into an access path over the declared indexes. The rows of the
path include every row that matches the filter.
-/
namespace WasmDbms
open Sorted

/-- Where candidate rows are looked up. -/
inductive AccessPath (J : Type) where
  | empty
  | scan (range : IndexScan J)
  | union (paths : List (AccessPath J))
  | intersection (paths : List (AccessPath J))

namespace AccessPath
variable {J : Type}

section
variable [LinearOrder J]

mutual
/-- Whether a row belongs to the path. -/
def matchesRow : AccessPath J → Row J → Bool
  | empty, _ => false
  | scan range, row => range.matchesRow row
  | union paths, row => anyMatchesRow paths row
  | intersection paths, row => allMatchRow paths row
def anyMatchesRow : List (AccessPath J) → Row J → Bool
  | [], _ => false
  | path :: paths, row => path.matchesRow row || anyMatchesRow paths row
def allMatchRow : List (AccessPath J) → Row J → Bool
  | [], _ => true
  | path :: paths, row => path.matchesRow row && allMatchRow paths row
end

theorem anyMatchesRow_iff {paths : List (AccessPath J)} {row : Row J} :
    anyMatchesRow paths row = true ↔ ∃ path ∈ paths, path.matchesRow row = true := by
  induction paths with
  | nil => simp [anyMatchesRow]
  | cons path paths ih => simp [anyMatchesRow, ih]

theorem allMatchRow_iff {paths : List (AccessPath J)} {row : Row J} :
    allMatchRow paths row = true ↔ ∀ path ∈ paths, path.matchesRow row = true := by
  induction paths with
  | nil => simp [allMatchRow]
  | cons path paths ih => simp [allMatchRow, ih]

end

mutual
/-- The columns whose changes can move a row into the path. -/
def constrainedColumns : AccessPath J → List String
  | empty => []
  | scan range => range.constrainedColumns
  | union paths | intersection paths => allConstrainedColumns paths
def allConstrainedColumns : List (AccessPath J) → List String
  | [] => []
  | path :: paths => path.constrainedColumns ++ allConstrainedColumns paths
end

mutual
/-- The number of index ranges the path reads. -/
def scanCount : AccessPath J → ℕ
  | empty => 0
  | scan _ => 1
  | union paths | intersection paths => totalScanCount paths
def totalScanCount : List (AccessPath J) → ℕ
  | [] => 0
  | path :: paths => path.scanCount + totalScanCount paths
end

def isEmpty : AccessPath J → Bool
  | empty => true
  | _ => false

/-- The scans of one index as a path. -/
def fromScans : List (IndexScan J) → AccessPath J
  | [] => empty
  | [range] => scan range
  | ranges => union (ranges.map scan)

theorem fromScans_matchesRow [LinearOrder J] {ranges : List (IndexScan J)} {row : Row J}
    {range : IndexScan J} (member : range ∈ ranges) (holds : range.matchesRow row = true) :
    (fromScans ranges).matchesRow row = true := by
  match ranges, member with
  | [_], member =>
      obtain rfl := List.mem_singleton.mp member
      simpa [fromScans, matchesRow] using holds
  | a :: b :: rest, member =>
      show anyMatchesRow ((a :: b :: rest).map scan) row = true
      exact anyMatchesRow_iff.mpr ⟨scan range, List.mem_map_of_mem member, holds⟩

end AccessPath

/-! ## Constraints on one column -/

inductive Update (J : Type) where
  | eq (value : Value J)
  | inList (values : List (Value J))
  | notNull
  | lower (bound : Bound (Value J))
  | upper (bound : Bound (Value J))

/-- The values a column may take under a conjunction. -/
structure ColumnConstraint (J : Type) where
  eq : Option (Value J) := none
  inList : Option (List (Value J)) := none
  notNull : Bool := false
  lower : Bound (Value J) := .unbounded
  upper : Bound (Value J) := .unbounded

section Constraints
variable {J : Type} [LinearOrder J]

/-- The bound that admits fewer values: `tighter` says how the value of a stricter
bound compares with the other one. On equal values the exclusive bound wins. -/
def stricter (current new : Bound (Value J)) (tighter : Ordering) : Bound (Value J) :=
  match current.value?, new.value? with
  | none, _ => new
  | _, none => current
  | some currentValue, some newValue =>
      let ordering := compare currentValue newValue
      if ordering = tighter then current
      else if ordering = tighter.swap then new
      else match current with
        | .excluded _ => current
        | _ => new

def isEmptyInterval : Bound (Value J) → Bound (Value J) → Bool
  | .included lower, .included upper => upper < lower
  | .included lower, .excluded upper | .excluded lower, .included upper
  | .excluded lower, .excluded upper => upper ≤ lower
  | _, _ => false

namespace ColumnConstraint

/-- Narrows the constraint; `none` when nothing can match. -/
def apply (c : ColumnConstraint J) : Update J → Option (ColumnConstraint J)
  | .eq value => if c.eq.any (· ≠ value) then none else some { c with eq := some value }
  | .inList values =>
      let values := sortDedup values
      some { c with inList := some (match c.inList with
        | some existing => existing.filter (· ∈ values)
        | none => values) }
  | .notNull => some { c with notNull := true }
  | .lower bound => some { c with lower := stricter c.lower bound .gt }
  | .upper bound => some { c with upper := stricter c.upper bound .lt }

def admits (c : ColumnConstraint J) (v : Value J) : Bool :=
  c.lower.admitsLower v && c.upper.admitsUpper v

/-- The first half of `normalize`: the list of allowed values. -/
def normalizeList (c : ColumnConstraint J) : Option (ColumnConstraint J) :=
  match c.inList with
  | none => some c
  | some list =>
      let list := (list.filter c.admits).filter fun v => !(c.notNull && v.isNull)
      match c.eq, list with
      | some eq, list => if eq ∈ list then some { c with inList := none } else none
      | none, [] => none
      | none, [v] => some { c with inList := none, eq := some v }
      | none, list => some { c with inList := some list }

/-- The second half of `normalize`: the bounds. -/
def normalizeBounds (c : ColumnConstraint J) : Option (ColumnConstraint J) :=
  match c.eq with
  | some eq =>
      if !c.admits eq || (c.notNull && eq.isNull) then none
      else some { c with lower := .unbounded, upper := .unbounded }
  | none => if isEmptyInterval c.lower c.upper then none else some c

/-- Reduces the constraint to its simplest form; `none` when nothing can match. -/
def normalize (c : ColumnConstraint J) : Option (ColumnConstraint J) := do
  (← c.normalizeList).normalizeBounds

end ColumnConstraint

/-- Bounds that hold every value of a type other than `Null`. Variants declared
before `Null` are below it, the others start at the smallest value of their type. -/
def notNullBounds : DataTypeKind → Option (Bound (Value J) × Bound (Value J))
  | .blob | .boolean | .date | .dateTime | .decimal | .int8 | .int16 | .int32 | .int64 | .json =>
      some (.unbounded, .excluded .null)
  | .text => some (.included (.text ""), .unbounded)
  | .uint8 => some (.included (.uint8 0), .unbounded)
  | .uint16 => some (.included (.uint16 0), .unbounded)
  | .uint32 => some (.included (.uint32 0), .unbounded)
  | .uint64 => some (.included (.uint64 0), .unbounded)
  | .uuid | .custom _ => none

/-- Range bounds, and whether they come from `IS NOT NULL` alone. -/
def ColumnConstraint.rangeBounds (c : ColumnConstraint J) (column : Option ColumnDef) :
    Option (Bound (Value J) × Bound (Value J) × Bool) :=
  match c.lower, c.upper with
  | .unbounded, .unbounded =>
      if !c.notNull then none
      else do
        let column ← column.filter (·.nullable)
        let (lower, upper) ← notNullBounds column.dataType
        return (lower, upper, true)
  | lower, upper => some (lower, upper, false)

/-- `BTreeMap<String, ColumnConstraint>`. -/
abbrev ColumnConstraints (J : Type) := List (String × ColumnConstraint J)

namespace ColumnConstraints

/-- `entry(column).or_default().apply(update)`. -/
def applyTo (column : String) (update : Update J) : ColumnConstraints J → Option (ColumnConstraints J)
  | [] => do return [(column, ← ({} : ColumnConstraint J).apply update)]
  | (name, c) :: rest =>
      if name = column then do return (name, ← c.apply update) :: rest
      else do return (name, c) :: (← applyTo column update rest)

/-- The constraint a conjunct puts on a column. -/
def updateOf {F : Type} : Filter J F → Option (String × Update J)
  | .eq column value => some (column, .eq value)
  | .isNull column => some (column, .eq .null)
  | .notNull column => some (column, .notNull)
  | .inList column values => some (column, .inList values)
  | .ge column value => some (column, .lower (.included value))
  | .gt column value => some (column, .lower (.excluded value))
  | .le column value => some (column, .upper (.included value))
  | .lt column value => some (column, .upper (.excluded value))
  | _ => none

def applyAll {F : Type} : List (Filter J F) → ColumnConstraints J → Option (ColumnConstraints J)
  | [], constraints => some constraints
  | conjunct :: conjuncts, constraints =>
      match updateOf conjunct with
      | none => applyAll conjuncts constraints
      | some (column, update) => do applyAll conjuncts (← applyTo column update constraints)

/-- The constraints of a conjunction; `none` when they contradict. -/
def collect {F : Type} (conjuncts : List (Filter J F)) : Option (ColumnConstraints J) := do
  (← applyAll conjuncts []).mapM fun entry => do return (entry.1, ← entry.2.normalize)

def get (constraints : ColumnConstraints J) (column : String) : Option (ColumnConstraint J) :=
  (constraints.find? fun entry => entry.1 == column).map Prod.snd

end ColumnConstraints
end Constraints
end WasmDbms
