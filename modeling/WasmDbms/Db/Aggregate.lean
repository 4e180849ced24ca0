import WasmDbms.Db.Join
import WasmDbms.Db.Selection
import WasmDbms.Lib.Grouping
import WasmDbms.Lib.StableSort

/-!
# Aggregate queries

`run_aggregate`: the rows of a query are grouped, each aggregate is computed over the rows
of a group, and the groups go through HAVING, ORDER BY and the page. These clauses refer to
GROUP BY columns and to the aggregates, `agg0` for the first one.
-/
namespace WasmDbms
open Result

variable {J F : Type}

inductive AggregateFunction where
  | count (column : Option String)
  | sum (column : String)
  | avg (column : String)
  | min (column : String)
  | max (column : String)
  deriving DecidableEq

inductive AggregatedValue (J : Type) where
  | count (n : ℕ)
  | sum (value : Value J)
  | avg (value : Value J)
  | min (value : Value J)
  | max (value : Value J)

structure AggregatedRow (J : Type) where
  groupKeys : List (Value J)
  values : List (AggregatedValue J)
  deriving Inhabited

structure AggregateQuery (J F : Type) extends Query J F where
  groupBy : List String
  having : Option (Filter J F)
  joins : List Join
  eagerRelations : List String

/-- Numbers with 96 bits of digits, up to 28 of them after the point. -/
def IsDecimal (q : ℚ) : Prop := ∃ m : ℤ, ∃ scale ≤ 28, |m| < 2 ^ 96 ∧ q = m / 10 ^ scale

/-- Decimal arithmetic, and the text of a value in an error. A sum that overflows is `none`,
a sum that is a decimal is exact. A decimal is divided by a positive count without overflow. -/
structure Decimals (J : Type) where
  add : ℚ → ℚ → Option ℚ
  divCount : ℚ → ℕ → ℚ
  debugValue : Value J → String
  add_exact : ∀ a b, IsDecimal a → IsDecimal b → IsDecimal (a + b) → add a b = some (a + b)

/-- The number in a numeric value. -/
def Value.number? : Value J → Option ℚ
  | int8 i => some i.toInt
  | int16 i => some i.toInt
  | int32 i => some i.toInt
  | int64 i => some i.toInt
  | uint8 n => some n.toNat
  | uint16 n => some n.toNat
  | uint32 n => some n.toNat
  | uint64 n => some n.toNat
  | decimal q => some q
  | _ => none

namespace Aggregate

section Compute
variable (D : Decimals J)

def valueToDecimal (value : Value J) : Except (QueryError J) ℚ :=
  match value.number? with
  | some q => .ok q
  | none => .error (.invalidQuery s!"cannot aggregate non-numeric value: {D.debugValue value}")

/-- The value of a column that is not null. -/
def presentValue (column : String) (row : Row J) : Option (Value J) :=
  (findColumn column row).filter fun value => !value.isNull

def countColumn (rows : List (Row J)) (column : String) : ℕ :=
  rows.foldl (fun n row => (presentValue column row).elim n fun _ => n + 1) 0

/-- `acc += value_to_decimal(v)?`, which panics on an overflow. -/
def addValue (acc : ℚ) (value : Value J) : Except (Failure J) ℚ := do
  let number ← Failure.lift ((valueToDecimal D value).mapError .query)
  match D.add acc number with
  | some acc => .ok acc
  | none => .error .panics

/-- One turn of the loops of SUM and AVG, which note each value that is present. -/
def accumulate {σ : Type} (column : String) (note : σ → σ) (state : ℚ × σ) (row : Row J) : Except (Failure J) (ℚ × σ) :=
  match presentValue column row with
  | some value => do
      let acc ← addValue D state.1 value
      return (acc, note state.2)
  | none => .ok state

def sumColumn (rows : List (Row J)) (column : String) : Except (Failure J) (Value J) := do
  let (acc, any) ← rows.foldlM (accumulate D column fun _ => true) (0, false)
  return if any then .decimal acc else .null

def avgColumn (rows : List (Row J)) (column : String) : Except (Failure J) (Value J) := do
  let (acc, count) ← rows.foldlM (accumulate D column fun count => count + 1) (0, 0)
  return if count = 0 then .null else .decimal (D.divCount acc count)

variable [LinearOrder J]

/-- The smaller or the greater one of the values so far; the first one of equal values. -/
def takeBetter (isMin : Bool) (best : Option (Value J)) (value : Value J) : Option (Value J) :=
  some (match best with
    | none => value
    | some current => if (if isMin then value < current else current < value) then value else current)

def minMaxColumn (rows : List (Row J)) (column : String) (isMin : Bool) : Value J :=
  (rows.foldl (fun best row => (presentValue column row).elim best (takeBetter isMin best)) none).getD .null

def computeAggregate (rows : List (Row J)) : AggregateFunction → Except (Failure J) (AggregatedValue J)
  | .count none => .ok (.count rows.length)
  | .count (some column) => .ok (.count (countColumn rows column))
  | .sum column => AggregatedValue.sum <$> sumColumn D rows column
  | .avg column => AggregatedValue.avg <$> avgColumn D rows column
  | .min column => .ok (.min (minMaxColumn rows column true))
  | .max column => .ok (.max (minMaxColumn rows column false))

def computeAggregates (rows : List (Row J)) (aggregates : List AggregateFunction) :
    Except (Failure J) (List (AggregatedValue J)) := aggregates.mapM (computeAggregate D rows)

/-- Without GROUP BY all rows are one group. -/
def groupRows (rows : List (Row J)) (groupBy : List String) : List (List (Value J) × List (Row J)) :=
  if groupBy.isEmpty then [([], rows)] else Grouping.group (indexKey groupBy) rows

def computeGroup (aggregates : List AggregateFunction) (group : List (Value J) × List (Row J)) :
    Except (Failure J) (AggregatedRow J) := do
  let values ← computeAggregates D group.2 aggregates
  return ⟨group.1, values⟩

end Compute

/-! ## Validation -/

def isNumericKind : DataTypeKind → Bool
  | .int8 | .int16 | .int32 | .int64 | .uint8 | .uint16 | .uint32 | .uint64 | .decimal => true
  | _ => false

section Validate
variable (table : TableDef J)

def lookupColumn (name : String) : Except (DbmsError J) ColumnDef :=
  match table.columns.find? fun column => column.name == name with
  | some column => .ok column
  | none => .error (.query (.unknownColumn name))

def validateGroupBy (groupBy : List String) : Except (DbmsError J) Unit :=
  groupBy.forM fun column => do
    if table.columns.any fun c => c.name == column then return ()
    else throw (.query (.unknownColumn column))

def validateAggregate : AggregateFunction → Except (DbmsError J) Unit
  | .count none => .ok ()
  | .count (some column) | .min column | .max column => do
      let _ ← lookupColumn table column
      return ()
  | .sum column | .avg column => do
      let c ← lookupColumn table column
      if isNumericKind c.dataType then return ()
      else throw (.query (.invalidQuery s!"aggregate requires numeric column: '{column}'"))

def validateAggregates (aggregates : List AggregateFunction) : Except (DbmsError J) Unit :=
  aggregates.forM (validateAggregate table)

end Validate

/-- `parse::<usize>`: decimal digits, after a plus sign if there is one. A number beyond
`usize` is beyond the aggregates too. -/
def parseUsize (digits : List Char) : Option ℕ :=
  let digits := if digits.head? = some '+' then digits.tail else digits
  if digits.isEmpty || !digits.all Char.isDigit then none else some (Nat.ofDigitChars 10 digits 0)

def parseAggIndex (name : String) : Option ℕ :=
  match name.toList with
  | 'a' :: 'g' :: 'g' :: digits => parseUsize digits
  | _ => none

def isKnownHavingColumn (column : String) (groupBy : List String) (aggregates : List AggregateFunction) : Bool :=
  groupBy.any (fun name => name == column) || (parseAggIndex column).any fun index => index < aggregates.length

/-- `filter_column`. -/
def filterColumn : Filter J F → Option String
  | .eq c _ | .ne c _ | .gt c _ | .lt c _ | .ge c _ | .inList c _ | .json c _ | .le c _ | .like c _ | .notNull c
  | .isNull c => some c
  | .and _ _ | .or _ _ | .not _ => none

/-- Visits every node of a filter, up to the first error. -/
def walkFilter (visit : Filter J F → Except (DbmsError J) Unit) : Filter J F → Except (DbmsError J) Unit
  | .and left right => do
      visit (.and left right)
      walkFilter visit left
      walkFilter visit right
  | .or left right => do
      visit (.or left right)
      walkFilter visit left
      walkFilter visit right
  | .not inner => do
      visit (.not inner)
      walkFilter visit inner
  | leaf => visit leaf

def visitHaving (groupBy : List String) (aggregates : List AggregateFunction) (filter : Filter J F) :
    Except (DbmsError J) Unit :=
  match filter with
  | .like _ _ => .error (.query (.invalidQuery "LIKE is not supported in HAVING"))
  | .json _ _ => .error (.query (.invalidQuery "JSON filters are not supported in HAVING"))
  | _ =>
      match filterColumn filter with
      | some column =>
          if isKnownHavingColumn column groupBy aggregates then .ok ()
          else .error (.query (.invalidQuery s!"HAVING references unknown column or aggregate: '{column}'"))
      | none => .ok ()

def validateHavingFilter (filter : Filter J F) (groupBy : List String) (aggregates : List AggregateFunction) :
    Except (DbmsError J) Unit := walkFilter (visitHaving groupBy aggregates) filter

def validateOrderBy (orderBy : List (String × OrderDirection)) (groupBy : List String)
    (aggregates : List AggregateFunction) : Except (DbmsError J) Unit :=
  orderBy.forM fun order => do
    if isKnownHavingColumn order.1 groupBy aggregates then return ()
    else throw (.query (.invalidQuery s!"ORDER BY references unknown aggregate output: '{order.1}'"))

/-! ## The clauses over groups -/

/-- `aggregated_value_to_value`. -/
def toValue : AggregatedValue J → Value J
  | .count n => .uint64 (UInt64.ofNat n)
  | .sum v | .avg v | .min v | .max v => v

def aggName (index : ℕ) : String := s!"agg{index}"

/-- The map from names to values. -/
def buildLookup (row : AggregatedRow J) (groupBy : List String) : String → Option (Value J) :=
  let keys : String → Option (Value J) := groupBy.zipIdx.foldl
    (fun map column => Function.update map column.1 (some (row.groupKeys[column.2]?.getD .null))) fun _ => none
  row.values.zipIdx.foldl
    (fun map value => Function.update map (aggName value.2) (some (toValue value.1))) keys

section Clauses
variable [LinearOrder J]

def evalFilter (lookup : String → Option (Value J)) : Filter J F → Except (DbmsError J) Bool
  | .eq c v => .ok ((lookup c).any fun x => x = v)
  | .ne c v => .ok ((lookup c).any fun x => x ≠ v)
  | .gt c v => .ok ((lookup c).any fun x => v < x)
  | .lt c v => .ok ((lookup c).any fun x => x < v)
  | .ge c v => .ok ((lookup c).any fun x => v ≤ x)
  | .le c v => .ok ((lookup c).any fun x => x ≤ v)
  | .inList c list => .ok ((lookup c).any fun x => x ∈ list)
  | .isNull c => .ok ((lookup c).any Value.isNull)
  | .notNull c => .ok ((lookup c).any fun x => !x.isNull)
  | .and left right => do
      if ← evalFilter lookup left then evalFilter lookup right else return false
  | .or left right => do
      if ← evalFilter lookup left then return true else evalFilter lookup right
  | .not inner => do return !(← evalFilter lookup inner)
  | .like _ _ | .json _ _ => .error (.query (.invalidQuery "LIKE/JSON not supported in HAVING"))

def filterHaving (filter : Filter J F) (groupBy : List String) :
    List (AggregatedRow J) → Except (DbmsError J) (List (AggregatedRow J))
  | [] => .ok []
  | row :: rest => do
      let keep ← evalFilter (buildLookup row groupBy) filter
      let rest ← filterHaving filter groupBy rest
      return if keep then row :: rest else rest

/-- How two groups compare in one column of the order, by the names `outputs` knows. -/
def compareOutputs (outputs : AggregatedRow J → String → Option (Value J)) (order : String × OrderDirection)
    (a b : AggregatedRow J) : Ordering :=
  sortValuesWithDirection (outputs a order.1) (outputs b order.1) order.2

def applyOrderBy (rows : List (AggregatedRow J)) (orderBy : List (String × OrderDirection)) (groupBy : List String) :
    List (AggregatedRow J) :=
  StableSort.sortBy (orderBy.map (compareOutputs fun row => buildLookup row groupBy)) rows

end Clauses

end Aggregate

namespace AggregateQuery
open Aggregate

variable [LinearOrder J] (query : AggregateQuery J F) (table : TableDef J) (aggregates : List AggregateFunction)

/-- Clauses that an aggregate query cannot have. -/
def rejectClauses : Except (DbmsError J) Unit :=
  if !query.joins.isEmpty then .error (.query (.invalidQuery "joins are not supported in aggregate queries"))
  else if !query.eagerRelations.isEmpty then
    .error (.query (.invalidQuery "eager relations are not supported in aggregate queries"))
  else .ok ()

def validateHaving : Except (DbmsError J) Unit :=
  match query.having with
  | some having => validateHavingFilter having query.groupBy aggregates
  | none => .ok ()

/-- The checks before the query runs. -/
def validate : Except (DbmsError J) Unit := do
  query.rejectClauses
  validateGroupBy table query.groupBy
  validateAggregates table aggregates
  query.validateHaving aggregates
  validateOrderBy query.orderBy query.groupBy aggregates

/-- The query for the rows: only the filter and the deduplication are left. -/
def baseQuery : SelectQuery J F := ⟨⟨query.filter, query.distinctBy, [], none, none⟩, .all⟩

def page (output : List (AggregatedRow J)) : List (AggregatedRow J) :=
  let offset := query.offset.getD 0
  let output := if output.length ≤ offset then [] else output.drop offset
  match query.limit with
  | some limit => output.take limit
  | none => output

/-- What follows the rows of the query. -/
def aggregateRows (D : Decimals J) (rows : List (Row J)) : Except (Failure J) (List (AggregatedRow J)) := do
  let output ← (groupRows rows query.groupBy).mapM (computeGroup D aggregates)
  let output ← match query.having with
    | some having => Failure.lift (filterHaving having query.groupBy output)
    | none => pure output
  return query.page (applyOrderBy output query.orderBy query.groupBy)

/-- `run_aggregate`. -/
def runAggregate (db : Database J F) (D : Decimals J) (data : TableData J) (inTransaction : Bool)
    (changes : Option (List (Operation J))) : Except (Failure J) (List (AggregatedRow J)) := do
  Failure.lift (query.validate table aggregates)
  let rows ← query.baseQuery.selectColumns db table data inTransaction changes
  query.aggregateRows aggregates D rows

end AggregateQuery
end WasmDbms
