import WasmDbms.Db.AggregateRun
import Mathlib.Tactic.NormNum

/-!
# Sums that overflow

SUM and AVG add decimals with an operator that panics where a checked addition has no
result. Over an integer column that takes more than `2 ^ 32` rows.
-/
namespace WasmDbms
open Result Aggregate

variable {J F : Type}

namespace Aggregate

/-- The numbers whose sum overflows had a sum that is not a decimal. -/
theorem overflow_leaves_decimals {D : Decimals J} {numbers : List ℚ} (decimals : ∀ q ∈ numbers, IsDecimal q)
    (overflow : decimalSum D numbers = none) : ∃ k, ¬ IsDecimal (numbers.take k).sum := by
  by_contra inside
  have sums : ∀ k, IsDecimal (numbers.take k).sum := fun k => not_not.mp (not_exists.mp inside k)
  exact Option.some_ne_none _ ((decimalSum_exact decimals sums).symm.trans overflow)

/-- An integer that 64 bits hold, with or without a sign. -/
def IsWord (q : ℚ) : Prop := ∃ m : ℤ, q = m ∧ |m| < 2 ^ 64

theorem IsWord.isDecimal {q : ℚ} (word : IsWord q) : IsDecimal q := by
  obtain ⟨m, rfl, small⟩ := word
  exact ⟨m, 0, Nat.zero_le _, lt_trans small (by decide), by rw [pow_zero, div_one]⟩

theorem sum_words {numbers : List ℚ} (words : ∀ q ∈ numbers, IsWord q) :
    ∃ m : ℤ, numbers.sum = m ∧ |m| ≤ numbers.length * (2 ^ 64 - 1) := by
  induction numbers with
  | nil => exact ⟨0, by rw [List.sum_nil, Int.cast_zero], by simp⟩
  | cons q rest ih =>
      obtain ⟨⟨first, rfl, small⟩, later⟩ := List.forall_mem_cons.mp words
      obtain ⟨m, total, bound⟩ := ih later
      refine ⟨first + m, by rw [List.sum_cons, total, Int.cast_add], ?_⟩
      have triangle := abs_add_le first m
      rw [List.length_cons, Nat.cast_succ]
      omega

/-- It takes more than `2 ^ 32` integers of 64 bits to leave the decimals. -/
theorem decimalSum_words {D : Decimals J} {numbers : List ℚ} (words : ∀ q ∈ numbers, IsWord q)
    (few : numbers.length ≤ 2 ^ 32) : decimalSum D numbers = some numbers.sum := by
  refine decimalSum_exact (fun q member => (words q member).isDecimal) fun k => ?_
  obtain ⟨m, total, bound⟩ := sum_words fun q member => words q (List.mem_of_mem_take member)
  have shorter : ((numbers.take k).length : ℤ) ≤ 2 ^ 32 :=
    Int.ofNat_le.mpr ((List.length_take_le' k numbers).trans few)
  refine ⟨m, 0, Nat.zero_le _, ?_, by rw [total, pow_zero, div_one]⟩
  calc |m| ≤ (numbers.take k).length * (2 ^ 64 - 1) := bound
    _ ≤ 2 ^ 32 * (2 ^ 64 - 1) := mul_le_mul_of_nonneg_right shorter (by decide)
    _ < 2 ^ 96 := by decide

/-- SUM and AVG are over integer columns. -/
def OverInteger (table : TableDef J) : AggregateFunction → Prop
  | .sum column | .avg column => ∀ c, lookupColumn table column = .ok c → c.dataType ≠ .decimal
  | _ => True

section Words
variable {table : TableDef J} {rows : List (Row J)} {column : String}

theorem word_of_kind {c : ColumnDef} {v : Value J} {q : ℚ} (admits : c.Admits v) (integer : c.dataType ≠ .decimal)
    (number : v.number? = some q) : IsWord q := by
  rcases admits with kind | ⟨rfl, _⟩
  · cases v with
    | int8 i => exact ⟨i.toInt, (Option.some.inj number).symm, abs_lt.mpr ⟨by have := i.le_toInt; omega, by have := i.toInt_lt; omega⟩⟩
    | int16 i => exact ⟨i.toInt, (Option.some.inj number).symm, abs_lt.mpr ⟨by have := i.le_toInt; omega, by have := i.toInt_lt; omega⟩⟩
    | int32 i => exact ⟨i.toInt, (Option.some.inj number).symm, abs_lt.mpr ⟨by have := i.le_toInt; omega, by have := i.toInt_lt; omega⟩⟩
    | int64 i => exact ⟨i.toInt, (Option.some.inj number).symm, abs_lt.mpr ⟨by have := i.le_toInt; omega, by have := i.toInt_lt; omega⟩⟩
    | uint8 n => exact ⟨n.toNat, (Option.some.inj number).symm, abs_lt.mpr ⟨by omega, by have := n.toNat_lt; omega⟩⟩
    | uint16 n => exact ⟨n.toNat, (Option.some.inj number).symm, abs_lt.mpr ⟨by omega, by have := n.toNat_lt; omega⟩⟩
    | uint32 n => exact ⟨n.toNat, (Option.some.inj number).symm, abs_lt.mpr ⟨by omega, by have := n.toNat_lt; omega⟩⟩
    | uint64 n => exact ⟨n.toNat, (Option.some.inj number).symm, abs_lt.mpr ⟨by omega, by have := n.toNat_lt; omega⟩⟩
    | decimal q => exact absurd (Option.some.inj kind).symm integer
    | _ => cases number
  · cases number

theorem numbers_words (complete : ∀ row ∈ rows, Complete table row)
    (integer : ∀ c, lookupColumn table column = .ok c → c.dataType ≠ .decimal)
    (valid : validateAggregate table (.sum column) = .ok ()) : ∀ q ∈ numbers rows column, IsWord q := by
  intro q member
  obtain ⟨v, listed, number⟩ := List.mem_filterMap.mp member
  obtain ⟨row, stored, here⟩ := List.mem_filterMap.mp listed
  obtain ⟨c, found, _⟩ := bind_eq_ok.mp valid
  have known := (Option.filter_eq_some_iff.mp here).1
  exact word_of_kind ((complete row stored).typedIn column v c known (lookupColumn_ok found)) (integer c found) number

theorem numbers_length_le : (numbers rows column).length ≤ rows.length :=
  (List.length_filterMap_le _ _).trans (List.length_filterMap_le _ _)

theorem fits_of_integers {D : Decimals J} {aggregate : AggregateFunction} (complete : ∀ row ∈ rows, Complete table row)
    (valid : validateAggregate table aggregate = .ok ()) (integer : OverInteger table aggregate)
    (few : rows.length ≤ 2 ^ 32) : Fits D rows aggregate := by
  have fits : ∀ {column : String}, validateAggregate table (.sum column) = .ok () →
      (∀ c, lookupColumn table column = .ok c → c.dataType ≠ .decimal) → decimalSum D (numbers rows column) ≠ none := by
    intro column valid integer
    rw [decimalSum_words (numbers_words complete integer valid) (numbers_length_le.trans few)]
    exact Option.some_ne_none _
  cases aggregate with
  | count column => trivial
  | sum column => exact fits valid integer
  | avg column => exact fits valid integer
  | min column => trivial
  | max column => trivial

end Words
end Aggregate

namespace AggregateQuery

section Panics
variable [LinearOrder J] {query : AggregateQuery J F} {db : Database J F} {D : Decimals J} {table : TableDef J}
  {data : TableData J} {inTransaction : Bool} {changes : Option (List (Operation J))}
  {aggregates : List AggregateFunction} {rows : List (Row J)}

/-- The query for the rows is followed by the aggregates. -/
theorem runAggregate_eq (accepted : query.validate table aggregates = .ok ())
    (selected : query.baseQuery.selectColumns db table data inTransaction changes = .ok rows) :
    query.runAggregate table aggregates db D data inTransaction changes = query.aggregateRows aggregates D rows := by
  rw [runAggregate, accepted]
  dsimp only [Failure.lift, bind, Except.bind]
  rw [selected]

/-- An accepted aggregate query never panics in its sums and reports those that leave the range
of decimals, if and only if none does; over integer columns that takes more than `2 ^ 32` rows. -/
theorem run_aggregate_reports_overflow_iff (stored : Stored table data)
    (typed : ∀ operations, changes = some operations → Changes table operations)
    (outside : changes.isSome → inTransaction = true) (accepted : query.validate table aggregates = .ok ())
    (selected : query.baseQuery.selectColumns db table data inTransaction changes = .ok rows) :
    ((query.runAggregate table aggregates db D data inTransaction changes ≠ .error .panics ∧
        (¬ query.Fitting D aggregates rows →
          ∃ e, query.runAggregate table aggregates db D data inTransaction changes = .error (.error e))) ↔
      query.Fitting D aggregates rows) ∧
    ((∀ aggregate ∈ aggregates, OverInteger table aggregate) → rows.length ≤ 2 ^ 32 → query.Fitting D aggregates rows) := by
  have complete := base_complete stored typed outside selected
  have run := @runAggregate_eq J F _ query db D table data inTransaction changes aggregates rows accepted selected
  constructor
  · rw [run]
    constructor
    · rintro ⟨safe, _⟩
      by_contra overflow
      exact safe (aggregateRows_panics accepted complete overflow)
    · intro fits
      obtain ⟨groups, _, result⟩ := aggregateRows_ok accepted complete fits
      rw [result]
      exact ⟨fun same => (by cases same), fun overflow => absurd fits overflow⟩
  · intro integers few key _ aggregate asked
    have inside : ∀ row ∈ groupOf rows query.groupBy key, Complete table row :=
      fun row member => complete row (List.mem_of_mem_filter member)
    exact fits_of_integers inside ((validate_ok accepted).1 aggregate asked) (integers aggregate asked)
      ((List.length_filter_le _ _).trans few)

end Panics
end AggregateQuery

namespace Items

/-- The aggregates of all rows. -/
def whole : AggregateQuery ℕ Empty := ⟨⟨none, [], [], none, none⟩, [], none, [], []⟩

/-- The keys of two items are added. -/
theorem keys_summed : whole.runAggregate table [.sum "id"] db decimals pair false none ≠ .error .panics := by
  have unchanged : ∀ operations, (none : Option (List (Operation ℕ))) = some operations → Changes table operations :=
    fun _ same => absurd same.symm (Option.some_ne_none _)
  have outside : (none : Option (List (Operation ℕ))).isSome → false = true := fun some_ => absurd some_ Bool.false_ne_true
  have accepted : whole.validate table [.sum "id"] = .ok () := rfl
  have selected : whole.baseQuery.selectColumns db table pair false none = .ok [item 1 "a", item 2 "b"] := rfl
  have reports := AggregateQuery.run_aggregate_reports_overflow_iff (D := decimals) pair_stored unchanged outside accepted selected
  refine (reports.1.mpr (reports.2 (fun aggregate asked => ?_) (by decide))).1
  obtain rfl := List.mem_singleton.mp asked
  intro c found
  cases found
  decide

end Items

namespace Prices

def price : ColumnDef := ⟨"price", .decimal, false, false, false, false, none⟩

theorem columnNames : ([Items.id, price].map ColumnDef.name).Nodup := by decide

theorem oneKey : ∀ c ∈ [Items.id, price], c.primaryKey = true → c.name = "id" := by decide

theorem keyed : ∃ c ∈ [Items.id, price], c.name = "id" ∧ c.primaryKey = true := ⟨Items.id, List.mem_cons_self, rfl, rfl⟩

/-- Prices under a key. -/
def table : TableDef ℕ where
  name := "prices"
  columns := [Items.id, price]
  primaryKey := "id"
  indexes := [⟨["id"]⟩]
  sanitizer _ := none
  validator _ := none
  columnNames := columnNames
  keyed := keyed
  oneKey := oneKey
  indexNames := Items.indexNames
  keyIndex := Items.keyIndex

theorem plain : ∀ c ∈ table.columns, c.foreignKey = none := by decide

def schema : DatabaseSchema ℕ where
  tables := [table]
  names := by decide
  local_ t listed c column fk key := by
    obtain rfl := List.mem_singleton.mp listed
    rw [plain c column] at key
    cases key
  foreign t listed c column fk key := by
    obtain rfl := List.mem_singleton.mp listed
    rw [plain c column] at key
    cases key

def db : Database ℕ Empty := .scanning schema ⟨fun _ => .error "", fun f => f.elim, fun f => f.elim⟩

def priced (key : UInt32) (q : ℚ) : Row ℕ := [(Items.id, .uint32 key), (price, .decimal q)]

/-- The greatest decimal and one. -/
def data : TableData ℕ :=
  ⟨[(⟨0, 0⟩, priced 1 (2 ^ 96 - 1)), (⟨1, 0⟩, priced 2 1)], [(["id"], [([.uint32 1], ⟨0, 0⟩), ([.uint32 2], ⟨1, 0⟩)])]⟩

theorem priced_complete (key : UInt32) (q : ℚ) : Complete table (priced key q) := by
  refine ⟨.refl _, fun entry listed => ?_⟩
  rcases List.mem_cons.mp listed with rfl | listed
  · exact .inl rfl
  · obtain rfl := List.mem_singleton.mp listed
    exact .inl rfl

theorem greatest_overflows : decimalSum Items.decimals [2 ^ 96 - 1, 1] = none := by
  have first : Items.addDecimals 0 (2 ^ 96 - 1) = some (2 ^ 96 - 1) := by
    rw [Items.addDecimals, zero_add]
    norm_num
  have second : Items.addDecimals (2 ^ 96 - 1) 1 = none := by
    rw [Items.addDecimals, sub_add_cancel]
    norm_num
  rw [decimalSum, List.foldlM_cons]
  change (Items.addDecimals 0 (2 ^ 96 - 1)).bind _ = none
  rw [first, Option.bind_some, List.foldlM_cons]
  change (Items.addDecimals (2 ^ 96 - 1) 1).bind _ = none
  rw [second, Option.bind_none]

/-- The sum of the two prices panics. -/
theorem sum_of_prices_panics : Items.whole.validate table [.sum "price"] = .ok () ∧
    Items.whole.runAggregate table [.sum "price"] db Items.decimals data false none = .error .panics := by
  have accepted : Items.whole.validate table [.sum "price"] = .ok () := rfl
  have selected : Items.whole.baseQuery.selectColumns db table data false none =
      .ok [priced 1 (2 ^ 96 - 1), priced 2 1] := rfl
  refine ⟨accepted, ?_⟩
  have run : Items.whole.runAggregate table [.sum "price"] db Items.decimals data false none =
      Items.whole.aggregateRows [.sum "price"] Items.decimals [priced 1 (2 ^ 96 - 1), priced 2 1] :=
    AggregateQuery.runAggregate_eq accepted selected
  rw [run]
  refine AggregateQuery.aggregateRows_panics accepted (fun row member => ?_) fun fits => ?_
  · rcases List.mem_cons.mp member with rfl | member
    · exact priced_complete ..
    · exact List.mem_singleton.mp member ▸ priced_complete ..
  · exact fits [] (List.mem_singleton_self _) (.sum "price") (List.mem_singleton_self _) greatest_overflows

end Prices
end WasmDbms
