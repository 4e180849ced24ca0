import Mathlib.Algebra.Order.Ring.Cast
import WasmDbms.Db.Context

/-!
# Auto-increment values

The counters of a table and the insertions that draw from them. A counter is written
to its own page outside of the journal, so neither a failing insertion nor a failing
commit sets it back.
-/
namespace WasmDbms
open Result

variable {J F : Type} [LinearOrder J]

/-- The counters of a table by the names of their columns. -/
abbrev AutoincrementRegistry (J : Type) := String → Option (Value J)

namespace AutoincrementRegistry
variable {J : Type}

def overflowError (typeName : String) : Failure J := .error (.memory (.autoincrementOverflow typeName))

/-- `next_value`. -/
def nextValue : Value J → Except (Failure J) (Value J)
  | .int8 i => if i = Int8.maxValue then .error (overflowError "Int8") else .ok (.int8 (i + 1))
  | .int16 i => if i = Int16.maxValue then .error (overflowError "Int16") else .ok (.int16 (i + 1))
  | .int32 i => if i = Int32.maxValue then .error (overflowError "Int32") else .ok (.int32 (i + 1))
  | .int64 i => if i = Int64.maxValue then .error (overflowError "Int64") else .ok (.int64 (i + 1))
  | .uint8 n => if n = 255 then .error (overflowError "Uint8") else .ok (.uint8 (n + 1))
  | .uint16 n => if n = 65535 then .error (overflowError "Uint16") else .ok (.uint16 (n + 1))
  | .uint32 n => if n = 4294967295 then .error (overflowError "Uint32") else .ok (.uint32 (n + 1))
  | .uint64 n => if n = 18446744073709551615 then .error (overflowError "Uint64") else .ok (.uint64 (n + 1))
  | _ => .error .panics

/-- `next`: a column without a counter makes it panic. -/
def next (registry : AutoincrementRegistry J) (column : String) :
    Except (Failure J) (Value J × AutoincrementRegistry J) :=
  match registry column with
  | none => .error .panics
  | some current => do
      let value ← nextValue current
      return (value, Function.update registry column (some value))

end AutoincrementRegistry

/-- A value that has been generated. -/
structure Generated (J : Type) where
  table : String
  column : String
  value : Value J

/-- What a computation that draws values leaves: the counters, the values it has
drawn, and its result. -/
structure Draws (C J α : Type) where
  counters : C
  drawn : List (Generated J)
  result : Except (Failure J) α

/-- The loop of `fill_auto_increment_values` over the auto-increment columns. -/
def fillColumns (table : String) : List ColumnDef → AutoincrementRegistry J → Row J →
    Draws (AutoincrementRegistry J) J (Row J)
  | [], registry, values => ⟨registry, [], .ok values⟩
  | column :: rest, registry, values =>
      if values.any fun entry => entry.1.name == column.name then fillColumns table rest registry values
      else match registry.next column.name with
        | .error e => ⟨registry, [], .error e⟩
        | .ok (value, registry) =>
            let later := fillColumns table rest registry (values ++ [(column, value)])
            ⟨later.counters, ⟨table, column.name, value⟩ :: later.drawn, later.result⟩

def fillAutoIncrementValues (table : TableDef J) (registry : AutoincrementRegistry J) (values : Row J) :
    Draws (AutoincrementRegistry J) J (Row J) :=
  fillColumns table.name (table.columns.filter fun column => column.autoIncrement) registry values

/-- The counters of all tables. -/
abbrev Counters (J : Type) := String → AutoincrementRegistry J

/-- Fills in the values of an insertion, then goes on with them. -/
def withFilled {α : Type} (table : TableDef J) (values : Row J) (counters : Counters J)
    (insert : Row J → Except (Failure J) α) : Draws (Counters J) J α :=
  let filled := fillAutoIncrementValues table (counters table.name) values
  ⟨Function.update counters table.name filled.counters, filled.drawn, filled.result >>= insert⟩

/-- `into_values` of the record `from_values` makes of some values: an auto-increment
column without a value of its type is left to be generated. -/
def TableDef.insertRecordValues (table : TableDef J) (values : Row J) : Except (DbmsError J) (Row J) := do
  let fields ← table.columns.mapM fun column =>
    if column.autoIncrement then
      .ok ((values.filter fun entry => entry.1.name == column.name && column.accepts entry.2).getLast?.map
        fun entry => (column, entry.2))
    else (TableDef.fieldOf column values).map some
  return fields.filterMap id

/-- A context with the counters of its tables. -/
structure Engine (J F : Type) where
  context : Context J F
  counters : Counters J

namespace Engine
variable (db : Database J F)

/-- One turn of the loop of `commit`. -/
def replayOp (fuel : ℕ) (op : TransactionOp J F) (s : DbState J) (counters : Counters J) :
    Draws (Counters J) J (DbState J) :=
  match op with
  | .insert table values =>
      match (do db.validateInsert s.view table values; Failure.lift (table.insertRecordValues values)) with
      | .error e => ⟨counters, [], .error e⟩
      | .ok given => withFilled table given counters fun filled => db.insert table filled s
  | op => ⟨counters, [], db.replayOp fuel op s⟩

/-- The loop of `commit`. -/
def replayAll (fuel : ℕ) : List (TransactionOp J F) → DbState J → Counters J → Draws (Counters J) J (DbState J)
  | [], s, counters => ⟨counters, [], .ok s⟩
  | op :: rest, s, counters =>
      let first := replayOp db fuel op s counters
      match first.result with
      | .error e => ⟨first.counters, first.drawn, .error e⟩
      | .ok s =>
          let later := replayAll fuel rest s first.counters
          ⟨later.counters, first.drawn ++ later.drawn, later.result⟩

/-- A call: its result, the engine it leaves, and the values it has generated. The
values of an insertion may leave out auto-increment columns. -/
def call (fuel : ℕ) (c : Call J F) (e : Engine J F) :
    Except (Failure J) ℕ × Engine J F × List (Generated J) :=
  match c with
  | .insert id table values =>
      let filled := fillAutoIncrementValues table (e.counters table.name) values
      let counters := Function.update e.counters table.name filled.counters
      match filled.result with
      | .error failure => (.error failure, ⟨e.context, counters⟩, filled.drawn)
      | .ok values =>
          let (result, context) := e.context.call db fuel (.insert id table values)
          (result, ⟨context, counters⟩, filled.drawn)
  | .commit id =>
      match e.context.transaction id with
      | .error failure => (.error failure, ⟨e.context.withTransaction id none, e.counters⟩, [])
      | .ok tx =>
          let replayed := replayAll db fuel tx.operations e.context.state e.counters
          match replayed.result with
          | .error failure =>
              (.error failure, ⟨e.context.withTransaction id none, replayed.counters⟩, replayed.drawn)
          | .ok s => (.ok 0, ⟨(e.context.withTransaction id none).withState s, replayed.counters⟩, replayed.drawn)
  | c =>
      let (result, context) := e.context.call db fuel c
      (result, ⟨context, e.counters⟩, [])

/-- Calls one after the other, failing ones included, with the values they generate. -/
inductive Run (db : Database J F) (start : Engine J F) : List (Generated J) → Engine J F → Prop
  | nil : Run db start [] start
  | call {drawn : List (Generated J)} {e : Engine J F} (run : Run db start drawn e) (fuel : ℕ) (c : Call J F) :
      Run db start (drawn ++ (e.call db fuel c).2.2) (e.call db fuel c).2.1

end Engine

/-! ## Generated values only grow -/

section Next
variable {v w : Value J}

theorem lt_of_number {x y : ℚ} (smaller : x < y) (tags : v.tag = w.tag)
    (left : v.content = toLex (⊥, toLex (x, toLex ([], [])))) (right : w.content = toLex (⊥, toLex (y, toLex ([], [])))) :
    v < w := by
  rw [Value.lt_iff, Value.key, Value.key, tags, left, right]
  refine Prod.Lex.toLex_lt_toLex.mpr (.inr ⟨rfl, ?_⟩)
  refine Prod.Lex.toLex_lt_toLex.mpr (.inr ⟨rfl, ?_⟩)
  exact Prod.Lex.toLex_lt_toLex.mpr (.inl smaller)

theorem lt_of_int {x y : ℤ} (smaller : x < y) (tags : v.tag = w.tag)
    (left : v.content = toLex (⊥, toLex ((x : ℚ), toLex ([], []))))
    (right : w.content = toLex (⊥, toLex ((y : ℚ), toLex ([], [])))) : v < w :=
  lt_of_number (Int.cast_lt.mpr smaller) tags left right

theorem lt_of_nat {x y : ℕ} (smaller : x < y) (tags : v.tag = w.tag)
    (left : v.content = toLex (⊥, toLex ((x : ℚ), toLex ([], []))))
    (right : w.content = toLex (⊥, toLex ((y : ℚ), toLex ([], [])))) : v < w :=
  lt_of_number (Nat.cast_lt.mpr smaller) tags left right

/-- The next value is greater: it does not wrap around. -/
theorem nextValue_lt (run : AutoincrementRegistry.nextValue v = .ok w) : v < w := by
  unfold AutoincrementRegistry.nextValue at run
  cases v with
  | int8 i =>
      dsimp only at run
      split at run
      next => cases run
      next apart =>
        cases run
        have upper : i.toInt ≤ 127 := i.toInt_le
        have lower : -128 ≤ i.toInt := i.le_toInt
        have below : i.toInt ≠ 127 := fun same => apart (Int8.toInt_inj.mp (same.trans rfl))
        have after : (i + 1).toInt = i.toInt + 1 := by
          rw [Int8.toInt_add, Int8.toInt_one, Int.bmod_eq_of_le] <;> omega
        exact lt_of_int (x := i.toInt) (y := (i + 1).toInt) (by omega) rfl rfl rfl
  | int16 i =>
      dsimp only at run
      split at run
      next => cases run
      next apart =>
        cases run
        have upper : i.toInt ≤ 32767 := i.toInt_le
        have lower : -32768 ≤ i.toInt := i.le_toInt
        have below : i.toInt ≠ 32767 := fun same => apart (Int16.toInt_inj.mp (same.trans rfl))
        have after : (i + 1).toInt = i.toInt + 1 := by
          rw [Int16.toInt_add, Int16.toInt_one, Int.bmod_eq_of_le] <;> omega
        exact lt_of_int (x := i.toInt) (y := (i + 1).toInt) (by omega) rfl rfl rfl
  | int32 i =>
      dsimp only at run
      split at run
      next => cases run
      next apart =>
        cases run
        have upper : i.toInt ≤ 2147483647 := i.toInt_le
        have lower : -2147483648 ≤ i.toInt := i.le_toInt
        have below : i.toInt ≠ 2147483647 := fun same => apart (Int32.toInt_inj.mp (same.trans rfl))
        have after : (i + 1).toInt = i.toInt + 1 := by
          rw [Int32.toInt_add, Int32.toInt_one, Int.bmod_eq_of_le] <;> omega
        exact lt_of_int (x := i.toInt) (y := (i + 1).toInt) (by omega) rfl rfl rfl
  | int64 i =>
      dsimp only at run
      split at run
      next => cases run
      next apart =>
        cases run
        have upper : i.toInt ≤ 9223372036854775807 := i.toInt_le
        have lower : -9223372036854775808 ≤ i.toInt := i.le_toInt
        have below : i.toInt ≠ 9223372036854775807 := fun same => apart (Int64.toInt_inj.mp (same.trans rfl))
        have after : (i + 1).toInt = i.toInt + 1 := by
          rw [Int64.toInt_add, Int64.toInt_one, Int.bmod_eq_of_le] <;> omega
        exact lt_of_int (x := i.toInt) (y := (i + 1).toInt) (by omega) rfl rfl rfl
  | uint8 n =>
      dsimp only at run
      split at run
      next => cases run
      next apart =>
        cases run
        have upper := n.toNat_lt
        have below : n.toNat ≠ 255 := fun same => apart (UInt8.toNat_inj.mp same)
        have after : (n + 1).toNat = n.toNat + 1 := by
          rw [UInt8.toNat_add, UInt8.toNat_one]
          omega
        exact lt_of_nat (x := n.toNat) (y := (n + 1).toNat) (by omega) rfl rfl rfl
  | uint16 n =>
      dsimp only at run
      split at run
      next => cases run
      next apart =>
        cases run
        have upper := n.toNat_lt
        have below : n.toNat ≠ 65535 := fun same => apart (UInt16.toNat_inj.mp same)
        have after : (n + 1).toNat = n.toNat + 1 := by
          rw [UInt16.toNat_add, UInt16.toNat_one]
          omega
        exact lt_of_nat (x := n.toNat) (y := (n + 1).toNat) (by omega) rfl rfl rfl
  | uint32 n =>
      dsimp only at run
      split at run
      next => cases run
      next apart =>
        cases run
        have upper := n.toNat_lt
        have below : n.toNat ≠ 4294967295 := fun same => apart (UInt32.toNat_inj.mp same)
        have after : (n + 1).toNat = n.toNat + 1 := by
          rw [UInt32.toNat_add, UInt32.toNat_one]
          omega
        exact lt_of_nat (x := n.toNat) (y := (n + 1).toNat) (by omega) rfl rfl rfl
  | uint64 n =>
      dsimp only at run
      split at run
      next => cases run
      next apart =>
        cases run
        have upper := n.toNat_lt
        have below : n.toNat ≠ 18446744073709551615 := fun same => apart (UInt64.toNat_inj.mp same)
        have after : (n + 1).toNat = n.toNat + 1 := by
          rw [UInt64.toNat_add, UInt64.toNat_one]
          omega
        exact lt_of_nat (x := n.toNat) (y := (n + 1).toNat) (by omega) rfl rfl rfl
  | _ => cases run

end Next

/-- The counters a computation leaves, and the values it has drawn from them: for each
column these grow, from the counter before to the counter after. -/
structure Advances (before after : Counters J) (drawn : List (Generated J)) : Prop where
  increasing : ∀ table column,
    (drawn.filter fun g => g.table == table && g.column == column).Pairwise fun g h => g.value < h.value
  above : ∀ g ∈ drawn, ∀ first, before g.table g.column = some first → first < g.value
  below : ∀ g ∈ drawn, ∃ last, after g.table g.column = some last ∧ g.value ≤ last
  grows : ∀ table column first, before table column = some first →
    ∃ last, after table column = some last ∧ first ≤ last

theorem Advances.refl (counters : Counters J) : Advances counters counters [] :=
  ⟨fun _ _ => .nil, fun _ member => absurd member List.not_mem_nil, fun _ member => absurd member List.not_mem_nil, fun _ _ first here => ⟨first, here, le_refl _⟩⟩

theorem Advances.trans {a b c : Counters J} {drawn later : List (Generated J)} (first : Advances a b drawn)
    (second : Advances b c later) : Advances a c (drawn ++ later) := by
  refine ⟨fun table column => ?_, ?_, ?_, ?_⟩
  · rw [List.filter_append, List.pairwise_append]
    refine ⟨first.increasing table column, second.increasing table column, fun g here h there => ?_⟩
    obtain ⟨inFirst, own⟩ := List.mem_filter.mp here
    obtain ⟨inSecond, other⟩ := List.mem_filter.mp there
    obtain ⟨table₁, column₁⟩ := Bool.and_eq_true_iff.mp own
    obtain ⟨table₂, column₂⟩ := Bool.and_eq_true_iff.mp other
    obtain ⟨last, middle, upTo⟩ := first.below g inFirst
    rw [beq_iff_eq.mp table₁, beq_iff_eq.mp column₁, ← beq_iff_eq.mp table₂, ← beq_iff_eq.mp column₂] at middle
    exact lt_of_le_of_lt upTo (second.above h inSecond last middle)
  · intro g member start here
    rcases List.mem_append.mp member with inFirst | inSecond
    · exact first.above g inFirst start here
    · obtain ⟨middle, between, grown⟩ := first.grows _ _ start here
      exact lt_of_le_of_lt grown (second.above g inSecond middle between)
  · intro g member
    rcases List.mem_append.mp member with here | there
    · obtain ⟨last, middle, upTo⟩ := first.below g here
      obtain ⟨end_, after, grown⟩ := second.grows _ _ last middle
      exact ⟨end_, after, upTo.trans grown⟩
    · exact second.below g there
  · intro table column start here
    obtain ⟨middle, between, grown⟩ := first.grows table column start here
    obtain ⟨last, after, more⟩ := second.grows table column middle between
    exact ⟨last, after, grown.trans more⟩

/-! ### One draw, one insertion, one call -/

section Calls
variable {db : Database J F} {t : TableDef J}

/-- One draw. -/
theorem next_advances {counters : Counters J} {table column : String} {value : Value J}
    {registry : AutoincrementRegistry J} (run : (counters table).next column = .ok (value, registry)) :
    Advances counters (Function.update counters table registry) [⟨table, column, value⟩] := by
  unfold AutoincrementRegistry.next at run
  split at run
  next => cases run
  next current here =>
    obtain ⟨value', made, run⟩ := bind_eq_ok.mp run
    cases run
    have grown := nextValue_lt made
    have after : Function.update counters table (Function.update (counters table) column (some value)) table column =
        some value := by rw [Function.update_self, Function.update_self]
    refine ⟨fun _ _ => List.Pairwise.filter _ (List.pairwise_singleton _ _), ?_, ?_, ?_⟩
    · intro g member first before
      obtain rfl := List.mem_singleton.mp member
      cases before.symm.trans here
      exact grown
    · intro g member
      obtain rfl := List.mem_singleton.mp member
      exact ⟨value, after, le_refl _⟩
    · intro table' column' first before
      by_cases sameTable : table' = table
      · subst sameTable
        by_cases sameColumn : column' = column
        · subst sameColumn
          cases before.symm.trans here
          exact ⟨value, after, le_of_lt grown⟩
        · refine ⟨first, ?_, le_refl _⟩
          rw [Function.update_self, Function.update_of_ne sameColumn, before]
      · refine ⟨first, ?_, le_refl _⟩
        rw [Function.update_of_ne sameTable, before]

theorem fillColumns_advances (table : String) (columns : List ColumnDef) (counters : Counters J) (values : Row J) :
    Advances counters (Function.update counters table (fillColumns table columns (counters table) values).counters)
      (fillColumns table columns (counters table) values).drawn := by
  induction columns generalizing counters values with
  | nil =>
      rw [fillColumns, Function.update_eq_self]
      exact .refl counters
  | cons column rest ih =>
      rw [fillColumns]
      split
      next => exact ih counters values
      next =>
        cases drawn : (counters table).next column.name with
        | error e =>
            dsimp only
            rw [Function.update_eq_self]
            exact .refl counters
        | ok result =>
            obtain ⟨value, registry⟩ := result
            have first := next_advances drawn
            have later := ih (Function.update counters table registry) (values ++ [(column, value)])
            rw [Function.update_self, Function.update_idem] at later
            exact first.trans later

namespace Engine
variable (db) (fuel : ℕ)

theorem replayOp_advances (op : TransactionOp J F) (s : DbState J) (counters : Counters J) :
    Advances counters (replayOp db fuel op s counters).counters (replayOp db fuel op s counters).drawn := by
  cases op with
  | insert table values =>
      rw [replayOp]
      split
      next => exact .refl counters
      next given _ => exact fillColumns_advances _ _ _ given
  | delete table behaviour filters => exact .refl counters
  | update table patch filters => exact .refl counters

theorem replayAll_advances (ops : List (TransactionOp J F)) (s : DbState J) (counters : Counters J) :
    Advances counters (replayAll db fuel ops s counters).counters (replayAll db fuel ops s counters).drawn := by
  induction ops generalizing s counters with
  | nil => exact .refl counters
  | cons op rest ih =>
      rw [replayAll]
      have first := replayOp_advances db fuel op s counters
      cases (replayOp db fuel op s counters).result with
      | error e => exact first
      | ok s => exact first.trans (ih s _)

/-- One call. -/
theorem call_advances (c : Call J F) (e : Engine J F) :
    Advances e.counters (e.call db fuel c).2.1.counters (e.call db fuel c).2.2 := by
  cases c with
  | insert id table values =>
      have filled := fillColumns_advances table.name (table.columns.filter fun column => column.autoIncrement)
        e.counters values
      rw [call]
      dsimp only
      split
      · exact filled
      · exact filled
  | commit id =>
      rw [call]
      split
      next => exact .refl _
      next tx _ =>
        have replayed := replayAll_advances db fuel tx.operations e.context.state e.counters
        dsimp only
        split
        · exact replayed
        · exact replayed
  | _ => exact .refl _

/-- All calls of a run. -/
theorem Run.advances {start e : Engine J F} {drawn : List (Generated J)} (run : Run db start drawn e) :
    Advances start.counters e.counters drawn := by
  induction run with
  | nil => exact .refl _
  | call _ fuel c ih => exact ih.trans (call_advances db fuel c _)

end Engine

/-- The greatest value of an integer type. -/
def greatestValue : DataTypeKind → Option (Value J)
  | .int8 => some (.int8 Int8.maxValue)
  | .int16 => some (.int16 Int16.maxValue)
  | .int32 => some (.int32 Int32.maxValue)
  | .int64 => some (.int64 Int64.maxValue)
  | .uint8 => some (.uint8 255)
  | .uint16 => some (.uint16 65535)
  | .uint32 => some (.uint32 4294967295)
  | .uint64 => some (.uint64 18446744073709551615)
  | _ => none

omit [LinearOrder J] in
/-- A counter at the greatest value of its type is exhausted. -/
theorem nextValue_greatest {kind : DataTypeKind} {value : Value J} (greatest : greatestValue kind = some value) :
    ∃ typeName, AutoincrementRegistry.nextValue value = .error (AutoincrementRegistry.overflowError typeName) := by
  cases kind <;> cases greatest <;> exact ⟨_, rfl⟩

omit [LinearOrder J] in
/-- Nothing is generated for an exhausted column. -/
theorem fillColumns_exhausted (table : String) {columns : List ColumnDef} (names : (columns.map ColumnDef.name).Nodup)
    {column : ColumnDef} (listed : column ∈ columns) {registry : AutoincrementRegistry J} {values : Row J}
    (absent : ∀ entry ∈ values, entry.1.name ≠ column.name) {last : Value J}
    (counter : registry column.name = some last) {typeName : String}
    (exhausted : AutoincrementRegistry.nextValue last = .error (AutoincrementRegistry.overflowError typeName)) :
    (∃ e, (fillColumns table columns registry values).result = .error e) ∧
      ∀ g ∈ (fillColumns table columns registry values).drawn, g.column ≠ column.name := by
  induction columns generalizing registry values with
  | nil => cases listed
  | cons first rest ih =>
      rw [List.map_cons, List.nodup_cons] at names
      rw [fillColumns]
      split
      next given =>
        obtain ⟨entry, member, name⟩ := List.any_eq_true.mp given
        have other : column ∈ rest := (List.mem_cons.mp listed).resolve_left fun same =>
          absent entry member (same ▸ beq_iff_eq.mp name)
        exact ih names.2 other absent counter
      next =>
        cases drawn : registry.next first.name with
        | error e => exact ⟨⟨e, rfl⟩, fun _ member => absurd member List.not_mem_nil⟩
        | ok result =>
            obtain ⟨value, registry'⟩ := result
            unfold AutoincrementRegistry.next at drawn
            split at drawn
            next => cases drawn
            next current here =>
              obtain ⟨value', made, drawn⟩ := bind_eq_ok.mp drawn
              cases drawn
              have apart : column.name ≠ first.name := fun same => by
                rw [← same, counter] at here
                cases here
                cases exhausted.symm.trans made
              have other : column ∈ rest := (List.mem_cons.mp listed).resolve_left fun same => apart (same ▸ rfl)
              have absent' : ∀ entry ∈ values ++ [(first, value)], entry.1.name ≠ column.name := by
                intro entry member
                rcases List.mem_append.mp member with old | new
                · exact absent entry old
                · obtain rfl := List.mem_singleton.mp new
                  exact apart.symm
              have counter' : Function.update registry first.name (some value) column.name = some last := by
                rw [Function.update_of_ne apart, counter]
              obtain ⟨fails, none_⟩ := ih names.2 other absent' counter'
              exact ⟨fails, List.forall_mem_cons.mpr ⟨apart.symm, none_⟩⟩

/-- In every run, whatever calls fail and whatever transactions are rolled back, the
values generated for a column are strictly increasing; and from an exhausted column the
insertion gets an error and no value. -/
theorem generated_values_increase {start e : Engine J F} {drawn : List (Generated J)}
    (run : Engine.Run db start drawn e) :
    (∀ table column,
      (drawn.filter fun g => g.table == table && g.column == column).Pairwise fun g h => g.value < h.value) ∧
    ∀ fuel id t (values : Row J) c last, c ∈ t.columns → c.autoIncrement = true →
      (∀ entry ∈ values, entry.1.name ≠ c.name) → e.counters t.name c.name = some last →
      greatestValue c.dataType = some last →
      (∃ failure, (e.call db fuel (.insert id t values)).1 = .error failure) ∧
        ∀ g ∈ (e.call db fuel (.insert id t values)).2.2, g.column ≠ c.name := by
  refine ⟨run.advances.increasing, ?_⟩
  intro fuel id t values c last column auto absent counter greatest
  obtain ⟨typeName, exhausted⟩ := nextValue_greatest greatest
  have names : ((t.columns.filter fun column => column.autoIncrement).map ColumnDef.name).Nodup :=
    t.columnNames.sublist (List.filter_sublist.map _)
  obtain ⟨⟨failure, fails⟩, none_⟩ := fillColumns_exhausted t.name names
    (List.mem_filter.mpr ⟨column, auto⟩) absent counter exhausted
  rw [Engine.call]
  have filled : (fillAutoIncrementValues t (e.counters t.name) values).result = .error failure := fails
  dsimp only
  rw [filled]
  exact ⟨⟨failure, rfl⟩, none_⟩

end Calls

/-! ## A table with numbered tickets -/

namespace Tickets

def id : ColumnDef := ⟨"id", .uint32, true, false, true, false, none⟩

def label : ColumnDef := ⟨"label", .text, false, false, false, false, none⟩

theorem columnNames : ([label, id].map ColumnDef.name).Nodup := by decide

theorem oneKey : ∀ c ∈ [label, id], c.primaryKey = true → c.name = "id" := by decide

theorem keyed : ∃ c ∈ [label, id], c.name = "id" ∧ c.primaryKey = true :=
  ⟨id, List.mem_cons_of_mem _ List.mem_cons_self, rfl, rfl⟩

theorem indexNames : ([⟨["id"]⟩].map IndexDef.columns).Nodup := List.nodup_singleton _

theorem keyIndex : ([⟨["id"]⟩] : List IndexDef) ≠ [] := List.cons_ne_nil _ _

/-- Tickets with a number. -/
def table : TableDef ℕ where
  name := "tickets"
  columns := [label, id]
  primaryKey := "id"
  indexes := [⟨["id"]⟩]
  sanitizer _ := none
  validator _ := none
  columnNames := columnNames
  keyed := keyed
  oneKey := oneKey
  indexNames := indexNames
  keyIndex := keyIndex

theorem plain : ∀ c ∈ table.columns, c.foreignKey = none := by decide

theorem names : ([table].map TableDef.name).Nodup := List.nodup_singleton _

theorem local_ : ∀ t ∈ [table], ∀ c ∈ t.columns, ∀ fk, c.foreignKey = some fk → fk.localColumn = c.name := by
  intro t listed c column fk key
  obtain rfl := List.mem_singleton.mp listed
  rw [plain c column] at key
  cases key

theorem foreign : ∀ t ∈ [table], ∀ c ∈ t.columns, ∀ fk, c.foreignKey = some fk →
    ∀ t' ∈ [table], t'.name = fk.foreignTable → ∃ c' ∈ t'.columns, c'.name = fk.foreignColumn := by
  intro t listed c column fk key
  obtain rfl := List.mem_singleton.mp listed
  rw [plain c column] at key
  cases key

def schema : DatabaseSchema ℕ where
  tables := [table]
  names := names
  local_ := local_
  foreign := foreign

def db : Database ℕ Empty := .scanning schema ⟨fun _ => .error "", fun f => f.elim, fun f => f.elim⟩

def empty : DbState ℕ := fun _ => ⟨[], [(["id"], [])]⟩

/-- An engine whose counter stands at a number. -/
def counting (last : UInt32) : Engine ℕ Empty :=
  ⟨⟨empty, fun _ => none, 0⟩, fun _ column => if column = "id" then some (.uint32 last) else none⟩

def issue (id : Option ℕ) (text : String) : Call ℕ Empty := .insert id table [(label, .text text)]

/-- An insertion, another one in a transaction that is rolled back, and a third one. -/
theorem run : ∃ e, Engine.Run db (counting 0)
    [⟨"tickets", "id", .uint32 1⟩, ⟨"tickets", "id", .uint32 2⟩, ⟨"tickets", "id", .uint32 3⟩] e :=
  ⟨_, .call (.call (.call (.call (.call .nil 1 (issue none "a")) 1 .begin) 1 (issue (some 0) "b"))
    1 (.rollback 0)) 1 (issue none "c")⟩

/-- The number of the ticket that is rolled back is not used again, and no number comes
after the greatest one. -/
theorem numbers_increase :
    ([⟨"tickets", "id", .uint32 1⟩, ⟨"tickets", "id", .uint32 2⟩, ⟨"tickets", "id", .uint32 3⟩] :
      List (Generated ℕ)).Pairwise (fun g h => g.value < h.value) ∧
    ∃ failure, ((counting 4294967295).call db 1 (issue none "a")).1 = .error failure := by
  obtain ⟨e, run⟩ := run
  refine ⟨(generated_values_increase run).1 "tickets" "id", ?_⟩
  have absent : ∀ entry ∈ ([(label, .text "a")] : Row ℕ), entry.1.name ≠ id.name := by
    intro entry member
    obtain rfl := List.mem_singleton.mp member
    decide
  exact ((generated_values_increase (.nil : Engine.Run db (counting 4294967295) [] _)).2 1 none table
    [(label, .text "a")] id (.uint32 4294967295) (List.mem_cons_of_mem _ List.mem_cons_self) rfl absent rfl rfl).1

end Tickets
end WasmDbms
