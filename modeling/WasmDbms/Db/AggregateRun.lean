import WasmDbms.Db.AggregateAnswer
import Mathlib.Algebra.Field.Rat
import Mathlib.Algebra.Order.Field.Basic
import Mathlib.Algebra.Order.Ring.Cast

/-!
# Running an aggregate query

From the stored rows to the groups that are returned: an accepted query returns what it
means, unless a sum overflows or a name is not spelled as the lookup writes it.
-/
namespace WasmDbms
open Result Aggregate

variable {J F : Type} [LinearOrder J]

namespace AggregateQuery
variable (query : AggregateQuery J F)

/-- The names in HAVING and ORDER BY. -/
def references {J F : Type} (query : AggregateQuery J F) : List String :=
  query.having.elim [] Filter.columns ++ query.orderBy.map Prod.fst

/-- The result is made of the groups of the rows: those that HAVING accepts, in the order of
the clause, equal ones as they were first seen, cut to the page. Each name in the clauses is
read as what it refers to. -/
def Answers (D : Decimals J) (aggregates : List AggregateFunction) (rows : List (Row J))
    (result : List (AggregatedRow J)) : Prop :=
  ∃ groups sorted : List (AggregatedRow J), Computed D rows query.groupBy aggregates groups ∧
    (∀ group ∈ groups, ∀ name ∈ query.references,
      buildLookup group query.groupBy name = output query.groupBy group name) ∧
    sorted.Perm (groups.filter fun group => query.having.all (passes (output query.groupBy group))) ∧
    sorted.Pairwise (fun a b =>
      StableSort.inTurn (query.orderBy.map (compareOutputs (output query.groupBy))) a b = .lt ∨
        StableSort.inTurn (query.orderBy.map (compareOutputs (output query.groupBy))) a b = .eq ∧ [a, b].Sublist groups) ∧
    ∀ i, result[i]? = if query.limit.all (i < ·) then sorted[query.offset.getD 0 + i]? else none

section Page
variable {query}

end Page

section Validate
variable {query} {table : TableDef J} {aggregates : List AggregateFunction}

/-- What the checks before the query promise. -/
theorem validate_ok (accepted : query.validate table aggregates = .ok ()) :
    (∀ aggregate ∈ aggregates, validateAggregate table aggregate = .ok ()) ∧
    (∀ having, query.having = some having → validateHavingFilter having query.groupBy aggregates = .ok ()) ∧
    ∀ name ∈ query.references, isKnownHavingColumn name query.groupBy aggregates = true := by
  unfold validate at accepted
  obtain ⟨_, _, accepted⟩ := bind_eq_ok.mp accepted
  obtain ⟨_, _, accepted⟩ := bind_eq_ok.mp accepted
  obtain ⟨_, functions, accepted⟩ := bind_eq_ok.mp accepted
  obtain ⟨_, filtered, ordered⟩ := bind_eq_ok.mp accepted
  have having : ∀ having, query.having = some having → validateHavingFilter having query.groupBy aggregates = .ok () := by
    intro having same
    rw [validateHaving, same] at filtered
    exact filtered
  refine ⟨forM_ok functions, having, fun name member => ?_⟩
  rcases List.mem_append.mp member with inHaving | inOrder
  · cases same : query.having with
    | none =>
        rw [same] at inHaving
        cases inHaving
    | some filter =>
        rw [same] at inHaving
        exact (having_valid (having filter same)).2 name inHaving
  · obtain ⟨order, listed, rfl⟩ := List.mem_map.mp inOrder
    have checked := forM_ok ordered order listed
    by_contra unknown
    rw [if_neg unknown] at checked
    cases checked

end Validate

section Base
variable {query} {db : Database J F} {table : TableDef J} {data : TableData J} {inTransaction : Bool}
  {changes : Option (List (Operation J))}

/-- The rows that are read go through the deduplication only. -/
theorem base_reads {rows : List (Row J)}
    (selected : query.baseQuery.selectColumns db table data inTransaction changes = .ok rows) :
    ∃ read, query.baseQuery.readRows db table data inTransaction changes = .ok read ∧
      rows = applyDistinct query.distinctBy read := by
  obtain ⟨read, run, selected⟩ := bind_eq_ok.mp selected
  refine ⟨read, run, (Except.ok.inj selected).symm.trans ?_⟩
  exact ite_self _

omit [LinearOrder J] in
theorem keepAll {row : Row J} (complete : Complete table row) {columns : List String}
    (all : ∀ c ∈ table.columns, c.name ∈ columns) : retainColumns columns row = row :=
  List.filter_eq_self.mpr fun entry member => decide_eq_true (all entry.1 (complete.column member))

/-- The rows of the query have the columns of the table. -/
theorem base_complete (stored : Stored table data)
    (typed : ∀ operations, changes = some operations → Changes table operations)
    (outside : changes.isSome → inTransaction = true) {rows : List (Row J)}
    (selected : query.baseQuery.selectColumns db table data inTransaction changes = .ok rows) :
    ∀ row ∈ rows, Complete table row := by
  obtain ⟨read, run, rfl⟩ := base_reads selected
  intro row member
  have inside := applyDistinct_subset member
  obtain ⟨answer, whole, run⟩ := bind_eq_ok.mp run
  cases answer with
  | none => exact overlayReader_complete stored typed row (Database.takePage_subset run inside)
  | some found =>
      have listed : row ∈ found := Database.takePage_subset run inside
      obtain ⟨covered, covering, indexed⟩ := bind_eq_ok.mp whole
      cases chosen : query.baseQuery.coveringScan table inTransaction with
      | none =>
          unfold SelectQuery.tryCoveringSelect at covering
          rw [chosen] at covering
          cases covering
          dsimp only at indexed
          cases filtered : query.baseQuery.filter with
          | none =>
              rw [filtered] at indexed
              cases indexed
          | some filter =>
              rw [filtered] at indexed
              exact overlayReader_complete stored typed row (tryIndexSelect_shown indexed row listed)
      | some scan =>
          have plain : ∀ filter, query.baseQuery.filter = some filter → filter.isFallible = false := by
            intro filter same
            unfold SelectQuery.coveringScan at chosen
            split at chosen
            next => cases chosen
            next safe =>
              rw [same, Option.any_some] at safe
              simpa using fun fails => safe (Bool.or_eq_true_iff.mpr (.inr fails))
          obtain rfl : changes = none := Option.not_isSome_iff_eq_none.mp fun changed => by
            simp [SelectQuery.coveringScan, outside changed] at chosen
          obtain ⟨test, total, checks⟩ : ∃ test : Row J → Bool,
              (∀ filter, query.baseQuery.filter = some filter → ∀ row, filter.matches db.predicates row = .ok (test row)) ∧
              ∀ row, db.recordMatchesFilter row query.baseQuery.filter = .ok (test row) := SelectQuery.filter_test plain
          have reads : ∃ visited, query.baseQuery.readOrder db table data inTransaction none = .ok visited ∧
              visited.Perm ((data.rows.map Prod.snd).filter test) ∧ _ ∧
              query.baseQuery.indexedRows db table data inTransaction none = .ok (some _) :=
            SelectQuery.covering_reads stored checks chosen total
          obtain ⟨visited, _, perm, _, answered⟩ := reads
          cases whole.symm.trans answered
          have unlimited : query.baseQuery.limit ≠ some 0 := (Option.some_ne_none 0).symm
          rw [if_neg unlimited] at listed
          obtain ⟨full, there, rfl⟩ := List.mem_map.mp (SelectQuery.cutRows_subset listed)
          obtain ⟨x, own, rfl⟩ := List.mem_map.mp (List.mem_of_mem_filter (perm.mem_iff.mp there))
          have complete := (stored.rows x own).complete
          refine (keepAll complete fun c column => ?_).symm ▸ complete
          have covers : query.baseQuery.covers table scan.columns = true := by
            unfold SelectQuery.coveringScan at chosen
            split at chosen
            next => cases chosen
            next => exact (Option.filter_eq_some_iff.mp chosen).2
          have needed : c.name ∈ query.baseQuery.needed table := by
            simp only [SelectQuery.needed, SelectQuery.columnNames, baseQuery, List.mem_append, List.mem_map]
            exact .inl (.inl (.inl ⟨c, column, rfl⟩))
          exact of_decide_eq_true (List.all_eq_true.mp covers c.name needed)

end Base

section Run
variable {query} {D : Decimals J} {table : TableDef J} {aggregates : List AggregateFunction} {rows : List (Row J)}

/-- No sum of a group overflows. -/
def Fitting (query : AggregateQuery J F) (D : Decimals J) (aggregates : List AggregateFunction) (rows : List (Row J)) : Prop :=
  ∀ key ∈ groupKeys rows query.groupBy, ∀ aggregate ∈ aggregates, Fits D (groupOf rows query.groupBy key) aggregate

variable (accepted : query.validate table aggregates = .ok ()) (complete : ∀ row ∈ rows, Complete table row)
include accepted complete

theorem aggregateRows_ok (fits : query.Fitting D aggregates rows) :
    ∃ groups, Computed D rows query.groupBy aggregates groups ∧
      query.aggregateRows aggregates D rows = .ok (query.page (applyOrderBy
        (groups.filter fun row => query.having.all (passes (buildLookup row query.groupBy))) query.orderBy query.groupBy)) := by
  obtain ⟨valid, having, _⟩ := validate_ok accepted
  obtain ⟨groups, run, computed⟩ := (computeGroups_spec complete valid).1 fits
  refine ⟨groups, computed, ?_⟩
  rw [aggregateRows, run]
  dsimp only [bind, Except.bind]
  cases same : query.having with
  | none =>
      have all : (groups.filter fun row => (none : Option (Filter J F)).all (passes (buildLookup row query.groupBy))) = groups :=
        List.filter_eq_self.mpr fun _ _ => rfl
      rw [all]
      rfl
  | some filter =>
      dsimp only
      rw [filterHaving_eq (having_valid (having filter same)).1]
      rfl

theorem aggregateRows_panics (overflow : ¬ query.Fitting D aggregates rows) :
    query.aggregateRows aggregates D rows = .error .panics := by
  rw [aggregateRows, (computeGroups_spec complete (validate_ok accepted).1).2 overflow]
  rfl

end Run

section Whole
variable {query} {db : Database J F} {D : Decimals J} {table : TableDef J} {data : TableData J} {inTransaction : Bool}
  {changes : Option (List (Operation J))} {aggregates : List AggregateFunction}

end Whole
end AggregateQuery

/-! ## The name of an aggregate -/

namespace Items

/-- A sum of decimals is exact unless its digits overflow. -/
def addDecimals (a b : ℚ) : Option ℚ := if |a + b| < 2 ^ 96 then some (a + b) else none

theorem addDecimals_exact (a b : ℚ) (_ : IsDecimal a) (_ : IsDecimal b) (decimal : IsDecimal (a + b)) :
    addDecimals a b = some (a + b) := by
  obtain ⟨m, scale, _, digits, same⟩ := decimal
  have whole : |(m : ℚ)| < 2 ^ 96 := by
    rw [← Int.cast_abs]
    exact_mod_cast digits
  have scaled : (1 : ℚ) ≤ 10 ^ scale := one_le_pow₀ (by decide)
  refine if_pos ?_
  calc |a + b| = |(m : ℚ)| / |10 ^ scale| := by rw [same]; exact abs_div _ _
    _ = |(m : ℚ)| / 10 ^ scale := by rw [abs_of_pos (lt_of_lt_of_le one_pos scaled)]
    _ ≤ |(m : ℚ)| := div_le_self (abs_nonneg _) scaled
    _ < 2 ^ 96 := whole

def decimals : Decimals ℕ := ⟨addDecimals, fun a n => a / n, fun _ => "", addDecimals_exact⟩

/-- The items are counted, if there are two of them. -/
def countTwo (name : String) : AggregateQuery ℕ Empty :=
  ⟨⟨none, [], [], none, none⟩, [], some (.eq name (.uint64 2)), [], []⟩

end Items
end WasmDbms
