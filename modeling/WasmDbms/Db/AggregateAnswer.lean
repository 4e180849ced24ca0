import WasmDbms.Db.Aggregate
import WasmDbms.Db.SelectOrder

/-!
# The answer of an aggregate query

What an aggregate query means over the rows of its filter, and when its evaluation says so.
-/
namespace WasmDbms
open Result

variable {J F : Type}

namespace Aggregate

/-! ## The aggregates of a group -/

section Values
variable (rows : List (Row J)) (column : String)

def presentValues : List (Value J) := rows.filterMap (presentValue column)

def numbers : List ℚ := (presentValues rows column).filterMap Value.number?

end Values

/-- The decimals added up one after the other. -/
def decimalSum (D : Decimals J) (numbers : List ℚ) : Option ℚ := numbers.foldlM D.add 0

/-- The sum of the numbers in decimal arithmetic: the exact one, while it stays a decimal. -/
structure IsSum (D : Decimals J) (numbers : List ℚ) (s : ℚ) : Prop where
  total : decimalSum D numbers = some s
  exact : (∀ q ∈ numbers, IsDecimal q) → (∀ k, IsDecimal (numbers.take k).sum) → s = numbers.sum

/-- What each aggregate is over the rows of a group. -/
inductive Yields [LinearOrder J] (D : Decimals J) (rows : List (Row J)) : AggregateFunction → AggregatedValue J → Prop
  | countAll : Yields D rows (.count none) (.count rows.length)
  | count (column : String) : Yields D rows (.count (some column)) (.count (presentValues rows column).length)
  | noSum {column : String} (empty : presentValues rows column = []) : Yields D rows (.sum column) (.sum .null)
  | sum {column : String} {s : ℚ} (some_ : presentValues rows column ≠ []) (sum : IsSum D (numbers rows column) s) :
      Yields D rows (.sum column) (.sum (.decimal s))
  | noAvg {column : String} (empty : presentValues rows column = []) : Yields D rows (.avg column) (.avg .null)
  | avg {column : String} {s : ℚ} (some_ : presentValues rows column ≠ []) (sum : IsSum D (numbers rows column) s) :
      Yields D rows (.avg column) (.avg (.decimal (D.divCount s (numbers rows column).length)))
  | noMin {column : String} (empty : presentValues rows column = []) : Yields D rows (.min column) (.min .null)
  | min {column : String} {v : Value J} (least : IsLeast {x | x ∈ presentValues rows column} v) :
      Yields D rows (.min column) (.min v)
  | noMax {column : String} (empty : presentValues rows column = []) : Yields D rows (.max column) (.max .null)
  | max {column : String} {v : Value J} (greatest : IsGreatest {x | x ∈ presentValues rows column} v) :
      Yields D rows (.max column) (.max v)

/-- The sums of the aggregate do not overflow. -/
def Fits (D : Decimals J) (rows : List (Row J)) : AggregateFunction → Prop
  | .sum column | .avg column => decimalSum D (numbers rows column) ≠ none
  | _ => True

section Sums
variable {D : Decimals J} {rows : List (Row J)} {column : String}

theorem decimalSum_exact {numbers : List ℚ} (decimals : ∀ q ∈ numbers, IsDecimal q)
    (sums : ∀ k, IsDecimal (numbers.take k).sum) : decimalSum D numbers = some numbers.sum := by
  induction numbers using List.reverseRecOn with
  | nil => rfl
  | append_singleton numbers q ih =>
      obtain ⟨earlier, last⟩ := List.forall_mem_append.mp decimals
      have before : decimalSum D numbers = some numbers.sum := by
        refine ih earlier fun k => ?_
        have short := sums (min k numbers.length)
        rwa [List.take_append_of_le_length (Nat.min_le_right _ _), ← List.take_eq_take_min] at short
      have start : IsDecimal numbers.sum := by
        have whole := sums numbers.length
        rwa [List.take_left] at whole
      have stop : IsDecimal (numbers.sum + q) := by
        have whole := sums (numbers ++ [q]).length
        rwa [List.take_length, List.sum_append, List.sum_singleton] at whole
      have step : decimalSum D (numbers ++ [q]) = (decimalSum D numbers).bind fun s => D.add s q := by
        rw [decimalSum, List.foldlM_append]
        refine congrArg _ (funext fun s => ?_)
        rw [List.foldlM_cons]
        cases D.add s q <;> rfl
      rw [step, before, Option.bind_some, D.add_exact _ _ start (last q List.mem_cons_self) stop, List.sum_append,
        List.sum_singleton]

theorem isSum {numbers : List ℚ} {s : ℚ} (total : decimalSum D numbers = some s) : IsSum D numbers s :=
  ⟨total, fun decimals sums => Option.some.inj (total.symm.trans (decimalSum_exact decimals sums))⟩

theorem countColumn_eq : countColumn rows column = (presentValues rows column).length := by
  have counted : ∀ n, rows.foldl (fun n row => (presentValue column row).elim n fun _ => n + 1) n =
      n + (presentValues rows column).length := by
    induction rows with
    | nil => exact fun n => rfl
    | cons row rest ih =>
        intro n
        rw [List.foldl_cons, ih, presentValues, presentValues, List.filterMap_cons]
        cases presentValue column row with
        | none => rfl
        | some v => exact Nat.succ_add_eq_add_succ n _
  exact (counted 0).trans (Nat.zero_add _)

/-- The loops of SUM and AVG add the numbers up, or panic. -/
theorem foldlM_accumulate {σ : Type} {note : σ → σ}
    (numeric : ∀ v ∈ presentValues rows column, ∃ q, v.number? = some q) (acc : ℚ) (t : σ) :
    rows.foldlM (accumulate D column note) (acc, t) =
      ((numbers rows column).foldlM D.add acc).elim (.error .panics) fun s =>
        .ok (s, note^[(presentValues rows column).length] t) := by
  induction rows generalizing acc t with
  | nil => rfl
  | cons row rest ih =>
      rw [List.foldlM_cons, accumulate]
      unfold numbers at ih ⊢
      unfold presentValues at numeric ih ⊢
      cases here : presentValue column row with
      | none =>
          rw [List.filterMap_cons_none here] at numeric ⊢
          exact ih numeric acc t
      | some v =>
          rw [List.filterMap_cons_some here] at numeric ⊢
          obtain ⟨⟨q, number⟩, later⟩ := List.forall_mem_cons.mp numeric
          rw [List.filterMap_cons_some number, List.foldlM_cons]
          dsimp only
          rw [addValue, valueToDecimal, number]
          dsimp only [Except.mapError, Failure.lift, bind, Except.bind]
          cases D.add acc q with
          | none => rfl
          | some s => exact ih later s (note t)

end Sums

section Best
variable [LinearOrder J]

/-- The loops of MIN and MAX keep a value that no other one beats. -/
theorem foldl_takeBetter {isMin : Bool} (values : List (Value J)) (v : Value J) :
    ∃ w, values.foldl (takeBetter isMin) (some v) = some w ∧ w ∈ v :: values ∧
      ∀ x ∈ v :: values, if isMin then w ≤ x else x ≤ w := by
  induction values generalizing v with
  | nil =>
      refine ⟨v, rfl, List.mem_cons_self, fun x member => ?_⟩
      rw [List.mem_singleton.mp member]
      split <;> exact le_refl _
  | cons y rest ih =>
      rw [List.foldl_cons, takeBetter]
      obtain ⟨w, run, member, best⟩ := ih (if (if isMin then y < v else v < y) then y else v)
      refine ⟨w, run, ?_, ?_⟩
      · rcases List.mem_cons.mp member with here | later
        · rcases ite_eq_or_eq (if isMin then y < v else v < y) y v with same | same
          · exact List.mem_cons_of_mem _ (List.mem_cons.mpr (.inl (here.trans same)))
          · exact List.mem_cons.mpr (.inl (here.trans same))
        · exact List.mem_cons_of_mem _ (List.mem_cons_of_mem _ later)
      · have first := best _ List.mem_cons_self
        intro x listed
        rcases List.mem_cons.mp listed with rfl | listed
        · cases isMin <;> simp only [Bool.false_eq_true, if_true, if_false] at first ⊢ <;> split at first
          · exact (le_of_lt ‹_›).trans first
          · exact first
          · exact first.trans (le_of_lt ‹_›)
          · exact first
        · rcases List.mem_cons.mp listed with rfl | later
          · cases isMin <;> simp only [Bool.false_eq_true, if_true, if_false] at first ⊢ <;> split at first
            · exact first
            · exact (not_lt.mp ‹_›).trans first
            · exact first
            · exact first.trans (not_lt.mp ‹_›)
          · exact best x (List.mem_cons_of_mem _ later)

theorem minMaxColumn_eq {rows : List (Row J)} {column : String} {isMin : Bool} :
    minMaxColumn rows column isMin = ((presentValues rows column).foldl (takeBetter isMin) none).getD .null := by
  refine congrArg (fun best => Option.getD best Value.null) ?_
  generalize (none : Option (Value J)) = start
  induction rows generalizing start with
  | nil => rfl
  | cons row rest ih =>
      rw [List.foldl_cons, ih, presentValues, presentValues, List.filterMap_cons]
      cases presentValue column row <;> rfl

theorem minMaxColumn_best {rows : List (Row J)} {column : String} {isMin : Bool} {v : Value J} {rest : List (Value J)}
    (values : presentValues rows column = v :: rest) :
    minMaxColumn rows column isMin ∈ presentValues rows column ∧
      ∀ x ∈ presentValues rows column, if isMin then minMaxColumn rows column isMin ≤ x else x ≤ minMaxColumn rows column isMin := by
  rw [minMaxColumn_eq, values]
  obtain ⟨w, run, member, best⟩ := @foldl_takeBetter J _ isMin rest v
  have start : (v :: rest).foldl (takeBetter isMin) none = some w := run
  rw [start]
  exact ⟨member, best⟩

end Best

section Group
variable [LinearOrder J] {D : Decimals J} {table : TableDef J} {rows : List (Row J)} {aggregate : AggregateFunction}

omit [LinearOrder J] in
theorem number_of_kind {c : ColumnDef} {v : Value J} (admits : c.Admits v) (numeric : isNumericKind c.dataType = true)
    (present : v.isNull = false) : ∃ q, v.number? = some q := by
  rcases admits with kind | ⟨rfl, _⟩
  · generalize c.dataType = expected at kind numeric
    cases v <;> first
      | exact ⟨_, rfl⟩
      | (cases kind <;> cases numeric)
  · cases present

omit [LinearOrder J] in
theorem lookupColumn_ok {name : String} {c : ColumnDef} (found : lookupColumn table name = .ok c) :
    table.columns.find? (fun column => column.name == name) = some c := by
  unfold lookupColumn at found
  split at found
  next column search =>
    cases found
    exact search
  next => cases found

omit [LinearOrder J] in
/-- The present values of a column that passed the check of SUM and AVG are numbers. -/
theorem sum_numeric {column : String} (complete : ∀ row ∈ rows, Complete table row)
    (valid : validateAggregate table (.sum column) = .ok ()) :
    ∀ v ∈ presentValues rows column, ∃ q, v.number? = some q := by
  obtain ⟨c, found, kind⟩ := bind_eq_ok.mp valid
  have numeric : isNumericKind c.dataType = true := by
    by_contra other
    rw [if_neg other] at kind
    cases kind
  intro v member
  obtain ⟨row, listed, here⟩ := List.mem_filterMap.mp member
  obtain ⟨known, present⟩ := Option.filter_eq_some_iff.mp here
  refine number_of_kind ((complete row listed).typedIn column v c known (lookupColumn_ok found)) numeric ?_
  simpa using present

omit [LinearOrder J] in
theorem numbers_length {column : String} (numeric : ∀ v ∈ presentValues rows column, ∃ q, v.number? = some q) :
    (numbers rows column).length = (presentValues rows column).length := by
  unfold numbers
  generalize presentValues rows column = values at numeric
  induction values with
  | nil => rfl
  | cons v rest ih =>
      obtain ⟨⟨q, number⟩, later⟩ := List.forall_mem_cons.mp numeric
      rw [List.filterMap_cons_some number, List.length_cons, List.length_cons, ih later]

omit [LinearOrder J] in
theorem sumColumn_eq {column : String} (numeric : ∀ v ∈ presentValues rows column, ∃ q, v.number? = some q) :
    sumColumn D rows column = (decimalSum D (numbers rows column)).elim (.error .panics) fun s =>
      .ok (if presentValues rows column = [] then .null else .decimal s) := by
  rw [sumColumn, foldlM_accumulate numeric, decimalSum]
  cases (numbers rows column).foldlM D.add 0 with
  | none => rfl
  | some s =>
      cases presentValues rows column with
      | nil => rfl
      | cons v rest =>
          have noted : (fun _ : Bool => true)^[(v :: rest).length] false = true := by
            rw [List.length_cons, Function.iterate_succ_apply']
          dsimp only [Option.elim_some, bind, Except.bind]
          rw [noted]
          rfl

omit [LinearOrder J] in
theorem avgColumn_eq {column : String} (numeric : ∀ v ∈ presentValues rows column, ∃ q, v.number? = some q) :
    avgColumn D rows column = (decimalSum D (numbers rows column)).elim (.error .panics) fun s =>
      .ok (if presentValues rows column = [] then .null else .decimal (D.divCount s (numbers rows column).length)) := by
  rw [avgColumn, foldlM_accumulate numeric, decimalSum, numbers_length numeric]
  cases (numbers rows column).foldlM D.add 0 with
  | none => rfl
  | some s =>
      have counted : (fun count => count + 1)^[(presentValues rows column).length] 0 = (presentValues rows column).length := by
        rw [Nat.succ_iterate, Nat.zero_add]
      dsimp only [Option.elim_some, bind, Except.bind]
      rw [counted]
      cases presentValues rows column <;> rfl

/-- An aggregate that passed the checks is computed, unless its sum overflows. -/
theorem computeAggregate_spec (complete : ∀ row ∈ rows, Complete table row)
    (valid : validateAggregate table aggregate = .ok ()) :
    (Fits D rows aggregate → ∃ value, computeAggregate D rows aggregate = .ok value ∧ Yields D rows aggregate value) ∧
    (¬ Fits D rows aggregate → computeAggregate D rows aggregate = .error .panics) := by
  cases aggregate with
  | count column =>
      refine ⟨fun _ => ?_, fun fails => absurd trivial fails⟩
      cases column with
      | none => exact ⟨_, rfl, .countAll⟩
      | some column => exact ⟨_, rfl, countColumn_eq ▸ .count column⟩
  | min column =>
      refine ⟨fun _ => ⟨_, rfl, ?_⟩, fun fails => absurd trivial fails⟩
      cases values : presentValues rows column with
      | nil =>
          rw [minMaxColumn_eq, values]
          exact .noMin values
      | cons v rest =>
          obtain ⟨member, best⟩ := @minMaxColumn_best J _ rows column true v rest values
          exact .min ⟨member, fun x listed => best x listed⟩
  | max column =>
      refine ⟨fun _ => ⟨_, rfl, ?_⟩, fun fails => absurd trivial fails⟩
      cases values : presentValues rows column with
      | nil =>
          rw [minMaxColumn_eq, values]
          exact .noMax values
      | cons v rest =>
          obtain ⟨member, best⟩ := @minMaxColumn_best J _ rows column false v rest values
          exact .max ⟨member, fun x listed => best x listed⟩
  | sum column =>
      have run := sumColumn_eq (D := D) (sum_numeric complete valid)
      refine ⟨fun fits => ?_, fun fails => ?_⟩
      · obtain ⟨s, total⟩ := Option.ne_none_iff_exists'.mp fits
        rw [total, Option.elim_some] at run
        rw [computeAggregate, run]
        refine ⟨_, rfl, ?_⟩
        by_cases empty : presentValues rows column = []
        · rw [if_pos empty]
          exact .noSum empty
        · rw [if_neg empty]
          exact .sum empty (isSum total)
      · rw [not_not.mp fails, Option.elim_none] at run
        rw [computeAggregate, run]
        rfl
  | avg column =>
      have run := avgColumn_eq (D := D) (sum_numeric complete valid)
      refine ⟨fun fits => ?_, fun fails => ?_⟩
      · obtain ⟨s, total⟩ := Option.ne_none_iff_exists'.mp fits
        rw [total, Option.elim_some] at run
        rw [computeAggregate, run]
        refine ⟨_, rfl, ?_⟩
        by_cases empty : presentValues rows column = []
        · rw [if_pos empty]
          exact .noAvg empty
        · rw [if_neg empty]
          exact .avg empty (isSum total)
      · rw [not_not.mp fails, Option.elim_none] at run
        rw [computeAggregate, run]
        rfl

end Group

/-! ## The groups -/

/-- The distinct combinations of the GROUP BY values in the order of their first row; one
group of all rows without GROUP BY. -/
def groupKeys [LinearOrder J] (rows : List (Row J)) (groupBy : List String) : List (List (Value J)) :=
  if groupBy.isEmpty then [[]] else (rows.map (indexKey groupBy)).eraseDups

def groupOf [LinearOrder J] (rows : List (Row J)) (groupBy : List String) (key : List (Value J)) : List (Row J) :=
  rows.filter fun row => indexKey groupBy row = key

/-- Each group has its row, with its keys and its aggregates. -/
structure Computed [LinearOrder J] (D : Decimals J) (rows : List (Row J)) (groupBy : List String)
    (aggregates : List AggregateFunction) (groups : List (AggregatedRow J)) : Prop where
  keys : groups.map AggregatedRow.groupKeys = groupKeys rows groupBy
  values : ∀ group ∈ groups,
    List.Forall₂ (Yields D (groupOf rows groupBy group.groupKeys)) aggregates group.values

section Groups
variable [LinearOrder J] {D : Decimals J} {rows : List (Row J)} {groupBy : List String}

theorem groupRows_eq : groupRows rows groupBy =
    (groupKeys rows groupBy).map fun key => (key, groupOf rows groupBy key) := by
  unfold groupRows groupKeys
  cases groupBy with
  | nil =>
      have all : groupOf rows [] [] = rows := List.filter_eq_self.mpr fun row _ => decide_eq_true rfl
      rw [List.isEmpty_nil, if_pos rfl, if_pos rfl, List.map_singleton, all]
  | cons column rest =>
      rw [List.isEmpty_cons, if_neg Bool.false_ne_true, if_neg Bool.false_ne_true]
      exact Grouping.group_eq (indexKey (column :: rest)) rows

/-- The keys of a group are the values of a row of it. -/
theorem groupKeys_keyed {key : List (Value J)} (member : key ∈ groupKeys rows groupBy) :
    ∃ row : Row J, key = indexKey groupBy row := by
  unfold groupKeys at member
  split at member
  next none_ =>
    refine ⟨[], ?_⟩
    rw [List.mem_singleton.mp member, List.isEmpty_iff.mp none_]
    rfl
  next =>
    obtain ⟨row, _, same⟩ := List.mem_map.mp (List.mem_eraseDups.mp member)
    exact ⟨row, same.symm⟩

end Groups

/-- Where one of the computations ends with the error and the others succeed. -/
theorem mapM_error {α β ε : Type} {f : α → Except ε β} {e : ε} {l : List α}
    (each : ∀ x ∈ l, (∃ y, f x = .ok y) ∨ f x = .error e) {x : α} (member : x ∈ l) (fails : f x = .error e) :
    l.mapM f = .error e := by
  induction l with
  | nil => cases member
  | cons y rest ih =>
      obtain ⟨first, later⟩ := List.forall_mem_cons.mp each
      rw [List.mapM_cons]
      rcases first with ⟨z, run⟩ | failed
      · rw [run]
        rcases List.mem_cons.mp member with rfl | inside
        · cases run.symm.trans fails
        · dsimp only [bind, Except.bind]
          rw [ih later inside]
      · rw [failed]
        rfl

section Compute
variable [LinearOrder J] {D : Decimals J} {table : TableDef J} {rows : List (Row J)} {groupBy : List String}
  {aggregates : List AggregateFunction} (complete : ∀ row ∈ rows, Complete table row)
  (valid : ∀ aggregate ∈ aggregates, validateAggregate table aggregate = .ok ())
include complete valid

theorem computeGroup_ok (fits : ∀ aggregate ∈ aggregates, Fits D rows aggregate) (key : List (Value J)) :
    ∃ values, computeGroup D aggregates (key, rows) = .ok ⟨key, values⟩ ∧ List.Forall₂ (Yields D rows) aggregates values := by
  have each : ∀ aggregate ∈ aggregates, ∃ value, computeAggregate D rows aggregate = .ok value ∧
      Yields D rows aggregate value := fun aggregate member =>
    (computeAggregate_spec complete (valid aggregate member)).1 (fits aggregate member)
  obtain ⟨values, run⟩ := mapM_ok fun aggregate member => (each aggregate member).imp fun _ => And.left
  refine ⟨values, ?_, ?_⟩
  · rw [computeGroup, computeAggregates, run]
    rfl
  · refine List.forall₂_iff_get.mpr ⟨(mapM_forall₂ run).length_eq, fun i here there => ?_⟩
    have one := (List.forall₂_iff_get.mp (mapM_forall₂ run)).2 i here there
    obtain ⟨value, own, yields⟩ := each _ (List.get_mem _ ⟨i, here⟩)
    rw [← Except.ok.inj (own.symm.trans one)]
    exact yields

theorem computeGroup_panics {aggregate : AggregateFunction} (member : aggregate ∈ aggregates)
    (overflow : ¬ Fits D rows aggregate) (key : List (Value J)) :
    computeGroup D aggregates (key, rows) = .error .panics := by
  have run : aggregates.mapM (computeAggregate D rows) = .error .panics := by
    refine mapM_error (fun other listed => ?_) member ((computeAggregate_spec complete (valid aggregate member)).2 overflow)
    by_cases fits : Fits D rows other
    · obtain ⟨value, run, _⟩ := (computeAggregate_spec complete (valid other listed)).1 fits
      exact .inl ⟨value, run⟩
    · exact .inr ((computeAggregate_spec complete (valid other listed)).2 fits)
  rw [computeGroup, computeAggregates, run]
  rfl

/-- The groups are computed when no sum of a group overflows, and otherwise the query panics. -/
theorem computeGroups_spec :
    ((∀ key ∈ groupKeys rows groupBy, ∀ aggregate ∈ aggregates, Fits D (groupOf rows groupBy key) aggregate) →
      ∃ groups, (groupRows rows groupBy).mapM (computeGroup D aggregates) = .ok groups ∧
        Computed D rows groupBy aggregates groups) ∧
    ((¬ ∀ key ∈ groupKeys rows groupBy, ∀ aggregate ∈ aggregates, Fits D (groupOf rows groupBy key) aggregate) →
      (groupRows rows groupBy).mapM (computeGroup D aggregates) = .error .panics) := by
  have inside : ∀ key, ∀ row ∈ groupOf rows groupBy key, Complete table row := fun key row member =>
    complete row (List.mem_of_mem_filter member)
  rw [groupRows_eq]
  constructor
  · intro fits
    have each : ∀ key ∈ groupKeys rows groupBy, ∃ group, computeGroup D aggregates (key, groupOf rows groupBy key) = .ok group ∧
        group.groupKeys = key ∧ List.Forall₂ (Yields D (groupOf rows groupBy key)) aggregates group.values := by
      intro key member
      obtain ⟨values, run, yields⟩ := computeGroup_ok (inside key) valid (fits key member) key
      exact ⟨_, run, rfl, yields⟩
    choose! group run own yields using each
    refine ⟨(groupKeys rows groupBy).map group, ?_, ?_, ?_⟩
    · rw [List.mapM_map]
      exact mapM_eq_map run
    · rw [List.map_map]
      exact (List.map_congr_left own).trans (List.map_id _)
    · intro row member
      obtain ⟨key, listed, rfl⟩ := List.mem_map.mp member
      rw [own key listed]
      exact yields key listed
  · intro overflow
    push Not at overflow
    obtain ⟨key, member, aggregate, listed, fails⟩ := overflow
    refine mapM_error (fun group there => ?_) (List.mem_map_of_mem member)
      (computeGroup_panics (inside key) valid listed fails key)
    obtain ⟨other, _, rfl⟩ := List.mem_map.mp there
    by_cases fits : ∀ aggregate ∈ aggregates, Fits D (groupOf rows groupBy other) aggregate
    · obtain ⟨values, run, _⟩ := computeGroup_ok (inside other) valid fits other
      exact .inl ⟨_, run⟩
    · push Not at fits
      obtain ⟨aggregate, listed, fails⟩ := fits
      exact .inr (computeGroup_panics (inside other) valid listed fails other)

end Compute

/-! ## References to the outputs -/

theorem parseAggIndex_aggName (index : ℕ) : parseAggIndex (aggName index) = some index := by
  have chars : (aggName index).toList = 'a' :: 'g' :: 'g' :: Nat.toDigits 10 index := by
    have text : aggName index = "agg" ++ index.repr := rfl
    rw [text, String.toList_append, Nat.toList_repr]
    rfl
  have digits : (Nat.toDigits 10 index).all Char.isDigit = true :=
    List.all_eq_true.mpr fun c member => Nat.isDigit_of_mem_toDigits (by decide) (by decide) member
  have unsigned : (Nat.toDigits 10 index).head? ≠ some '+' := fun plus => by
    have first := List.all_eq_true.mp digits '+' (List.mem_of_head? plus)
    exact absurd first (by decide)
  have some_ : (Nat.toDigits 10 index).isEmpty = false := by
    simp [Nat.toDigits_ne_nil]
  have parsed : parseAggIndex (aggName index) = parseUsize (Nat.toDigits 10 index) := by
    rw [parseAggIndex, chars]
    rfl
  rw [parsed]
  unfold parseUsize
  dsimp only
  rw [if_neg unsigned, some_, digits, Nat.ofDigitChars_toDigits (by decide) (by decide)]
  rfl

/-- The name is that of one of the aggregates, as the lookup writes it. -/
def IsAggName (count : ℕ) (name : String) : Prop := ∃ index < count, name = aggName index

/-- The name is a GROUP BY column or an aggregate as the lookup writes it. -/
def Spelled (groupBy : List String) (count : ℕ) (name : String) : Prop := name ∈ groupBy ∨ IsAggName count name

open Classical in
/-- What an accepted name refers to: an aggregate by its number, or the value of a GROUP BY
column that is not named like an aggregate. -/
noncomputable def output (groupBy : List String) (row : AggregatedRow J) (name : String) : Option (Value J) :=
  if name ∈ groupBy ∧ ¬ IsAggName row.values.length name then row.groupKeys[groupBy.idxOf name]?
  else (parseAggIndex name).bind fun index => (row.values[index]?).map toValue

theorem foldl_update {ι β : Type} {k : ι → String} {v : ι → β} {g : String → β} {l : List ι}
    (same : ∀ e ∈ l, v e = g (k e)) (start : String → Option β) (name : String) :
    l.foldl (fun map e => Function.update map (k e) (some (v e))) start name =
      if name ∈ l.map k then some (g name) else start name := by
  induction l generalizing start with
  | nil => rfl
  | cons e rest ih =>
      obtain ⟨here, later⟩ := List.forall_mem_cons.mp same
      rw [List.foldl_cons, ih later, List.map_cons]
      by_cases inside : name ∈ rest.map k
      · rw [if_pos inside, if_pos (List.mem_cons_of_mem _ inside)]
      · rw [if_neg inside]
        by_cases own : name = k e
        · subst own
          rw [Function.update_self, here, if_pos List.mem_cons_self]
        · rw [Function.update_of_ne own, if_neg (by simp [own, inside])]

section Lookup
variable {row : AggregatedRow J} {groupBy : List String} {g : String → Value J} (keyed : row.groupKeys = groupBy.map g)
include keyed

open Classical in
theorem buildLookup_eq (name : String) : buildLookup row groupBy name =
    if IsAggName row.values.length name then (parseAggIndex name).bind fun index => (row.values[index]?).map toValue
    else if name ∈ groupBy then some (g name) else none := by
  have columns : ∀ name, groupBy.zipIdx.foldl (fun (map : String → Option (Value J)) column =>
      Function.update map column.1 (some (row.groupKeys[column.2]?.getD .null))) (fun _ => none) name =
        if name ∈ groupBy then some (g name) else none := by
    intro name
    have same : ∀ e ∈ groupBy.zipIdx, (row.groupKeys[e.2]?.getD .null) = g e.1 := by
      intro e member
      rw [keyed, List.getElem?_map, List.mem_zipIdx_iff_getElem?.mp member]
      rfl
    have folded := foldl_update same (fun _ => none) name
    rwa [List.zipIdx_map_fst] at folded
  have aggregates : ∀ e ∈ row.values.zipIdx, toValue e.1 =
      ((parseAggIndex (aggName e.2)).bind fun index => (row.values[index]?).map toValue).getD .null := by
    intro e member
    rw [parseAggIndex_aggName, Option.bind_some, List.mem_zipIdx_iff_getElem?.mp member]
    rfl
  unfold buildLookup
  have folded : ∀ start : String → Option (Value J), row.values.zipIdx.foldl
      (fun map value => Function.update map (aggName value.2) (some (toValue value.1))) start name = _ := fun start =>
    foldl_update (g := fun name => ((parseAggIndex name).bind fun index => (row.values[index]?).map toValue).getD .null)
      aggregates start name
  rw [folded, columns]
  have named : name ∈ row.values.zipIdx.map (fun value => aggName value.2) ↔ IsAggName row.values.length name := by
    rw [List.mem_map]
    constructor
    · rintro ⟨e, member, rfl⟩
      obtain ⟨bound, _⟩ := List.getElem?_eq_some_iff.mp (List.mem_zipIdx_iff_getElem?.mp member)
      exact ⟨e.2, bound, rfl⟩
    · rintro ⟨index, bound, rfl⟩
      exact ⟨(row.values[index], index), List.mem_zipIdx_iff_getElem?.mpr (List.getElem?_eq_getElem bound), rfl⟩
  by_cases own : IsAggName row.values.length name
  · rw [if_pos (named.mpr own), if_pos own]
    obtain ⟨index, bound, rfl⟩ := own
    rw [parseAggIndex_aggName, Option.bind_some, List.getElem?_eq_getElem bound]
    rfl
  · rw [if_neg (fun listed => own (named.mp listed)), if_neg own]

end Lookup

/-! ## The clauses over groups -/

section Clauses
variable [LinearOrder J] {groupBy : List String} {aggregates : List AggregateFunction}

/-- Whether a filter accepts what its names refer to. -/
def passes (lookup : String → Option (Value J)) (filter : Filter J F) : Bool :=
  (evalFilter lookup filter).toOption.getD false

/-- A filter that passed the checks raises no error, and its names are accepted. -/
theorem having_valid {filter : Filter J F} (valid : validateHavingFilter filter groupBy aggregates = .ok ()) :
    (∀ lookup : String → Option (Value J), ∃ b, evalFilter lookup filter = .ok b) ∧
      ∀ c ∈ filter.columns, isKnownHavingColumn c groupBy aggregates = true := by
  unfold validateHavingFilter at valid
  have leaf : ∀ {c : String}, (if isKnownHavingColumn c groupBy aggregates then (.ok () : Except (DbmsError J) Unit)
      else .error (.query (.invalidQuery s!"HAVING references unknown column or aggregate: '{c}'"))) = .ok () →
      ∀ name ∈ [c], isKnownHavingColumn name groupBy aggregates = true := by
    intro c checked name member
    rw [List.mem_singleton.mp member]
    by_contra unknown
    rw [if_neg unknown] at checked
    cases checked
  induction filter with
  | and left right ihl ihr =>
      obtain ⟨_, _, rest⟩ := bind_eq_ok.mp valid
      obtain ⟨_, first, second⟩ := bind_eq_ok.mp rest
      obtain ⟨evalLeft, knownLeft⟩ := ihl first
      obtain ⟨evalRight, knownRight⟩ := ihr second
      refine ⟨fun lookup => ?_, List.forall_mem_append.mpr ⟨knownLeft, knownRight⟩⟩
      obtain ⟨b, one⟩ := evalLeft lookup
      obtain ⟨c, other⟩ := evalRight lookup
      rw [evalFilter, one]
      cases b
      · exact ⟨false, rfl⟩
      · exact ⟨c, other⟩
  | or left right ihl ihr =>
      obtain ⟨_, _, rest⟩ := bind_eq_ok.mp valid
      obtain ⟨_, first, second⟩ := bind_eq_ok.mp rest
      obtain ⟨evalLeft, knownLeft⟩ := ihl first
      obtain ⟨evalRight, knownRight⟩ := ihr second
      refine ⟨fun lookup => ?_, List.forall_mem_append.mpr ⟨knownLeft, knownRight⟩⟩
      obtain ⟨b, one⟩ := evalLeft lookup
      obtain ⟨c, other⟩ := evalRight lookup
      rw [evalFilter, one]
      cases b
      · exact ⟨c, other⟩
      · exact ⟨true, rfl⟩
  | not inner ih =>
      obtain ⟨_, _, rest⟩ := bind_eq_ok.mp valid
      obtain ⟨evaluates, known⟩ := ih rest
      refine ⟨fun lookup => ?_, known⟩
      obtain ⟨b, run⟩ := evaluates lookup
      exact ⟨!b, by rw [evalFilter, run]; rfl⟩
  | like c _ | json c _ => cases valid
  | eq c _ | ne c _ | gt c _ | lt c _ | ge c _ | inList c _ | le c _ | notNull c | isNull c =>
      exact ⟨fun lookup => ⟨_, rfl⟩, leaf valid⟩

theorem filterHaving_eq {filter : Filter J F} (evaluates : ∀ lookup : String → Option (Value J), ∃ b, evalFilter lookup filter = .ok b)
    (groups : List (AggregatedRow J)) :
    filterHaving filter groupBy groups = .ok (groups.filter fun row => passes (buildLookup row groupBy) filter) := by
  induction groups with
  | nil => rfl
  | cons row rest ih =>
      obtain ⟨b, run⟩ := evaluates (buildLookup row groupBy)
      have flag : passes (buildLookup row groupBy) filter = b := by
        rw [passes, run]
        rfl
      rw [filterHaving, run, ih, List.filter_cons, flag]
      rfl

end Clauses
end Aggregate

end WasmDbms
