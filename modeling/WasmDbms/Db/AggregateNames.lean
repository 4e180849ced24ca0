import WasmDbms.Db.AggregateRun

/-!
# Names in HAVING and ORDER BY

Validation reads the number behind `agg`, the lookup is keyed by the text of the number.
A name that is accepted is found if and only if it is that text or a GROUP BY column.
-/
namespace WasmDbms
open Result

variable {J F : Type}

namespace Aggregate

/-- The value of a GROUP BY column of this name, or of the aggregate with the number in the name. -/
def RefersTo (groupBy : List String) (row : AggregatedRow J) (name : String) (v : Value J) : Prop :=
  (∃ i : ℕ, groupBy[i]? = some name ∧ row.groupKeys[i]? = some v) ∨
    ∃ index, parseAggIndex name = some index ∧ (row.values[index]?).map toValue = some v

/-- The names in a lookup. -/
def outputNames (groupBy : List String) (count : ℕ) : List String := groupBy ++ (List.range count).map aggName

theorem mem_outputNames {groupBy : List String} {count : ℕ} {name : String} :
    name ∈ outputNames groupBy count ↔ Spelled groupBy count name := by
  rw [outputNames, List.mem_append, List.mem_map]
  constructor
  · rintro (column | ⟨index, bound, rfl⟩)
    · exact .inl column
    · exact .inr ⟨index, List.mem_range.mp bound, rfl⟩
  · rintro (column | ⟨index, bound, rfl⟩)
    · exact .inl column
    · exact .inr ⟨index, List.mem_range.mpr bound, rfl⟩

section Lookup
variable {row : AggregatedRow J} {groupBy : List String} {g : String → Value J} (keyed : row.groupKeys = groupBy.map g)
include keyed

theorem buildLookup_none {name : String} (absent : ¬ Spelled groupBy row.values.length name) :
    buildLookup row groupBy name = none := by
  rw [buildLookup_eq keyed, if_neg fun own => absent (.inr own), if_neg fun column => absent (.inl column)]

theorem buildLookup_refers {name : String} (spelled : Spelled groupBy row.values.length name) :
    ∃ v, buildLookup row groupBy name = some v ∧ RefersTo groupBy row name v := by
  rw [buildLookup_eq keyed]
  by_cases own : IsAggName row.values.length name
  · obtain ⟨index, bound, rfl⟩ := own
    refine ⟨toValue row.values[index], ?_, .inr ⟨index, parseAggIndex_aggName index, ?_⟩⟩
    · rw [if_pos ⟨index, bound, rfl⟩, parseAggIndex_aggName, Option.bind_some, List.getElem?_eq_getElem bound]
      rfl
    · rw [List.getElem?_eq_getElem bound]
      rfl
  · have column : name ∈ groupBy := spelled.resolve_right own
    obtain ⟨i, inside, rfl⟩ := List.getElem_of_mem column
    refine ⟨g groupBy[i], by rw [if_neg own, if_pos column], .inl ⟨i, List.getElem?_eq_getElem inside, ?_⟩⟩
    rw [keyed, List.getElem?_map, List.getElem?_eq_getElem inside]
    rfl

/-- A name is found, with what it refers to, if and only if the lookup writes it so. -/
theorem refers_iff {name : String} :
    (∃ v, buildLookup row groupBy name = some v ∧ RefersTo groupBy row name v) ↔
      Spelled groupBy row.values.length name := by
  constructor
  · rintro ⟨v, found, _⟩
    by_contra absent
    rw [buildLookup_none keyed absent] at found
    cases found
  · exact buildLookup_refers keyed

end Lookup

/-! ## A row with the values of a lookup -/

/-- The row has the values of the lookup under their names. -/
structure Holds (lookup : String → Option (Value J)) (values : Row J) : Prop where
  names : (values.map fun entry => entry.1.name).Nodup
  found : ∀ name, findColumn name values = lookup name

/-- A column for an output. -/
def outputColumn (name : String) : ColumnDef := ⟨name, .uint64, false, true, false, false, none⟩

def outputRow (lookup : String → Option (Value J)) (names : List String) : Row J :=
  names.dedup.filterMap fun name => (lookup name).map fun v => (outputColumn name, v)

theorem outputRow_holds {lookup : String → Option (Value J)} {names : List String}
    (finite : ∀ name, name ∉ names → lookup name = none) : Holds lookup (outputRow lookup names) := by
  have distinct : ((outputRow lookup names).map fun entry => entry.1.name).Nodup := by
    have listed : (outputRow lookup names).map (fun entry => entry.1.name) =
        names.dedup.filter fun name => (lookup name).isSome := by
      rw [outputRow, List.map_filterMap, ← List.filterMap_eq_filter]
      refine List.filterMap_congr fun name _ => ?_
      rw [Option.guard]
      cases lookup name <;> rfl
    rw [listed]
    exact (List.nodup_dedup names).filter _
  refine ⟨distinct, fun name => ?_⟩
  cases value : lookup name with
  | none =>
      refine findColumn_none fun member => ?_
      obtain ⟨entry, listed, rfl⟩ := List.mem_map.mp member
      obtain ⟨other, _, made⟩ := List.mem_filterMap.mp listed
      obtain ⟨v, found, rfl⟩ := Option.map_eq_some_iff.mp made
      exact Option.some_ne_none _ (found.symm.trans value)
  | some v =>
      have inside : name ∈ names := by
        by_contra outside
        exact Option.some_ne_none _ (value.symm.trans (finite name outside))
      have entry : (outputColumn name, v) ∈ outputRow lookup names :=
        List.mem_filterMap.mpr ⟨name, List.mem_dedup.mpr inside, by rw [value]; rfl⟩
      exact findColumn_eq distinct entry

section Having
variable [LinearOrder J] {P : Predicates J F} {groupBy : List String} {aggregates : List AggregateFunction}

/-- The evaluation over a lookup and the one over a row with its values agree. -/
theorem evalFilter_matches {lookup : String → Option (Value J)} {values : Row J} (holds : Holds lookup values)
    {filter : Filter J F} (safe : filter.isFallible = false) :
    evalFilter lookup filter = (filter.matches P values).mapError .query := by
  have leaf : ∀ (c : String) (test : Value J → Bool),
      (.ok ((lookup c).any test) : Except (DbmsError J) Bool) =
        (.ok (anyColumn c test values) : Except (QueryError J) Bool).mapError .query := by
    intro c test
    rw [anyColumn_find holds.names, holds.found]
    rfl
  induction filter with
  | and left right ihl ihr =>
      obtain ⟨safeLeft, safeRight⟩ := Bool.or_eq_false_iff.mp safe
      rw [evalFilter, Filter.matches, ihl safeLeft, ihr safeRight]
      cases left.matches P values with
      | error e => rfl
      | ok b => cases b <;> rfl
  | or left right ihl ihr =>
      obtain ⟨safeLeft, safeRight⟩ := Bool.or_eq_false_iff.mp safe
      rw [evalFilter, Filter.matches, ihl safeLeft, ihr safeRight]
      cases left.matches P values with
      | error e => rfl
      | ok b => cases b <;> rfl
  | not inner ih =>
      rw [evalFilter, Filter.matches, ih safe]
      cases inner.matches P values <;> rfl
  | like c _ => cases safe
  | json c _ => cases safe
  | eq c _ | ne c _ | gt c _ | lt c _ | ge c _ | inList c _ | le c _ | notNull c | isNull c => exact leaf c _

omit [LinearOrder J] in
/-- HAVING has no LIKE and no JSON filter. -/
theorem having_infallible {filter : Filter J F} (valid : validateHavingFilter filter groupBy aggregates = .ok ()) :
    filter.isFallible = false := by
  unfold validateHavingFilter at valid
  induction filter with
  | and left right ihl ihr =>
      obtain ⟨_, _, rest⟩ := bind_eq_ok.mp valid
      obtain ⟨_, first, second⟩ := bind_eq_ok.mp rest
      exact Bool.or_eq_false_iff.mpr ⟨ihl first, ihr second⟩
  | or left right ihl ihr =>
      obtain ⟨_, _, rest⟩ := bind_eq_ok.mp valid
      obtain ⟨_, first, second⟩ := bind_eq_ok.mp rest
      exact Bool.or_eq_false_iff.mpr ⟨ihl first, ihr second⟩
  | not inner ih =>
      obtain ⟨_, _, rest⟩ := bind_eq_ok.mp valid
      exact ih rest
  | like c _ => cases valid
  | json c _ => cases valid
  | _ => rfl

end Having

section Groups
variable [LinearOrder J] {D : Decimals J} {rows : List (Row J)} {groupBy : List String}
  {aggregates : List AggregateFunction} {groups : List (AggregatedRow J)}

/-- A group has the GROUP BY values of a row and a value for each aggregate. -/
theorem group_shape (computed : (groupRows rows groupBy).mapM (computeGroup D aggregates) = .ok groups)
    {group : AggregatedRow J} (member : group ∈ groups) :
    (∃ row : Row J, group.groupKeys = indexKey groupBy row) ∧ group.values.length = aggregates.length := by
  obtain ⟨x, listed, run⟩ := (mem_mapM computed).mp member
  rw [groupRows_eq] at listed
  obtain ⟨key, keyed, rfl⟩ := List.mem_map.mp listed
  obtain ⟨values, all, same⟩ := bind_eq_ok.mp run
  obtain rfl : (⟨key, values⟩ : AggregatedRow J) = group := Except.ok.inj same
  exact ⟨groupKeys_keyed keyed, (mapM_forall₂ all).length_eq.symm⟩

end Groups
end Aggregate

namespace AggregateQuery
open Aggregate

variable [LinearOrder J] {query : AggregateQuery J F} {P : Predicates J F} {D : Decimals J} {table : TableDef J}
  {aggregates : List AggregateFunction} {rows : List (Row J)} {groups : List (AggregatedRow J)}

/-- The names of an accepted aggregate query are found in the groups, each with a GROUP BY value
or the aggregate it refers to, if and only if they are spelled as the lookup does. HAVING
is evaluated as a filter is on a row that has these values. -/
theorem aggregate_names_resolve_iff (accepted : query.validate table aggregates = .ok ())
    (computed : (groupRows rows query.groupBy).mapM (computeGroup D aggregates) = .ok groups) :
    ((∀ group ∈ groups, ∀ name ∈ query.references,
        ∃ v, buildLookup group query.groupBy name = some v ∧ RefersTo query.groupBy group name v) ↔
      groups = [] ∨ ∀ name ∈ query.references, Spelled query.groupBy aggregates.length name) ∧
    ∀ group ∈ groups, (∃ values, Holds (buildLookup group query.groupBy) values) ∧
      ∀ having, query.having = some having → ∀ values, Holds (buildLookup group query.groupBy) values →
        evalFilter (buildLookup group query.groupBy) having = (having.matches P values).mapError .query := by
  constructor
  · constructor
    · intro resolved
      cases groups with
      | nil => exact .inl rfl
      | cons group rest =>
          obtain ⟨⟨row, keyed⟩, length⟩ := group_shape computed List.mem_cons_self
          refine .inr fun name referenced => ?_
          rw [← length]
          exact (refers_iff keyed).mp (resolved group List.mem_cons_self name referenced)
    · rintro (rfl | spelled) group member name referenced
      · cases member
      · obtain ⟨⟨row, keyed⟩, length⟩ := group_shape computed member
        refine (refers_iff keyed).mpr ?_
        rw [length]
        exact spelled name referenced
  · intro group member
    obtain ⟨⟨row, keyed⟩, _⟩ := group_shape computed member
    refine ⟨⟨_, outputRow_holds fun name outside => buildLookup_none keyed (mt mem_outputNames.mpr outside)⟩, ?_⟩
    intro having filtered values holds
    exact evalFilter_matches holds (having_infallible ((validate_ok accepted).2.1 having filtered))

end AggregateQuery

namespace Items
open Aggregate

/-- The count of the two items. -/
def counted : AggregatedRow ℕ := ⟨[], [.count 2]⟩

/-- The name of the count is found. -/
theorem count_resolved : ∃ v, buildLookup counted [] "agg0" = some v ∧ RefersTo [] counted "agg0" v := by
  have accepted : (countTwo "agg0").validate table [.count none] = .ok () := rfl
  have computed : (groupRows [item 1 "a", item 2 "b"] []).mapM (computeGroup decimals [.count none]) = .ok [counted] := rfl
  refine (AggregateQuery.aggregate_names_resolve_iff (P := db.predicates) accepted computed).1.mpr ?_ counted
    List.mem_cons_self "agg0" List.mem_cons_self
  exact .inr fun name referenced => .inr ⟨0, by decide, List.mem_singleton.mp referenced⟩

/-- The count has another name that is accepted and not found. -/
theorem count_unresolved : (countTwo "agg00").validate table [.count none] = .ok () ∧
    (groupRows [item 1 "a", item 2 "b"] []).mapM (computeGroup decimals [.count none]) = .ok [counted] ∧
    "agg00" ∈ (countTwo "agg00").references ∧ buildLookup counted [] "agg00" = none := by
  refine ⟨rfl, rfl, List.mem_cons_self, ?_⟩
  have keyed : counted.groupKeys = [].map fun _ : String => (Value.null : Value ℕ) := rfl
  refine buildLookup_none keyed ?_
  rintro (column | ⟨index, first, same⟩)
  · cases column
  · rw [Nat.lt_one_iff.mp first] at same
    exact absurd same (by decide)

end Items
end WasmDbms
