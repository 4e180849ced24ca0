import WasmDbms.Db.IndexSelect

/-!
# The rows of a one-shot update or delete

They come from the candidates of an access path, or from a scan. A filter that can fail is
split into a plan over one index and a filter that remains; a row lies in the plan and
passes what remains exactly when it matches the filter.
-/
namespace WasmDbms
open Sorted Result

variable {J F : Type} [LinearOrder J]

namespace Database
variable (db : Database J F)

/-- The loop over the addresses of a path. -/
def collectAddresses (data : TableData J) (verify : Option (Filter J F)) :
    List RecordAddress → Except (Failure J) (List (RecordAddress × Row J))
  | [] => .ok []
  | address :: rest => do
      let record ← Failure.lift (data.readAt address)
      let keep ← db.recordMatchesFilter record verify
      let records ← collectAddresses data verify rest
      return if keep then (address, record) :: records else records

/-- `collect_matching_records`, over the indexes of the table. -/
def collectIndexed (table : TableDef J) (data : TableData J) (filter : Option (Filter J F)) :
    Except (Failure J) (List (RecordAddress × Row J)) :=
  match filter.bind fun filter => planAccess filter table.indexes table.columns with
  | none => db.matching filter data.rows
  | some planned => do
      match ← Failure.lift (candidateAddresses table data.indexes planned.path none) with
      | none => db.matching filter data.rows
      | some addresses => db.collectAddresses data planned.verify addresses

end Database

/-! ## A filter and its plan -/

namespace IndexPlan

def admits : IndexPlan J → Value J → Bool
  | eq _ value, v => v = value
  | range _ start stop, v => start.all (fun low => low ≤ v) && stop.all fun high => v ≤ high
  | inList _ values, v => v ∈ values

/-- Whether a row lies in the plan. -/
def holds (plan : IndexPlan J) (row : Row J) : Bool := (findColumn plan.column row).any plan.admits

end IndexPlan

/-- What remains of a filter, on a row. -/
def remainingMatches (P : Predicates J F) (row : Row J) : Option (Filter J F) → Except (QueryError J) Bool
  | some filter => filter.matches P row
  | none => .ok true

/-- The second test is made when the first one passes. -/
def bothPass {E : Type} (first second : Except E Bool) : Except E Bool := do
  if ← first then second else return false

section BothPass
variable {E : Type} {first second : Except E Bool}

theorem bothPass_true : bothPass first second = .ok true ↔ first = .ok true ∧ second = .ok true := by
  constructor
  · intro passes
    obtain ⟨b, run, rest⟩ := bind_eq_ok.mp passes
    cases b with
    | true => exact ⟨run, rest⟩
    | false => cases rest
  · rintro ⟨rfl, rfl⟩
    rfl

/-- Both tests may be replaced, the second one where the first one passes. -/
theorem bothPass_ok {first' second' : Except E Bool} (left : ∀ b, first = .ok b → first' = .ok b)
    (right : first = .ok true → ∀ b, second = .ok b → second' = .ok b) {b : Bool}
    (run : bothPass first second = .ok b) : bothPass first' second' = .ok b := by
  obtain ⟨c, decided, rest⟩ := bind_eq_ok.mp run
  rw [bothPass, left c decided]
  cases c with
  | true => exact right decided b rest
  | false => exact rest

end BothPass

section Split
variable {P : Predicates J F} {row : Row J}

theorem remainingMatches_combine (left right : Option (Filter J F)) :
    remainingMatches P row (combineFilters left right) =
      bothPass (remainingMatches P row left) (remainingMatches P row right) := by
  cases left with
  | none => cases right <;> rfl
  | some first =>
      cases right with
      | some second => rfl
      | none =>
          change first.matches P row = bothPass (first.matches P row) (.ok true)
          cases first.matches P row with
          | error e => rfl
          | ok b => cases b <;> rfl

/-- A plan and what remains of a filter, on a row: a row the filter selects lies in the
plan, and on the rows of the plan what remains stands for the filter. -/
structure AnalyzedFilter.Splits (P : Predicates J F) (row : Row J) (filter : Filter J F)
    (analyzed : AnalyzedFilter J F) : Prop where
  inPlan : filter.matches P row = .ok true → analyzed.plan.holds row = true
  decides : analyzed.plan.holds row = true → ∀ b, filter.matches P row = .ok b →
    remainingMatches P row analyzed.remainingFilter = .ok b
  selects : analyzed.plan.holds row = true → remainingMatches P row analyzed.remainingFilter = .ok true →
    filter.matches P row = .ok true

namespace AnalyzedFilter.Splits
variable {filter left right : Filter J F} {first second : AnalyzedFilter J F}

/-- A condition that the plan stands for. -/
theorem of_plan {plan : IndexPlan J} (same : filter.matches P row = .ok (plan.holds row)) :
    Splits P row filter ⟨plan, none⟩ where
  inPlan selected := Except.ok.inj (same.symm.trans selected)
  decides inside _ run := congrArg Except.ok (inside.symm.trans (Except.ok.inj (same.symm.trans run)))
  selects inside _ := same.trans (congrArg Except.ok inside)

/-- A condition that the plan is wider than. -/
theorem of_wider {plan : IndexPlan J} (wider : filter.matches P row = .ok true → plan.holds row = true) :
    Splits P row filter ⟨plan, some filter⟩ := ⟨wider, fun _ _ run => run, fun _ run => run⟩

/-- Only the first conjunct has a plan, or the plan of the second one is not used. -/
theorem and_left (splits : first.Splits P row left) :
    Splits P row (.and left right) ⟨first.plan, combineFilters first.remainingFilter (some right)⟩ where
  inPlan selected := splits.inPlan (bothPass_true.mp selected).1
  decides inside _ run := by
    rw [remainingMatches_combine]
    exact bothPass_ok (splits.decides inside) (fun _ _ run => run) run
  selects inside passes := by
    rw [remainingMatches_combine] at passes
    obtain ⟨here, there⟩ := bothPass_true.mp passes
    exact bothPass_true.mpr ⟨splits.selects inside here, there⟩

theorem and_right (splits : second.Splits P row right) :
    Splits P row (.and left right) ⟨second.plan, combineFilters (some left) second.remainingFilter⟩ where
  inPlan selected := splits.inPlan (bothPass_true.mp selected).2
  decides inside _ run := by
    rw [remainingMatches_combine]
    exact bothPass_ok (fun _ run => run) (fun _ => splits.decides inside) run
  selects inside passes := by
    rw [remainingMatches_combine] at passes
    obtain ⟨here, there⟩ := bothPass_true.mp passes
    exact bothPass_true.mpr ⟨here, splits.selects inside there⟩

/-- A filter that a split already implies may be evaluated after it once more. -/
theorem again (splits : first.Splits P row filter) {more : Option (Filter J F)}
    (implied : filter.matches P row = .ok true → remainingMatches P row more = .ok true) :
    Splits P row filter ⟨first.plan, combineFilters first.remainingFilter more⟩ where
  inPlan := splits.inPlan
  decides inside b run := by
    rw [remainingMatches_combine, bothPass, splits.decides inside b run]
    cases b with
    | true => exact implied run
    | false => rfl
  selects inside passes := by
    rw [remainingMatches_combine] at passes
    exact splits.selects inside (bothPass_true.mp passes).1

/-- Two plans over one column, and their intersection. -/
theorem and_both (onLeft : first.Splits P row left) (onRight : second.Splits P row right) {plan : IndexPlan J}
    (meet : plan.holds row = (first.plan.holds row && second.plan.holds row)) :
    Splits P row (.and left right) ⟨plan, combineFilters first.remainingFilter second.remainingFilter⟩ where
  inPlan selected := by
    obtain ⟨here, there⟩ := bothPass_true.mp selected
    exact meet.trans (by rw [onLeft.inPlan here, onRight.inPlan there]; rfl)
  decides inside _ run := by
    obtain ⟨here, there⟩ := Bool.and_eq_true_iff.mp (meet.symm.trans inside)
    rw [remainingMatches_combine]
    exact bothPass_ok (onLeft.decides here) (fun _ => onRight.decides there) run
  selects inside passes := by
    obtain ⟨here, there⟩ := Bool.and_eq_true_iff.mp (meet.symm.trans inside)
    rw [remainingMatches_combine] at passes
    obtain ⟨one, other⟩ := bothPass_true.mp passes
    exact bothPass_true.mpr ⟨onLeft.selects here one, onRight.selects there other⟩

end AnalyzedFilter.Splits

theorem all_stricter_max {left right : Option (Value J)} {v : Value J} :
    (stricterBound left right max).all (fun low => low ≤ v) =
      (left.all (fun low => low ≤ v) && right.all fun low => low ≤ v) := by
  cases left <;> cases right <;> simp [stricterBound]

theorem all_stricter_min {left right : Option (Value J)} {v : Value J} :
    (stricterBound left right min).all (fun high => v ≤ high) =
      (left.all (fun high => v ≤ high) && right.all fun high => v ≤ high) := by
  cases left <;> cases right <;> simp [stricterBound]

/-- The rows of the stricter range are those of both ranges. -/
theorem IndexPlan.holds_stricter {column : String} {start start' stop stop' : Option (Value J)} :
    (range column (stricterBound start start' max) (stricterBound stop stop' min)).holds row =
      ((range column start stop).holds row && (range column start' stop').holds row) := by
  unfold holds
  dsimp only [IndexPlan.column]
  cases findColumn column row with
  | none => rfl
  | some v =>
      dsimp only [Option.any_some, admits]
      rw [all_stricter_max, all_stricter_min]
      simp only [Bool.and_assoc, Bool.and_left_comm]

theorem analyzeAnd_splits {left right : Filter J F} {first second : Option (AnalyzedFilter J F)}
    (onLeft : ∀ analyzed, first = some analyzed → analyzed.Splits P row left)
    (onRight : ∀ analyzed, second = some analyzed → analyzed.Splits P row right) {analyzed : AnalyzedFilter J F}
    (run : analyzeAnd left right first second = some analyzed) : analyzed.Splits P row (.and left right) := by
  -- the plan of the second conjunct is dropped, what remains of it is not
  have dropped : ∀ {a b : AnalyzedFilter J F}, a.Splits P row left → b.Splits P row right →
      AnalyzedFilter.Splits P row (.and left right)
        ⟨a.plan, combineFilters (combineFilters a.remainingFilter (some right)) b.remainingFilter⟩ := by
    intro a b here there
    refine (AnalyzedFilter.Splits.and_left here).again fun selected => ?_
    have second_ := (bothPass_true.mp selected).2
    exact there.decides (there.inPlan second_) true second_
  unfold analyzeAnd at run
  split at run
  next leftColumn leftStart leftEnd leftRemaining rightColumn rightStart rightEnd rightRemaining =>
    split at run
    next same =>
      cases run
      subst same
      exact AnalyzedFilter.Splits.and_both (onLeft _ rfl) (onRight _ rfl) IndexPlan.holds_stricter
    next =>
      cases run
      exact dropped (onLeft _ rfl) (onRight _ rfl)
  next =>
    cases run
    exact dropped (onLeft _ rfl) (onRight _ rfl)
  next =>
    cases run
    exact (onLeft _ rfl).and_left
  next =>
    cases run
    exact (onRight _ rfl).and_right
  next => cases run

/-- No conjunct is lost: the plan and what remains select what the filter selects. -/
theorem analyzeInner_splits (names : (row.map fun entry => entry.1.name).Nodup) {indexed : List String}
    {filter : Filter J F} {analyzed : AnalyzedFilter J F} (run : analyzeInner indexed filter = some analyzed) :
    analyzed.Splits P row filter := by
  -- the comparison of a column with what the plan of the column admits
  have column : ∀ {field : String} {test test' : Value J → Bool}, (∀ v, test v = test' v) →
      anyColumn field test row = (findColumn field row).any test' := by
    intro field test test' same
    rw [anyColumn_find names, funext same]
  have narrower : ∀ {field : String} {test test' : Value J → Bool}, (∀ v, test v = true → test' v = true) →
      (.ok (anyColumn field test row) : Except (QueryError J) Bool) = .ok true →
      (findColumn field row).any test' = true := by
    intro field test test' stronger selected
    obtain ⟨v, found, passes⟩ := (Option.any_eq_true _ _).mp ((anyColumn_find names).symm.trans (Except.ok.inj selected))
    exact (Option.any_eq_true _ _).mpr ⟨v, found, stronger v passes⟩
  induction filter generalizing analyzed with
  | eq field value =>
      rw [analyzeInner] at run
      split at run
      · cases run
        exact .of_plan (congrArg Except.ok (column fun _ => rfl))
      · cases run
  | ge field value =>
      rw [analyzeInner] at run
      split at run
      · cases run
        refine .of_plan (congrArg Except.ok (column fun v => ?_))
        exact (Bool.and_true _).symm
      · cases run
  | le field value =>
      rw [analyzeInner] at run
      split at run
      · cases run
        exact .of_plan (congrArg Except.ok (column fun v => rfl))
      · cases run
  | gt field value =>
      rw [analyzeInner] at run
      split at run
      · cases run
        refine .of_wider (narrower fun v above => ?_)
        exact Bool.and_eq_true_iff.mpr ⟨decide_eq_true (of_decide_eq_true above : value < v).le, rfl⟩
      · cases run
  | lt field value =>
      rw [analyzeInner] at run
      split at run
      · cases run
        refine .of_wider (narrower fun v below => ?_)
        exact Bool.and_eq_true_iff.mpr ⟨rfl, decide_eq_true (of_decide_eq_true below : v < value).le⟩
      · cases run
  | inList field values =>
      rw [analyzeInner] at run
      split at run
      · cases run
        exact .of_plan (congrArg Except.ok (column fun _ => rfl))
      · cases run
  | and left right ihl ihr =>
      exact analyzeAnd_splits (fun _ found => ihl found) (fun _ found => ihr found) run
  | _ => cases run

end Split

/-! ## The scans of a plan -/

/-- A path that is one scan or a union of scans. -/
inductive AccessPath.OfScans {J : Type} : List (IndexScan J) → AccessPath J → Prop
  | one (scan : IndexScan J) : OfScans [scan] (.scan scan)
  | union (scans : List (IndexScan J)) : OfScans scans (.union (scans.map .scan))

section Scans
variable {scans : List (IndexScan J)} {path : AccessPath J}

omit [LinearOrder J] in
theorem AccessPath.OfScans.declared (form : OfScans scans path) {indexes : List IndexDef}
    (declared : ∀ scan ∈ scans, scan.columns ∈ indexes.map IndexDef.columns) : path.Declared indexes := by
  cases form with
  | one scan => exact .scan (declared scan List.mem_cons_self)
  | union =>
      refine .union fun path member => ?_
      obtain ⟨scan, listed, rfl⟩ := List.mem_map.mp member
      exact .scan (declared scan listed)

theorem AccessPath.OfScans.covers (form : OfScans scans path) {row : Row J} {scan : IndexScan J} (member : scan ∈ scans)
    (holds : scan.holdsKey (indexKey scan.columns row) = true) : path.Covers row := by
  cases form with
  | one =>
      obtain rfl := List.mem_singleton.mp member
      exact .scan holds
  | union => exact .union (List.mem_map_of_mem member) (.scan holds)

omit [LinearOrder J] in
theorem AccessPath.OfScans.plain (form : OfScans scans path) : path.hasIntersection = false := by
  cases form with
  | one => rfl
  | union =>
      show anyHasIntersection (scans.map .scan) = false
      induction scans with
      | nil => rfl
      | cons scan rest ih => exact ih

omit [LinearOrder J] in
theorem AccessPath.OfScans.selects (form : OfScans scans path) {holds : IndexScan J → RecordAddress → Prop}
    {a : RecordAddress} (selects : path.Selects holds a) : ∃ scan ∈ scans, holds scan a := by
  cases form with
  | one scan =>
      cases selects with
      | scan inside => exact ⟨scan, List.mem_cons_self, inside⟩
  | union =>
      cases selects with
      | union member selects =>
          obtain ⟨scan, listed, rfl⟩ := List.mem_map.mp member
          cases selects with
          | scan inside => exact ⟨scan, listed, inside⟩

variable {ledger : IndexLedger J} {rows : List (RecordAddress × Row J)}
  (indexed : ∀ index ∈ ledger, IndexOf index.1 rows index.2)
include indexed

/-- The addresses read for the scans are those of their rows only. -/
theorem AccessPath.OfScans.materialize_within (form : OfScans scans path) {addresses : List RecordAddress}
    {budget budget' : Budget} (run : materialize ledger path budget = .ok (some addresses, budget')) :
    ∀ a ∈ addresses, ∃ x ∈ rows, x.1 = a ∧ ∃ scan ∈ scans, scan.holdsKey (indexKey scan.columns x.2) = true := by
  intro a member
  have answers : Answers (RowIn rows) path addresses :=
    materialize_answers (fun read => IndexReader.mem_addresses indexed read) path run
  obtain ⟨scan, listed, x, stored, same, holds⟩ := form.selects (answers.exact form.plain a member)
  exact ⟨x, stored, same, scan, listed, holds⟩

end Scans

theorem IndexScan.ofPrefix_holds {column : String} {value v : Value J} :
    (IndexScan.ofPrefix [column] [value]).holdsKey [v] = decide (v = value) := by
  have same : (([v] : List (Value J)) = [value]) = (v = value) := by
    rw [List.cons.injEq, eq_self, and_true]
  exact (if_pos rfl).trans (decide_eq_decide.mpr (iff_of_eq same))

theorem IndexScan.range_holds {column : String} {lower upper : Bound (Value J)} {v : Value J} :
    (IndexScan.range [column] [] lower upper).holdsKey [v] = (lower.admitsLower v && upper.admitsUpper v) := rfl

/-- The scans of a plan hold the keys the plan admits. -/
theorem legacyPath_scans {plan : IndexPlan J} {indexes : List IndexDef} {path : AccessPath J}
    (planned : legacyPath plan indexes = some path) :
    [plan.column] ∈ indexes.map IndexDef.columns ∧ ∃ scans : List (IndexScan J), AccessPath.OfScans scans path ∧
      (∀ scan ∈ scans, scan.columns = [plan.column]) ∧
      ∀ v, plan.admits v = true ↔ ∃ scan ∈ scans, scan.holdsKey [v] = true := by
  unfold legacyPath at planned
  obtain ⟨columns, found, planned⟩ := Option.bind_eq_some_iff.mp planned
  have named : columns = [plan.column] := by simpa using List.find?_some found
  refine ⟨named ▸ List.mem_of_find?_eq_some found, ?_⟩
  subst named
  have one : ∀ {scan : IndexScan J}, scan.columns = [plan.column] → (∀ v, plan.admits v = scan.holdsKey [v]) →
      ∃ scans : List (IndexScan J), AccessPath.OfScans scans (.scan scan) ∧
        (∀ scan ∈ scans, scan.columns = [plan.column]) ∧
        ∀ v, plan.admits v = true ↔ ∃ scan ∈ scans, scan.holdsKey [v] = true := by
    intro scan over_ same
    refine ⟨[scan], .one scan, fun other member => List.mem_singleton.mp member ▸ over_, fun v => ?_⟩
    rw [same v]
    exact ⟨fun holds => ⟨scan, List.mem_cons_self, holds⟩, fun ⟨_, member, holds⟩ => List.mem_singleton.mp member ▸ holds⟩
  cases plan with
  | eq column value =>
      cases planned
      exact one rfl fun v => IndexScan.ofPrefix_holds.symm
  | range column start stop =>
      cases planned
      refine one rfl fun v => ?_
      cases start <;> cases stop <;> rfl
  | inList column values =>
      cases planned
      refine ⟨(sortDedup values).map fun value => .ofPrefix [column] [value], ?_, ?_, fun v => ?_⟩
      · have form := AccessPath.OfScans.union ((sortDedup values).map fun value => IndexScan.ofPrefix [column] [value])
        rwa [List.map_map] at form
      · intro scan member
        obtain ⟨value, _, rfl⟩ := List.mem_map.mp member
        rfl
      · refine decide_eq_true_iff.trans (mem_sortDedup.symm.trans ?_)
        constructor
        · intro listed
          exact ⟨_, List.mem_map_of_mem listed, by rw [IndexScan.ofPrefix_holds]; exact decide_eq_true rfl⟩
        · rintro ⟨scan, member, holds⟩
          obtain ⟨value, listed, rfl⟩ := List.mem_map.mp member
          rw [IndexScan.ofPrefix_holds] at holds
          exact of_decide_eq_true holds ▸ listed

/-- A row lies in the plan when one of its scans holds the row. -/
theorem IndexPlan.holds_iff {plan : IndexPlan J} {scans : List (IndexScan J)} {row : Row J}
    (present : (findColumn plan.column row).isSome = true) (named : ∀ scan ∈ scans, scan.columns = [plan.column])
    (keys : ∀ v, plan.admits v = true ↔ ∃ scan ∈ scans, scan.holdsKey [v] = true) :
    plan.holds row = true ↔ ∃ scan ∈ scans, scan.holdsKey (indexKey scan.columns row) = true := by
  obtain ⟨v, found⟩ := Option.isSome_iff_exists.mp present
  have key : ∀ scan ∈ scans, indexKey scan.columns row = [v] := by
    intro scan member
    rw [named scan member, indexKey, List.map_singleton, found]
    rfl
  rw [holds, found, Option.any_some, keys v]
  constructor
  · rintro ⟨scan, member, inside⟩
    exact ⟨scan, member, (key scan member).symm ▸ inside⟩
  · rintro ⟨scan, member, inside⟩
    exact ⟨scan, member, key scan member ▸ inside⟩

/-! ## The rows that are collected -/

section Collect
variable {db : Database J F} {table : TableDef J} {data : TableData J}

theorem recordMatchesFilter_remaining {row : Row J} {filter : Option (Filter J F)} {b : Bool} :
    db.recordMatchesFilter row filter = .ok b ↔ remainingMatches db.predicates row filter = .ok b := by
  cases filter with
  | none => exact ⟨fun run => by cases run; rfl, fun run => by cases run; rfl⟩
  | some filter =>
      unfold Database.recordMatchesFilter remainingMatches
      dsimp only
      cases filter.matches db.predicates row with
      | error e => exact ⟨fun run => (by cases run), fun run => (by cases run)⟩
      | ok c => exact ⟨fun run => by cases run; rfl, fun run => by cases run; rfl⟩

variable (stored : Stored table data)
include stored

open Classical in
/-- The loop over addresses of stored rows returns the rows that pass. -/
theorem collectAddresses_perm {verify filter : Option (Filter J F)} {addresses : List RecordAddress}
    (sorted : addresses.Pairwise (· < ·)) (inRows : ∀ a ∈ addresses, a ∈ data.rows.map Prod.fst)
    (verifies : ∀ x ∈ data.rows, x.1 ∈ addresses →
      db.recordMatchesFilter x.2 verify = .ok (decide (db.Selects filter x.2)))
    (covered : ∀ x ∈ data.rows, db.Selects filter x.2 → x.1 ∈ addresses) :
    ∃ found, db.collectAddresses data verify addresses = .ok found ∧
      found.Perm (data.rows.filter fun x => decide (db.Selects filter x.2)) := by
  have visit : ∀ {visited : List (RecordAddress × Row J)}, (∀ x ∈ visited, x ∈ data.rows ∧ x.1 ∈ addresses) →
      db.collectAddresses data verify (visited.map Prod.fst) =
        .ok (visited.filter fun x => decide (db.Selects filter x.2)) := by
    intro visited listed
    induction visited with
    | nil => rfl
    | cons x rest ih =>
        obtain ⟨⟨there, inside⟩, later⟩ := List.forall_mem_cons.mp listed
        rw [List.map_cons, Database.collectAddresses, TableData.readAt_eq stored.addresses there]
        dsimp only [Failure.lift, bind, Except.bind]
        rw [verifies x there inside, ih later, List.filter_cons]
        rfl
  -- the rows at the addresses, as they are visited
  have rows : ∃ visited : List (RecordAddress × Row J), visited.map Prod.fst = addresses ∧ visited ⊆ data.rows := by
    clear sorted verifies covered visit
    induction addresses with
    | nil => exact ⟨[], rfl, List.nil_subset _⟩
    | cons a rest ih =>
        obtain ⟨here, later⟩ := List.forall_mem_cons.mp inRows
        obtain ⟨x, listed, rfl⟩ := List.mem_map.mp here
        obtain ⟨visited, rfl, sub⟩ := ih later
        exact ⟨x :: visited, rfl, List.cons_subset.mpr ⟨listed, sub⟩⟩
  obtain ⟨visited, rfl, sub⟩ := rows
  refine ⟨_, visit fun x member => ⟨sub member, List.mem_map_of_mem member⟩, ?_⟩
  have distinct : visited.Nodup := (nodup_of_sorted sorted).of_map _
  refine (List.perm_ext_iff_of_nodup (distinct.filter _) ((stored.addresses.of_map _).filter _)).mpr fun x => ?_
  rw [List.mem_filter, List.mem_filter]
  refine and_congr_left fun selected => ⟨fun member => sub member, fun listed => ?_⟩
  obtain ⟨y, member, same⟩ := List.mem_map.mp (covered x listed (of_decide_eq_true selected))
  exact List.inj_on_of_nodup_map stored.addresses (sub member) listed same ▸ member

/-- Whenever the scan succeeds, the candidates of the path give its rows. -/
theorem collectAddresses_planned (fields : ∀ index ∈ table.indexes, ∀ c ∈ index.columns, c ∈ table.columns.map ColumnDef.name)
    {filter : Filter J F} (evaluates : db.Evaluates (some filter) data.rows) {planned : PlannedAccess J F}
    (plans : planAccess filter table.indexes table.columns = some planned) :
    planned.path.Declared table.indexes ∧
      ∀ addresses, candidateAddresses table data.indexes planned.path none = .ok (some addresses) →
        ∃ found, db.collectAddresses data planned.verify addresses = .ok found ∧
          ∃ scanned, db.matching (some filter) data.rows = .ok scanned ∧ found.Perm scanned := by
  classical
  -- what the filter says of a row
  have reads : ∀ x ∈ data.rows, filter.matches db.predicates x.2 = .ok (decide (db.Selects (some filter) x.2)) := by
    intro x listed
    obtain ⟨b, run⟩ := evaluates x listed
    have whole : filter.matches db.predicates x.2 = .ok b := recordMatchesFilter_remaining.mp run
    have flag : decide (db.Selects (some filter) x.2) = b := by
      rw [Bool.eq_iff_iff, decide_eq_true_iff, Database.Selects, run]
      exact ⟨Except.ok.inj, congrArg Except.ok⟩
    rw [flag]
    exact whole
  have selected : ∀ x ∈ data.rows, db.Selects (some filter) x.2 → filter.matches db.predicates x.2 = .ok true :=
    fun x _ selects => recordMatchesFilter_remaining.mp selects
  suffices path : planned.path.Declared table.indexes ∧
      ∀ addresses, candidateAddresses table data.indexes planned.path none = .ok (some addresses) →
        addresses.Pairwise (· < ·) ∧ (∀ a ∈ addresses, a ∈ data.rows.map Prod.fst) ∧
        (∀ x ∈ data.rows, x.1 ∈ addresses →
          db.recordMatchesFilter x.2 planned.verify = .ok (decide (db.Selects (some filter) x.2))) ∧
        ∀ x ∈ data.rows, db.Selects (some filter) x.2 → x.1 ∈ addresses by
    refine path.imp_right fun each addresses read => ?_
    obtain ⟨sorted, inRows, verifies, covered⟩ := each addresses read
    obtain ⟨found, run, perm⟩ := collectAddresses_perm stored sorted inRows verifies covered
    exact ⟨found, run, _, Database.matching_eq evaluates, perm⟩
  unfold planAccess at plans
  split at plans
  case isFalse safe =>
      obtain ⟨path, planned_, rfl⟩ := Option.map_eq_some_iff.mp plans
      refine ⟨planFilter_declared planned_, fun addresses read => ?_⟩
      obtain ⟨⟨answer, budget⟩, materialized, read⟩ := bind_eq_ok.mp read
      cases answer with
      | none => cases read
      | some found =>
          cases read
          have part := materialize_spec stored.indexed.2 materialized
          refine ⟨part.sorted, part.stored, fun x listed _ => recordMatchesFilter_eq (reads x listed), ?_⟩
          intro x listed selects
          have complete := (stored.rows x listed).complete
          refine part.covered x listed ?_
          exact planFilter_covers complete.typedIn complete.names (selected x listed selects) planned_
  case isTrue fails =>
      obtain ⟨analyzed, analysis, plans⟩ := Option.bind_eq_some_iff.mp plans
      obtain ⟨path, legacy, plans⟩ := Option.bind_eq_some_iff.mp plans
      cases plans
      obtain ⟨declared, scans, form, named, keys⟩ := legacyPath_scans legacy
      refine ⟨form.declared fun scan member => (named scan member).symm ▸ declared, fun addresses read => ?_⟩
      obtain ⟨⟨answer, budget⟩, materialized, read⟩ := bind_eq_ok.mp read
      cases answer with
      | none => cases read
      | some found =>
          cases read
          have part := materialize_spec stored.indexed.2 materialized
          have inPlan : ∀ x ∈ data.rows, analyzed.plan.holds x.2 = true ↔
              ∃ scan ∈ scans, scan.holdsKey (indexKey scan.columns x.2) = true := by
            intro x listed
            refine IndexPlan.holds_iff ?_ named keys
            obtain ⟨index, own, same⟩ := List.mem_map.mp declared
            have column : analyzed.plan.column ∈ index.columns := same ▸ List.mem_cons_self
            obtain ⟨c, field, name⟩ := List.mem_map.mp (fields index own _ column)
            obtain ⟨v, present⟩ := (stored.rows x listed).find field
            rw [← name, present]
            rfl
          have splits : ∀ x ∈ data.rows, analyzed.Splits db.predicates x.2 filter := fun x listed =>
            analyzeInner_splits (stored.rows x listed).complete.names analysis
          refine ⟨part.sorted, part.stored, fun x listed inside => ?_, fun x listed selects => ?_⟩
          · obtain ⟨y, there, same, held⟩ := form.materialize_within stored.indexed.2 materialized x.1 inside
            obtain rfl := List.inj_on_of_nodup_map stored.addresses there listed same
            refine recordMatchesFilter_remaining.mpr ((splits y listed).decides ((inPlan y listed).mpr held) _ ?_)
            exact reads y listed
          · obtain ⟨scan, member, holds⟩ := (inPlan x listed).mp ((splits x listed).inPlan (selected x listed selects))
            exact part.covered x listed (form.covers member holds)

/-- The row source of a one-shot update or delete is the scan with the filter: it returns the
same records whenever the scan succeeds, which it does for a filter that cannot fail. A
filter that can fail selects the rows of its plan that pass what remains of it. -/
theorem collect_matching_records
    (fields : ∀ index ∈ table.indexes, ∀ c ∈ index.columns, c ∈ table.columns.map ColumnDef.name)
    (filter : Option (Filter J F)) :
    (∀ scanned, db.matching filter data.rows = .ok scanned →
      ∃ found, db.collectIndexed table data filter = .ok found ∧ found.Perm scanned) ∧
    (filter.all (fun filter => !filter.isFallible) → ∃ scanned, db.matching filter data.rows = .ok scanned) ∧
    ∀ whole, filter = some whole → ∀ analyzed, analyzeFilter whole table.indexes = some analyzed →
      ∀ row : Row J, (row.map fun entry => entry.1.name).Nodup →
        (whole.matches db.predicates row = .ok true ↔
          analyzed.plan.holds row = true ∧ db.recordMatchesFilter row analyzed.remainingFilter = .ok true) := by
  refine ⟨fun scanned scan => ?_, fun safe => ?_, ?_⟩
  · unfold Database.collectIndexed
    cases plans : filter.bind fun filter => planAccess filter table.indexes table.columns with
    | none => exact ⟨scanned, scan, .refl _⟩
    | some planned =>
        obtain ⟨whole, rfl, plans⟩ := Option.bind_eq_some_iff.mp plans
        obtain ⟨declared, collected⟩ :=
          collectAddresses_planned stored fields (Database.evaluates_of_matching scan) plans
        obtain ⟨⟨answer, budget⟩, materialized⟩ :=
          materialize_ok (fun index listed => (stored.indexed.2 index listed).ordered) stored.indexed.1 planned.path {} declared
        have read : candidateAddresses table data.indexes planned.path none = .ok answer := by
          rw [candidateAddresses, materialized]
          cases answer <;> rfl
        dsimp only
        rw [read]
        cases answer with
        | none => exact ⟨scanned, scan, .refl _⟩
        | some addresses =>
            obtain ⟨found, run, scanned', scan', perm⟩ := collected addresses read
            cases scan.symm.trans scan'
            exact ⟨found, run, perm⟩
  · classical
    refine ⟨_, Database.matching_eq fun x _ => ?_⟩
    cases filter with
    | none => exact ⟨true, rfl⟩
    | some whole =>
        have plain : whole.isFallible = false := by simpa using safe
        have evaluates : ∃ b, whole.matches db.predicates x.2 = .ok b := Filter.matches_ok plain
        exact evaluates.imp fun _ run => recordMatchesFilter_eq run
  · rintro whole rfl analyzed analysis row names
    have splits : analyzed.Splits db.predicates row whole := analyzeInner_splits names analysis
    rw [recordMatchesFilter_remaining]
    constructor
    · intro selects
      exact ⟨splits.inPlan selects, splits.decides (splits.inPlan selects) true selects⟩
    · rintro ⟨inside, passes⟩
      exact splits.selects inside passes

end Collect

namespace Items

/-- LIKE patterns without wildcards. -/
def plainLike : Database ℕ Empty := .scanning schema ⟨fun pattern => .ok fun text => text = pattern, fun f => f.elim, fun f => f.elim⟩

/-- The second item is found through the index on the key, and the pattern remains. -/
theorem second_collected :
    ∃ found, plainLike.collectIndexed table pair (some (.and (.gt "id" (.uint32 1)) (.like "label" "b"))) = .ok found ∧
      found.Perm [(⟨1, 0⟩, item 2 "b")] :=
  (collect_matching_records pair_stored (by decide) _).1 _ rfl

end Items
end WasmDbms
