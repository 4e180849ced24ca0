import WasmDbms.Db.Plan
import WasmDbms.Lib.Result

/-!
# Executing an access path

The choice of the path for a filter, and the addresses it stands for, read under a
budget.
-/
namespace WasmDbms
open Sorted Result

variable {J F : Type}

/-! ## The single-column plan of a filter that can fail -/

inductive IndexPlan (J : Type) where
  | eq (column : String) (value : Value J)
  | range (column : String) (start stop : Option (Value J))
  | inList (column : String) (values : List (Value J))

def IndexPlan.column : IndexPlan J → String
  | eq column _ | range column _ _ | inList column _ => column

structure AnalyzedFilter (J F : Type) where
  plan : IndexPlan J
  remainingFilter : Option (Filter J F)

def combineFilters : Option (Filter J F) → Option (Filter J F) → Option (Filter J F)
  | some left, some right => some (.and left right)
  | some filter, none | none, some filter => some filter
  | none, none => none

def stricterBound (left right : Option (Value J)) (pick : Value J → Value J → Value J) : Option (Value J) :=
  match left, right with
  | some left, some right => some (pick left right)
  | left, right => left <|> right

section Analyze
variable [LinearOrder J]

def analyzeAnd (left right : Filter J F) :
    Option (AnalyzedFilter J F) → Option (AnalyzedFilter J F) → Option (AnalyzedFilter J F)
  | some ⟨.range leftColumn leftStart leftEnd, leftRemaining⟩,
    some ⟨.range rightColumn rightStart rightEnd, rightRemaining⟩ =>
      if leftColumn = rightColumn then
        some ⟨.range leftColumn (stricterBound leftStart rightStart max) (stricterBound leftEnd rightEnd min),
          combineFilters leftRemaining rightRemaining⟩
      else
        some ⟨.range leftColumn leftStart leftEnd,
          combineFilters (combineFilters leftRemaining (some right)) rightRemaining⟩
  | some first, some second =>
      some ⟨first.plan,
        combineFilters (combineFilters first.remainingFilter (some right)) second.remainingFilter⟩
  | some analysis, none => some ⟨analysis.plan, combineFilters analysis.remainingFilter (some right)⟩
  | none, some analysis => some ⟨analysis.plan, combineFilters (some left) analysis.remainingFilter⟩
  | none, none => none

/-- A range plan is inclusive, so `>` and `<` stay in the remaining filter. -/
def analyzeInner (indexed : List String) : Filter J F → Option (AnalyzedFilter J F)
  | .eq column value => if column ∈ indexed then some ⟨.eq column value, none⟩ else none
  | .ge column value => if column ∈ indexed then some ⟨.range column (some value) none, none⟩ else none
  | .le column value => if column ∈ indexed then some ⟨.range column none (some value), none⟩ else none
  | .gt column value =>
      if column ∈ indexed then some ⟨.range column (some value) none, some (.gt column value)⟩ else none
  | .lt column value =>
      if column ∈ indexed then some ⟨.range column none (some value), some (.lt column value)⟩ else none
  | .inList column values => if column ∈ indexed then some ⟨.inList column values, none⟩ else none
  | .and left right => analyzeAnd left right (analyzeInner indexed left) (analyzeInner indexed right)
  | _ => none

def analyzeFilter (filter : Filter J F) (indexes : List IndexDef) : Option (AnalyzedFilter J F) :=
  analyzeInner (indexes.filterMap fun index => if index.columns.length = 1 then index.columns.head? else none) filter

def legacyPath (plan : IndexPlan J) (indexes : List IndexDef) : Option (AccessPath J) := do
  let columns ← (indexes.map IndexDef.columns).find? fun columns => columns == [plan.column]
  let bound (value : Option (Value J)) : Bound (Value J) := value.elim .unbounded .included
  match plan with
  | .eq _ value => return .scan (.ofPrefix columns [value])
  | .range _ start stop => return .scan (.range columns [] (bound start) (bound stop))
  | .inList _ values => return .union ((sortDedup values).map fun value => .scan (.ofPrefix columns [value]))

/-- A path with the filter that its rows still have to meet. -/
structure PlannedAccess (J F : Type) where
  path : AccessPath J
  verify : Option (Filter J F)

/-- Filters that can fail keep the single-column plan. -/
def planAccess (filter : Filter J F) (indexes : List IndexDef) (columns : List ColumnDef) :
    Option (PlannedAccess J F) :=
  if filter.isFallible then do
    let analyzed ← analyzeFilter filter indexes
    return ⟨← legacyPath analyzed.plan indexes, analyzed.remainingFilter⟩
  else (planFilter filter indexes columns).map fun path => ⟨path, some filter⟩

end Analyze

/-! ## Addresses under a budget -/

def scanBudget : ℕ := 4096

def totalBudget : ℕ := 16384

def smallCandidateSet : ℕ := 8

/-- How many addresses a plan may still read. -/
structure Budget where
  perScan : ℕ := scanBudget
  remaining : ℕ := totalBudget

section Materialize
variable [LinearOrder J] (ledger : IndexLedger J)

mutual
/-- The addresses of a path, in order; `none` when the budget runs out. -/
def materialize : AccessPath J → Budget → Except (DbmsError J) (Option (List RecordAddress) × Budget)
  | .empty, budget => .ok (some [], budget)
  | .scan scan, budget => do
      let limit := min budget.perScan budget.remaining
      match ← IndexReader.addresses ledger scan limit with
      | some addresses =>
          return (some (sortDedup addresses), { budget with remaining := budget.remaining - addresses.length })
      | none => return (none, { budget with remaining := budget.remaining - limit })
  | .union paths, budget => materializeUnion paths [] budget
  | .intersection paths, budget => materializeIntersection paths none budget
def materializeUnion : List (AccessPath J) → List RecordAddress → Budget →
    Except (DbmsError J) (Option (List RecordAddress) × Budget)
  | [], union, budget => .ok (some (sortDedup union), budget)
  | path :: paths, union, budget => do
      match ← materialize path budget with
      | (some addresses, budget) => materializeUnion paths (union ++ addresses) budget
      | (none, budget) => return (none, budget)
/-- A member over budget is left out; few candidates end the loop. -/
def materializeIntersection : List (AccessPath J) → Option (List RecordAddress) → Budget →
    Except (DbmsError J) (Option (List RecordAddress) × Budget)
  | [], current, budget => .ok (current, budget)
  | path :: paths, current, budget =>
      if current.any fun set => set.length ≤ smallCandidateSet then .ok (current, budget)
      else do
        match ← materialize path budget with
        | (some addresses, budget) =>
            materializeIntersection paths (some (current.elim addresses fun set => intersectSorted set addresses)) budget
        | (none, budget) => materializeIntersection paths current budget
end

end Materialize

/-! ## What the addresses stand for -/

mutual
def AccessPath.hasIntersection : AccessPath J → Bool
  | .empty | .scan _ => false
  | .union paths => anyHasIntersection paths
  | .intersection _ => true
def AccessPath.anyHasIntersection : List (AccessPath J) → Bool
  | [] => false
  | path :: paths => path.hasIntersection || anyHasIntersection paths
end

/-- The address belongs to the path, where `holds` says to which scans it belongs. -/
inductive AccessPath.Selects (holds : IndexScan J → RecordAddress → Prop) (a : RecordAddress) : AccessPath J → Prop
  | scan {range : IndexScan J} (inside : holds range a) : Selects holds a (.scan range)
  | union {paths : List (AccessPath J)} {path : AccessPath J} (member : path ∈ paths) (selects : Selects holds a path) :
      Selects holds a (.union paths)
  | intersection {paths : List (AccessPath J)} (selects : ∀ path ∈ paths, Selects holds a path) :
      Selects holds a (.intersection paths)

/-- The addresses of a path in order, none left out; some may be too many where an
intersection was cut short. -/
structure Answers (holds : IndexScan J → RecordAddress → Prop) (path : AccessPath J) (addresses : List RecordAddress) :
    Prop where
  sorted : addresses.Pairwise (· < ·)
  complete : ∀ a, path.Selects holds a → a ∈ addresses
  exact : path.hasIntersection = false → ∀ a ∈ addresses, path.Selects holds a
  read : ∀ a ∈ addresses, ∃ scan, holds scan a

theorem AccessPath.hasIntersection_of_mem {paths : List (AccessPath J)} (plain : (union paths).hasIntersection = false)
    {path : AccessPath J} (member : path ∈ paths) : path.hasIntersection = false := by
  induction paths with
  | nil => exact absurd member List.not_mem_nil
  | cons first rest ih =>
      obtain ⟨here, later⟩ := Bool.or_eq_false_iff.mp (plain : (first.hasIntersection || anyHasIntersection rest) = false)
      rcases List.mem_cons.mp member with rfl | other
      · exact here
      · exact ih later other

section Answers
variable [LinearOrder J] {ledger : IndexLedger J} {holds : IndexScan J → RecordAddress → Prop}
  (reads : ∀ {scan limit found}, IndexReader.addresses ledger scan limit = .ok (some found) →
    ∀ {a}, a ∈ found ↔ holds scan a)
include reads

set_option linter.unusedSectionVars false in
mutual
/-- An answer is one for the whole path. -/
theorem materialize_answers : ∀ (path : AccessPath J) {budget budget' : Budget} {addresses : List RecordAddress},
    materialize ledger path budget = .ok (some addresses, budget') → Answers holds path addresses
  | .empty, _, _, _, run => by
      cases run
      exact ⟨.nil, fun _ selects => (by cases selects), fun _ _ member => absurd member List.not_mem_nil,
        fun _ member => absurd member List.not_mem_nil⟩
  | .scan scan, budget, _, _, run => by
      rw [materialize] at run
      obtain ⟨answer, read, run⟩ := bind_eq_ok.mp run
      cases answer with
      | none => cases run
      | some found =>
          cases run
          have inside {a : RecordAddress} : a ∈ sortDedup found ↔ holds scan a := mem_sortDedup.trans (reads read)
          refine ⟨sortDedup_sorted _, fun a selects => ?_, fun _ a member => .scan (inside.mp member),
            fun a member => ⟨scan, inside.mp member⟩⟩
          cases selects with
          | scan selects => exact inside.mpr selects
  | .union paths, _, _, _, run => by
      rw [materialize] at run
      obtain ⟨sorted, _, all, within⟩ := materializeUnion_answers paths run
      refine ⟨sorted, fun a selects => ?_, fun plain a member => ?_, fun a member => ?_⟩
      · cases selects with
        | union member selects => exact all a _ member selects
      · obtain ⟨path, member, found, answers, inside⟩ := (within a member).resolve_left List.not_mem_nil
        refine .union member (answers.exact ?_ a inside)
        exact AccessPath.hasIntersection_of_mem plain member
      · obtain ⟨_, _, _, answers, inside⟩ := (within a member).resolve_left List.not_mem_nil
        exact answers.read a inside
  | .intersection paths, _, _, _, run => by
      rw [materialize] at run
      obtain ⟨sorted, read, all⟩ := materializeIntersection_answers paths run
        (fun _ none_ => by cases none_) (fun _ none_ => by cases none_)
      refine ⟨sorted, fun a selects => ?_, fun plain => (by cases plain), read⟩
      cases selects with
      | intersection selects => exact all a selects fun _ none_ => by cases none_

theorem materializeUnion_answers : ∀ (paths : List (AccessPath J)) {union addresses : List RecordAddress}
    {budget budget' : Budget}, materializeUnion ledger paths union budget = .ok (some addresses, budget') →
    addresses.Pairwise (· < ·) ∧ (∀ a ∈ union, a ∈ addresses) ∧
      (∀ a, ∀ path ∈ paths, path.Selects holds a → a ∈ addresses) ∧
      ∀ a ∈ addresses, a ∈ union ∨ ∃ path ∈ paths, ∃ found, Answers holds path found ∧ a ∈ found
  | [], _, _, _, _, run => by
      cases run
      exact ⟨sortDedup_sorted _, fun _ => mem_sortDedup.mpr, fun _ _ member => absurd member List.not_mem_nil,
        fun _ member => .inl (mem_sortDedup.mp member)⟩
  | path :: paths, _, _, _, _, run => by
      rw [materializeUnion] at run
      obtain ⟨⟨answer, budget⟩, first, run⟩ := bind_eq_ok.mp run
      cases answer with
      | none => cases run
      | some found =>
          have part := materialize_answers path first
          obtain ⟨sorted, kept, all, within⟩ := materializeUnion_answers paths run
          refine ⟨sorted, fun a member => kept a (List.mem_append_left _ member), ?_, ?_⟩
          · intro a other member selects
            rcases List.mem_cons.mp member with rfl | later
            · exact kept _ (List.mem_append_right _ (part.complete a selects))
            · exact all a other later selects
          · intro a member
            rcases within a member with known | ⟨other, later, rest⟩
            · refine (List.mem_append.mp known).imp_right fun inside => ?_
              exact ⟨path, List.mem_cons_self, found, part, inside⟩
            · exact .inr ⟨other, List.mem_cons_of_mem _ later, rest⟩

theorem materializeIntersection_answers : ∀ (paths : List (AccessPath J)) {current : Option (List RecordAddress)}
    {addresses : List RecordAddress} {budget budget' : Budget},
    materializeIntersection ledger paths current budget = .ok (some addresses, budget') →
    (∀ set, current = some set → set.Pairwise (· < ·)) →
    (∀ set, current = some set → ∀ a ∈ set, ∃ scan, holds scan a) →
    addresses.Pairwise (· < ·) ∧ (∀ a ∈ addresses, ∃ scan, holds scan a) ∧
      ∀ a, (∀ path ∈ paths, path.Selects holds a) → (∀ set, current = some set → a ∈ set) → a ∈ addresses
  | [], _, _, _, _, run, sorted, read => by
      cases run
      exact ⟨sorted _ rfl, read _ rfl, fun _ _ inside => inside _ rfl⟩
  | path :: paths, current, addresses, _, _, run, sorted, read => by
      rw [materializeIntersection] at run
      split at run
      next =>
        cases run
        exact ⟨sorted _ rfl, read _ rfl, fun _ _ inside => inside _ rfl⟩
      next =>
        obtain ⟨⟨answer, budget⟩, first, run⟩ := bind_eq_ok.mp run
        cases answer with
        | none =>
            obtain ⟨sorted', read', all⟩ := materializeIntersection_answers paths run sorted read
            exact ⟨sorted', read', fun a selects => all a (List.forall_mem_cons.mp selects).2⟩
        | some found =>
            have part := materialize_answers path first
            cases current with
            | none =>
                obtain ⟨sorted', read', all⟩ := materializeIntersection_answers paths run
                  (fun _ same => Option.some.inj same ▸ part.sorted) (fun _ same => Option.some.inj same ▸ part.read)
                refine ⟨sorted', read', fun a selects _ => ?_⟩
                obtain ⟨here, later⟩ := List.forall_mem_cons.mp selects
                exact all a later fun _ same => Option.some.inj same ▸ part.complete a here
            | some set =>
                have sub := intersectSorted_sublist set found
                obtain ⟨sorted', read', all⟩ := materializeIntersection_answers paths run
                  (fun _ same => Option.some.inj same ▸ (sorted set rfl).sublist sub)
                  (fun _ same => Option.some.inj same ▸ fun a member => read set rfl a (sub.subset member))
                refine ⟨sorted', read', fun a selects inside => ?_⟩
                obtain ⟨here, later⟩ := List.forall_mem_cons.mp selects
                refine all a later fun _ same => Option.some.inj same ▸ ?_
                exact (mem_intersectSorted (sorted set rfl) part.sorted).mpr ⟨inside set rfl, part.complete a here⟩
end

end Answers

section Spec
variable [LinearOrder J] {ledger : IndexLedger J} {rows : List (RecordAddress × Row J)}

/-- The addresses are those of stored rows, in order, and hold every row of the path. -/
structure Materialized (rows : List (RecordAddress × Row J)) (path : AccessPath J)
    (addresses : List RecordAddress) : Prop where
  sorted : addresses.Pairwise (· < ·)
  stored : ∀ a ∈ addresses, a ∈ rows.map Prod.fst
  covered : ∀ x ∈ rows, path.Covers x.2 → x.1 ∈ addresses

omit [LinearOrder J] in
theorem IndexLedger.lookup_mem {columns : List String} {entries : List (IndexEntry J)}
    (found : ledger.lookup columns = .ok entries) : (columns, entries) ∈ ledger := by
  unfold lookup at found
  split at found
  next index search =>
    cases found
    have name : index.1 = columns := by simpa using List.find?_some search
    exact name ▸ List.mem_of_find?_eq_some search
  next => cases found

variable (indexed : ∀ index ∈ ledger, IndexOf index.1 rows index.2)
include indexed

theorem IndexLedger.lookup_index {columns : List String} {entries : List (IndexEntry J)}
    (found : ledger.lookup columns = .ok entries) : IndexOf columns rows entries :=
  indexed _ (lookup_mem found)

omit indexed in
/-- A scan that is read has an index. -/
theorem IndexReader.addresses_lookup {scan : IndexScan J} {limit : ℕ} {answer : Option (List RecordAddress)}
    (run : addresses ledger scan limit = .ok answer) : ∃ entries, ledger.lookup scan.columns = .ok entries := by
  unfold addresses at run
  split at run
  · obtain ⟨_, search, _⟩ := bind_eq_ok.mp run
    obtain ⟨entries, known, _⟩ := bind_eq_ok.mp search
    exact ⟨entries, known⟩
  · obtain ⟨_, visit, _⟩ := bind_eq_ok.mp run
    unfold forEachEntry at visit
    split at visit
    · obtain ⟨_, search, _⟩ := bind_eq_ok.mp visit
      obtain ⟨entries, known, _⟩ := bind_eq_ok.mp search
      exact ⟨entries, known⟩
    · obtain ⟨_, range, _⟩ := bind_eq_ok.mp visit
      obtain ⟨entries, known, _⟩ := bind_eq_ok.mp range
      exact ⟨entries, known⟩

/-- Where a scan stays within its limit it reads the addresses of its rows. -/
theorem IndexReader.mem_addresses {scan : IndexScan J} {limit : ℕ} {found : List RecordAddress}
    (run : addresses ledger scan limit = .ok (some found)) {a : RecordAddress} :
    a ∈ found ↔ ∃ x ∈ rows, x.1 = a ∧ scan.holdsKey (indexKey scan.columns x.2) = true := by
  obtain ⟨entries, known⟩ := addresses_lookup run
  have index := IndexLedger.lookup_index indexed known
  rw [IndexReader.addresses_eq known index.ordered] at run
  split at run
  next => cases run
  next =>
    cases run
    constructor
    · intro member
      obtain ⟨e, inside, rfl⟩ := List.mem_map.mp member
      obtain ⟨there, holds⟩ := List.mem_filter.mp inside
      obtain ⟨x, listed, rfl⟩ := List.mem_map.mp (index.perm.mem_iff.mp there)
      exact ⟨x, listed, rfl, holds⟩
    · rintro ⟨x, listed, rfl, holds⟩
      refine List.mem_map.mpr ⟨(indexKey scan.columns x.2, x.1), List.mem_filter.mpr ⟨?_, holds⟩, rfl⟩
      exact index.perm.mem_iff.mpr (List.mem_map_of_mem listed)

/-- The address of a stored row whose key lies in the scan. -/
def RowIn (rows : List (RecordAddress × Row J)) (scan : IndexScan J) (a : RecordAddress) : Prop :=
  ∃ x ∈ rows, x.1 = a ∧ scan.holdsKey (indexKey scan.columns x.2) = true

omit indexed in
theorem AccessPath.Covers.selects {path : AccessPath J} {x : RecordAddress × Row J} (listed : x ∈ rows)
    (covers : path.Covers x.2) : path.Selects (RowIn rows) x.1 := by
  induction covers with
  | scan holds => exact .scan ⟨x, listed, rfl, holds⟩
  | union member _ ih => exact .union member ih
  | intersection _ ih => exact .intersection ih

theorem materialize_spec {path : AccessPath J} {budget budget' : Budget} {addresses : List RecordAddress}
    (run : materialize ledger path budget = .ok (some addresses, budget')) : Materialized rows path addresses := by
  have answers : Answers (RowIn rows) path addresses :=
    materialize_answers (fun read => IndexReader.mem_addresses indexed read) path run
  refine ⟨answers.sorted, fun a member => ?_, fun x listed covers => answers.complete _ (covers.selects listed)⟩
  obtain ⟨_, x, listed, rfl, _⟩ := answers.read a member
  exact List.mem_map_of_mem listed

end Spec

section Declared
variable [LinearOrder J] {ledger : IndexLedger J} (ordered : ∀ index ∈ ledger, KeyOrdered index.1 index.2)
  {indexes : List IndexDef} (names : ledger.map Prod.fst = indexes.map IndexDef.columns)
include ordered names

omit [LinearOrder J] ordered in
theorem IndexLedger.lookup_ok {columns : List String} (declared : columns ∈ indexes.map IndexDef.columns) :
    ∃ entries, ledger.lookup columns = .ok entries := by
  rw [← names] at declared
  obtain ⟨index, listed, rfl⟩ := List.mem_map.mp declared
  unfold lookup
  cases search : ledger.find? fun other => other.1 == index.1 with
  | some found => exact ⟨found.2, rfl⟩
  | none => exact absurd (List.find?_eq_none.mp search index listed) (by simp)

set_option linter.unusedSectionVars false in
mutual
/-- A path over declared indexes raises no error. -/
theorem materialize_ok : ∀ (path : AccessPath J) (budget : Budget), path.Declared indexes →
    ∃ answer, materialize ledger path budget = .ok answer
  | .empty, budget, _ => ⟨_, rfl⟩
  | .scan scan, budget, declared => by
      cases declared with
      | scan declared =>
          obtain ⟨entries, known⟩ := IndexLedger.lookup_ok names declared
          rw [materialize, IndexReader.addresses_eq known (ordered _ (IndexLedger.lookup_mem known))]
          dsimp only [bind, Except.bind]
          split
          · exact ⟨_, rfl⟩
          · exact ⟨_, rfl⟩
  | .union paths, budget, declared => by
      cases declared with
      | union declared => exact materializeUnion_ok paths [] budget declared
  | .intersection paths, budget, declared => by
      cases declared with
      | intersection declared => exact materializeIntersection_ok paths none budget declared

theorem materializeUnion_ok : ∀ (paths : List (AccessPath J)) (union : List RecordAddress) (budget : Budget),
    (∀ path ∈ paths, path.Declared indexes) → ∃ answer, materializeUnion ledger paths union budget = .ok answer
  | [], _, _, _ => ⟨_, rfl⟩
  | path :: paths, union, budget, declared => by
      obtain ⟨here, later⟩ := List.forall_mem_cons.mp declared
      obtain ⟨⟨answer, budget'⟩, first⟩ := materialize_ok path budget here
      rw [materializeUnion, first]
      cases answer with
      | none => exact ⟨_, rfl⟩
      | some found => exact materializeUnion_ok paths _ _ later

theorem materializeIntersection_ok : ∀ (paths : List (AccessPath J)) (current : Option (List RecordAddress))
    (budget : Budget), (∀ path ∈ paths, path.Declared indexes) →
    ∃ answer, materializeIntersection ledger paths current budget = .ok answer
  | [], _, _, _ => ⟨_, rfl⟩
  | path :: paths, current, budget, declared => by
      obtain ⟨here, later⟩ := List.forall_mem_cons.mp declared
      obtain ⟨⟨answer, budget'⟩, first⟩ := materialize_ok path budget here
      rw [materializeIntersection]
      split
      · exact ⟨_, rfl⟩
      · rw [first]
        cases answer with
        | none => exact materializeIntersection_ok paths _ _ later
        | some found => exact materializeIntersection_ok paths _ _ later
end

end Declared
end WasmDbms
