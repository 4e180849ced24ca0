import WasmDbms.Db.OverlayRows
import WasmDbms.Db.Planner

/-!
# Planning an access path

The planner of one conjunction and of the branches of its disjunctions. The path it
finds for a filter holds every row that matches the filter.
-/
namespace WasmDbms
open Sorted

variable {J F : Type}

def maxAlternatives : ℕ := 64

namespace Filter

/-- `flatten_and`. -/
def flattenAnd : Filter J F → List (Filter J F)
  | .and left right => flattenAnd left ++ flattenAnd right
  | other => [other]

end Filter

/-- The cost class of a candidate path, the cheapest first. -/
inductive Rank where
  | uniqueExact
  | compositeExact
  | prefixed
  | range
  | union
  | notNull
  deriving DecidableEq

def Rank.order : Rank → ℕ
  | .uniqueExact => 0
  | .compositeExact => 1
  | .prefixed => 2
  | .range => 3
  | .union => 4
  | .notNull => 5

/-- A usable access path, with the columns it constrains. -/
structure Candidate (J : Type) where
  rank : Rank
  position : ℕ
  columns : List String
  path : AccessPath J

/-- `sort_key`: more columns come first, then the declaration order decides. -/
def Candidate.sortKey (candidate : Candidate J) : ℕ ×ₗ ℕᵒᵈ ×ₗ ℕ :=
  toLex (candidate.rank.order, toLex (OrderDual.toDual candidate.columns.length, candidate.position))

section Plan
variable [LinearOrder J]

/-- What the loop over the columns of an index has found. -/
structure Prefixes (J : Type) where
  prefixes : List (List (Value J)) := [[]]
  used : List String := []
  bounds : Option (Bound (Value J) × Bound (Value J)) := none
  notNullOnly : Bool := false

def columnDef (name : String) (columns : List ColumnDef) : Option ColumnDef :=
  columns.find? fun column => column.name == name

def isUnique (name : String) (columns : List ColumnDef) : Bool :=
  (columnDef name columns).any fun column => column.primaryKey || column.unique

/-- The loop of `index_candidate`. -/
def extendPrefixes (constraints : ColumnConstraints J) (columns : List ColumnDef) :
    List String → Prefixes J → Prefixes J
  | [], found => found
  | column :: rest, found =>
      match constraints.get column with
      | none => found
      | some constraint =>
          match constraint.eq with
          | some value =>
              extendPrefixes constraints columns rest { found with
                prefixes := found.prefixes.map fun begin => begin ++ [value]
                used := found.used ++ [column] }
          | none =>
              match constraint.inList with
              | some values =>
                  if found.prefixes.length * values.length > maxAlternatives then found
                  else
                    extendPrefixes constraints columns rest { found with
                      prefixes := found.prefixes.flatMap fun begin => values.map fun value => begin ++ [value]
                      used := found.used ++ [column] }
              | none =>
                  match constraint.rangeBounds (columnDef column columns) with
                  | some (lower, upper, fromNotNull) =>
                      { found with
                        used := found.used ++ [column]
                        bounds := some (lower, upper)
                        notNullOnly := fromNotNull }
                  | none => found

namespace Prefixes

def scans (found : Prefixes J) (index : List String) : List (IndexScan J) :=
  found.prefixes.map fun begin =>
    match found.bounds with
    | some (lower, upper) => .range index begin lower upper
    | none => .ofPrefix index begin

def rank (found : Prefixes J) (index : List String) (columns : List ColumnDef) : Rank :=
  let exact := found.bounds.isNone && found.used.length == index.length
  if exact && index.length > 1 then .compositeExact
  else if exact && index.head?.any (fun first => isUnique first columns) then .uniqueExact
  else if found.used.length > 1 || found.bounds.isNone then .prefixed
  else if found.notNullOnly then .notNull
  else .range

end Prefixes

/-- Matches the constraints against the columns of an index in their order. -/
def indexCandidate (index : IndexDef) (position : ℕ) (constraints : ColumnConstraints J)
    (columns : List ColumnDef) : Option (Candidate J) :=
  let found := extendPrefixes constraints columns index.columns {}
  if found.used.isEmpty then none
  else some ⟨found.rank index.columns columns, position, found.used,
    AccessPath.fromScans (found.scans index.columns)⟩

def AccessPath.ofBranches : List (AccessPath J) → AccessPath J
  | [] => .empty
  | [path] => path
  | paths => .union paths

/-- `or_candidate`, from the plans of the branches: each of them has to be indexable. -/
def orCandidate (position : ℕ) (branches : List (Option (AccessPath J))) : Option (Candidate J) := do
  let paths ← branches.mapM id
  let path := AccessPath.ofBranches (paths.filter fun path => !path.isEmpty)
  if path.scanCount > maxAlternatives then none
  else some ⟨.union, position, [], path⟩

/-- The candidates that constrain a column that those before them do not. -/
def selectMembers : List String → List (Candidate J) → List (AccessPath J)
  | _, [] => []
  | covered, candidate :: rest =>
      if !candidate.columns.isEmpty && candidate.columns.all (· ∈ covered) then selectMembers covered rest
      else candidate.path :: selectMembers (covered ++ candidate.columns) rest

/-- `plan_conjunction`, with the plans of the branches of each conjunct that is a
disjunction. -/
def planConjunction (indexes : List IndexDef) (columns : List ColumnDef) (conjuncts : List (Filter J F))
    (branches : List (Option (List (Option (AccessPath J))))) : Option (AccessPath J) :=
  match ColumnConstraints.collect conjuncts with
  | none => some .empty
  | some constraints =>
      let onIndexes := indexes.zipIdx.filterMap fun index => indexCandidate index.1 index.2 constraints columns
      let onBranches := branches.zipIdx.filterMap fun conjunct =>
        conjunct.1.bind fun plans => orCandidate (indexes.length + conjunct.2) plans
      let candidates := (onIndexes ++ onBranches).mergeSort fun a b => a.sortKey ≤ b.sortKey
      if candidates.any fun candidate => candidate.path.isEmpty then some .empty
      else match candidates with
        | [] => none
        | first :: _ =>
            if first.rank = .uniqueExact ∨ first.rank = .compositeExact then some first.path
            else match selectMembers [] candidates with
              | [path] => some path
              | members => some (.intersection members)

mutual
/-- The plans of the branches of a disjunction. -/
def branchPlans (indexes : List IndexDef) (columns : List ColumnDef) : Filter J F → List (Option (AccessPath J))
  | .or left right => branchPlans indexes columns left ++ branchPlans indexes columns right
  | .and left right => [planConjunction indexes columns (left.flattenAnd ++ right.flattenAnd)
      (conjunctPlans indexes columns left ++ conjunctPlans indexes columns right)]
  | other => [planConjunction indexes columns [other] [none]]

/-- For each conjunct that is a disjunction the plans of its branches. -/
def conjunctPlans (indexes : List IndexDef) (columns : List ColumnDef) :
    Filter J F → List (Option (List (Option (AccessPath J))))
  | .and left right => conjunctPlans indexes columns left ++ conjunctPlans indexes columns right
  | .or left right => [some (branchPlans indexes columns left ++ branchPlans indexes columns right)]
  | _ => [none]
end

/-- Plans an access path for a filter, or finds that no index helps. -/
def planFilter (filter : Filter J F) (indexes : List IndexDef) (columns : List ColumnDef) :
    Option (AccessPath J) :=
  planConjunction indexes columns filter.flattenAnd (conjunctPlans indexes columns filter)

end Plan

/-! ## Constraints and the values they allow -/

section Allowed
variable [LinearOrder J]

def Update.Allows : Update J → Value J → Prop
  | .eq value, v => v = value
  | .inList values, v => v ∈ values
  | .notNull, v => v.isNull = false
  | .lower bound, v => bound.admitsLower v = true
  | .upper bound, v => bound.admitsUpper v = true

/-- The value meets the constraint. -/
structure ColumnConstraint.Allows (c : ColumnConstraint J) (v : Value J) : Prop where
  eq : ∀ value, c.eq = some value → v = value
  inList : ∀ values, c.inList = some values → v ∈ values
  notNull : c.notNull = true → v.isNull = false
  lower : c.lower.admitsLower v = true
  upper : c.upper.admitsUpper v = true

theorem stricter_cases (current new : Bound (Value J)) (tighter : Ordering) :
    stricter current new tighter = current ∨ stricter current new tighter = new := by
  unfold stricter
  split
  · exact .inr rfl
  · exact .inl rfl
  · dsimp only
    split_ifs
    · exact .inl rfl
    · exact .inr rfl
    · split
      · exact .inl rfl
      · exact .inr rfl

namespace ColumnConstraint
variable {c : ColumnConstraint J} {v : Value J}

/-- A value that meets a constraint and one more conjunct meets the narrowed constraint. -/
theorem Allows.apply (allows : c.Allows v) {update : Update J} (holds : update.Allows v) :
    ∃ c', c.apply update = some c' ∧ c'.Allows v := by
  cases update with
  | eq value =>
      obtain rfl : v = value := holds
      have agrees : c.eq.any (· ≠ v) = false := by
        cases known : c.eq with
        | none => rfl
        | some value => simp [allows.eq value known]
      refine ⟨{ c with eq := some v }, ?_, ⟨?_, allows.inList, allows.notNull, allows.lower, allows.upper⟩⟩
      · rw [ColumnConstraint.apply, agrees]
        rfl
      · intro value same
        exact Option.some.inj same
  | inList values =>
      refine ⟨_, rfl, ⟨allows.eq, ?_, allows.notNull, allows.lower, allows.upper⟩⟩
      have listed : v ∈ sortDedup values := mem_sortDedup.mpr holds
      intro found same
      cases known : c.inList with
      | none =>
          simp only [known, Option.some.injEq] at same
          exact same ▸ listed
      | some existing =>
          simp only [known, Option.some.injEq] at same
          rw [← same]
          exact List.mem_filter.mpr ⟨allows.inList existing known, decide_eq_true listed⟩
  | notNull => exact ⟨_, rfl, ⟨allows.eq, allows.inList, fun _ => holds, allows.lower, allows.upper⟩⟩
  | lower bound =>
      refine ⟨_, rfl, ⟨allows.eq, allows.inList, allows.notNull, ?_, allows.upper⟩⟩
      change (stricter c.lower bound .gt).admitsLower v = true
      rcases stricter_cases c.lower bound .gt with same | same
      · rw [same]
        exact allows.lower
      · rw [same]
        exact holds
  | upper bound =>
      refine ⟨_, rfl, ⟨allows.eq, allows.inList, allows.notNull, allows.lower, ?_⟩⟩
      change (stricter c.upper bound .lt).admitsUpper v = true
      rcases stricter_cases c.upper bound .lt with same | same
      · rw [same]
        exact allows.upper
      · rw [same]
        exact holds

theorem Allows.admits (allows : c.Allows v) : c.admits v = true := by
  rw [ColumnConstraint.admits, allows.lower, allows.upper]
  rfl

theorem Allows.normalizeList (allows : c.Allows v) : ∃ c', c.normalizeList = some c' ∧ c'.Allows v := by
  unfold ColumnConstraint.normalizeList
  cases known : c.inList with
  | none => exact ⟨c, rfl, allows⟩
  | some list =>
      dsimp only
      have nonNull : (!(c.notNull && v.isNull)) = true := by
        cases flag : c.notNull with
        | false => rfl
        | true => rw [allows.notNull flag]; rfl
      have member : v ∈ (list.filter c.admits).filter fun v => !(c.notNull && v.isNull) :=
        List.mem_filter.mpr ⟨List.mem_filter.mpr ⟨allows.inList list known, allows.admits⟩, nonNull⟩
      generalize (list.filter c.admits).filter (fun v => !(c.notNull && v.isNull)) = rest at member
      have dropped : ∀ values : Option (Value J), (∀ value, values = some value → v = value) →
          ({ c with inList := none, eq := values } : ColumnConstraint J).Allows v := fun values own =>
        ⟨own, (fun _ none_ => by cases none_), allows.notNull, allows.lower, allows.upper⟩
      cases fixed : c.eq with
      | some value =>
          have same := allows.eq value fixed
          have kept : (if value ∈ rest then some ({ c with inList := none, eq := some value } : ColumnConstraint J)
              else none) = some { c with inList := none, eq := some value } := if_pos (same ▸ member)
          exact ⟨_, kept, dropped (some value) fun _ own => Option.some.inj own ▸ same⟩
      | none =>
          match rest, member with
          | [w], member =>
              refine ⟨{ c with inList := none, eq := some w }, rfl, dropped (some w) fun value own => ?_⟩
              exact (List.mem_singleton.mp member).trans (Option.some.inj own)
          | a :: b :: rest, member =>
              refine ⟨{ c with inList := some (a :: b :: rest), eq := none }, rfl,
                ⟨(fun _ none_ => by cases none_), fun values own => ?_, allows.notNull, allows.lower, allows.upper⟩⟩
              exact Option.some.inj own ▸ member

theorem Allows.normalizeBounds (allows : c.Allows v) : ∃ c', c.normalizeBounds = some c' ∧ c'.Allows v := by
  unfold ColumnConstraint.normalizeBounds
  cases fixed : c.eq with
  | some value =>
      obtain rfl := allows.eq value fixed
      have admitted : (!c.admits v || (c.notNull && v.isNull)) = false := by
        rw [allows.admits]
        cases flag : c.notNull with
        | false => rfl
        | true => rw [allows.notNull flag]; rfl
      dsimp only
      rw [admitted]
      exact ⟨_, rfl, ⟨fun _ own => Option.some.inj own, allows.inList, allows.notNull, rfl, rfl⟩⟩
  | none =>
      dsimp only
      have interval : isEmptyInterval c.lower c.upper = false := by
        have lower := allows.lower
        have upper := allows.upper
        unfold isEmptyInterval
        split
        next low high at_ above =>
          rw [at_] at lower
          rw [above] at upper
          exact decide_eq_false (not_lt.mpr ((of_decide_eq_true lower).trans (of_decide_eq_true upper)))
        next low high at_ above =>
          rw [at_] at lower
          rw [above] at upper
          exact decide_eq_false
            (not_le.mpr (lt_of_le_of_lt (of_decide_eq_true lower) (of_decide_eq_true upper)))
        next low high at_ above =>
          rw [at_] at lower
          rw [above] at upper
          exact decide_eq_false
            (not_le.mpr (lt_of_lt_of_le (of_decide_eq_true lower) (of_decide_eq_true upper)))
        next low high at_ above =>
          rw [at_] at lower
          rw [above] at upper
          exact decide_eq_false (not_le.mpr ((of_decide_eq_true lower : _ < _).trans (of_decide_eq_true upper)))
        next => rfl
      rw [interval]
      exact ⟨c, rfl, allows⟩

theorem Allows.normalize (allows : c.Allows v) : ∃ c', c.normalize = some c' ∧ c'.Allows v := by
  obtain ⟨c₁, first, allows₁⟩ := allows.normalizeList
  obtain ⟨c₂, second, allows₂⟩ := allows₁.normalizeBounds
  exact ⟨c₂, by rw [ColumnConstraint.normalize, first]; exact second, allows₂⟩

end ColumnConstraint

/-- The values of a type lie in its bounds. -/
theorem notNullBounds_admit {kind : DataTypeKind} {lower upper : Bound (Value J)}
    (bounds : notNullBounds kind = some (lower, upper)) {v : Value J} (typed : v.kind = some kind) :
    lower.admitsLower v = true ∧ upper.admitsUpper v = true := by
  cases v with
  | null => cases typed
  | text s =>
      cases typed
      cases bounds
      exact ⟨decide_eq_true (Value.empty_text_le s), rfl⟩
  | uint8 n =>
      cases typed
      cases bounds
      exact ⟨decide_eq_true (Value.le_of_content_le rfl Value.zero_le_number), rfl⟩
  | uint16 n =>
      cases typed
      cases bounds
      exact ⟨decide_eq_true (Value.le_of_content_le rfl Value.zero_le_number), rfl⟩
  | uint32 n =>
      cases typed
      cases bounds
      exact ⟨decide_eq_true (Value.le_of_content_le rfl Value.zero_le_number), rfl⟩
  | uint64 n =>
      cases typed
      cases bounds
      exact ⟨decide_eq_true (Value.le_of_content_le rfl Value.zero_le_number), rfl⟩
  | uuid b =>
      cases typed
      cases bounds
  | custom typeTag encoded =>
      cases typed
      cases bounds
  | _ =>
      cases typed
      cases bounds
      refine ⟨rfl, ?_⟩
      rw [Bound.admitsUpper]
      exact decide_eq_true (Value.lt_of_tag_lt (by simp [Value.tag]))

/-- A value of its column lies in the range of a constraint it meets. -/
theorem ColumnConstraint.Allows.rangeBounds {c : ColumnConstraint J} {v : Value J} (allows : c.Allows v)
    {column : Option ColumnDef} {lower upper : Bound (Value J)} {flag : Bool}
    (bounds : c.rangeBounds column = some (lower, upper, flag))
    (typed : ∀ definition, column = some definition → definition.Admits v) :
    lower.admitsLower v = true ∧ upper.admitsUpper v = true := by
  unfold ColumnConstraint.rangeBounds at bounds
  split at bounds
  next =>
    split at bounds
    next => cases bounds
    next asked =>
      obtain ⟨definition, found, bounds⟩ := Option.bind_eq_some_iff.mp bounds
      obtain ⟨known, _⟩ := Option.filter_eq_some_iff.mp found
      obtain ⟨⟨low, high⟩, inside, bounds⟩ := Option.bind_eq_some_iff.mp bounds
      cases bounds
      have present : v.isNull = false := allows.notNull (by simpa using asked)
      rcases typed definition known with kind | ⟨rfl, _⟩
      · exact notNullBounds_admit inside kind
      · cases present
  next =>
    cases bounds
    exact ⟨allows.lower, allows.upper⟩

end Allowed

/-! ## Paths and the rows they hold -/

section Sound
variable [LinearOrder J] {row : Row J}

/-- The index keys of the row lie in the path. -/
inductive AccessPath.Covers (row : Row J) : AccessPath J → Prop
  | scan {range : IndexScan J} (holds : range.holdsKey (indexKey range.columns row) = true) :
      Covers row (.scan range)
  | union {paths : List (AccessPath J)} {path : AccessPath J} (member : path ∈ paths) (covers : Covers row path) :
      Covers row (.union paths)
  | intersection {paths : List (AccessPath J)} (covers : ∀ path ∈ paths, Covers row path) :
      Covers row (.intersection paths)

theorem AccessPath.Covers.not_empty {path : AccessPath J} (covers : path.Covers row) : path.isEmpty = false := by
  cases covers <;> rfl

theorem AccessPath.fromScans_covers {ranges : List (IndexScan J)} {range : IndexScan J} (member : range ∈ ranges)
    (holds : range.holdsKey (indexKey range.columns row) = true) : (fromScans ranges).Covers row := by
  match ranges, member with
  | [_], member =>
      obtain rfl := List.mem_singleton.mp member
      exact .scan holds
  | a :: b :: rest, member => exact .union (List.mem_map_of_mem member) (.scan holds)

/-- The constraints hold on the row. -/
def ColumnConstraints.Hold (constraints : ColumnConstraints J) (row : Row J) : Prop :=
  ∀ entry ∈ constraints, ∃ v, findColumn entry.1 row = some v ∧ entry.2.Allows v

namespace ColumnConstraints

theorem Hold.applyTo {constraints : ColumnConstraints J} (hold : constraints.Hold row) {column : String}
    {v : Value J} (value : findColumn column row = some v) {update : Update J} (allows : update.Allows v) :
    ∃ constraints', applyTo column update constraints = some constraints' ∧ constraints'.Hold row := by
  induction constraints with
  | nil =>
      have free : ({} : ColumnConstraint J).Allows v :=
        ⟨(fun _ none_ => by cases none_), (fun _ none_ => by cases none_), (fun no => by cases no), rfl, rfl⟩
      obtain ⟨c, narrowed, allows'⟩ := free.apply allows
      refine ⟨[(column, c)], by rw [ColumnConstraints.applyTo, narrowed]; rfl, ?_⟩
      exact List.forall_mem_singleton.mpr ⟨v, value, allows'⟩
  | cons entry rest ih =>
      obtain ⟨name, c⟩ := entry
      obtain ⟨⟨w, known, first⟩, others⟩ := List.forall_mem_cons.mp hold
      rw [ColumnConstraints.applyTo]
      by_cases here : name = column
      · subst here
        cases known.symm.trans value
        obtain ⟨c', narrowed, allows'⟩ := first.apply allows
        rw [if_pos rfl, narrowed]
        exact ⟨_, rfl, List.forall_mem_cons.mpr ⟨⟨v, value, allows'⟩, others⟩⟩
      · obtain ⟨rest', narrowed, hold'⟩ := ih others
        rw [if_neg here, narrowed]
        exact ⟨_, rfl, List.forall_mem_cons.mpr ⟨⟨w, known, first⟩, hold'⟩⟩

/-- A conjunct that matches allows the value of its column. -/
theorem updateOf_allows (names : (row.map fun entry => entry.1.name).Nodup) {P : Predicates J F}
    {conjunct : Filter J F} (holds : conjunct.matches P row = .ok true) {column : String} {update : Update J}
    (known : updateOf conjunct = some (column, update)) :
    ∃ v, findColumn column row = some v ∧ update.Allows v := by
  have any : ∀ {field : String} {test : Value J → Bool},
      (.ok (anyColumn field test row) : Except (QueryError J) Bool) = .ok true →
      ∃ v, findColumn field row = some v ∧ test v = true := by
    intro field test found
    obtain ⟨entry, member, both⟩ := List.any_eq_true.mp (Except.ok.inj found)
    obtain ⟨name, passes⟩ := Bool.and_eq_true_iff.mp both
    exact ⟨entry.2, beq_iff_eq.mp name ▸ findColumn_eq names member, passes⟩
  cases conjunct with
  | eq field value =>
      cases known
      obtain ⟨v, found, passes⟩ := any holds
      exact ⟨v, found, (of_decide_eq_true passes : v = value)⟩
  | isNull field =>
      cases known
      refine (any holds).imp fun v found => ⟨found.1, ?_⟩
      cases v with
      | null => rfl
      | _ => cases found.2
  | notNull field =>
      cases known
      obtain ⟨v, found, passes⟩ := any holds
      have present : v.isNull = false := by simpa using passes
      exact ⟨v, found, present⟩
  | inList field values =>
      cases known
      obtain ⟨v, found, passes⟩ := any holds
      exact ⟨v, found, (of_decide_eq_true passes : v ∈ values)⟩
  | ge field value =>
      cases known
      exact any holds
  | gt field value =>
      cases known
      exact any holds
  | le field value =>
      cases known
      exact any holds
  | lt field value =>
      cases known
      exact any holds
  | _ => cases known

theorem Hold.applyAll (names : (row.map fun entry => entry.1.name).Nodup) {P : Predicates J F}
    {conjuncts : List (Filter J F)} (holds : ∀ conjunct ∈ conjuncts, conjunct.matches P row = .ok true)
    {constraints : ColumnConstraints J} (hold : constraints.Hold row) :
    ∃ constraints', applyAll conjuncts constraints = some constraints' ∧ constraints'.Hold row := by
  induction conjuncts generalizing constraints with
  | nil => exact ⟨constraints, rfl, hold⟩
  | cons conjunct rest ih =>
      rw [List.forall_mem_cons] at holds
      rw [ColumnConstraints.applyAll]
      cases known : updateOf conjunct with
      | none => exact ih holds.2 hold
      | some narrowing =>
          obtain ⟨column, update⟩ := narrowing
          obtain ⟨v, value, allows⟩ := updateOf_allows names holds.1 known
          obtain ⟨constraints₁, applied, hold₁⟩ := hold.applyTo value allows
          dsimp only
          rw [applied]
          exact ih holds.2 hold₁

theorem Hold.normalized {constraints : ColumnConstraints J} (hold : constraints.Hold row) :
    ∃ constraints' : ColumnConstraints J,
      (constraints.mapM fun entry => do return (entry.1, ← entry.2.normalize)) = some constraints' ∧
        constraints'.Hold row := by
  induction constraints with
  | nil => exact ⟨[], rfl, hold⟩
  | cons entry rest ih =>
      obtain ⟨⟨v, value, allows⟩, others⟩ := List.forall_mem_cons.mp hold
      obtain ⟨c, reduced, allows'⟩ := allows.normalize
      obtain ⟨rest', mapped, hold'⟩ := ih others
      refine ⟨(entry.1, c) :: rest', ?_, List.forall_mem_cons.mpr ⟨⟨v, value, allows'⟩, hold'⟩⟩
      rw [List.mapM_cons, reduced, mapped]
      rfl

/-- A row that matches all conjuncts meets their constraints. -/
theorem collect_hold (names : (row.map fun entry => entry.1.name).Nodup) {P : Predicates J F}
    {conjuncts : List (Filter J F)} (holds : ∀ conjunct ∈ conjuncts, conjunct.matches P row = .ok true) :
    ∃ constraints, collect conjuncts = some constraints ∧ constraints.Hold row := by
  have empty : ColumnConstraints.Hold ([] : ColumnConstraints J) row := fun _ member => absurd member List.not_mem_nil
  obtain ⟨constraints, applied, hold⟩ := Hold.applyAll names holds empty
  obtain ⟨constraints', mapped, hold'⟩ := hold.normalized
  exact ⟨constraints', by rw [collect, applied]; exact mapped, hold'⟩

theorem Hold.get {constraints : ColumnConstraints J} (hold : constraints.Hold row) {column : String}
    {c : ColumnConstraint J} (found : constraints.get column = some c) :
    ∃ v, findColumn column row = some v ∧ c.Allows v := by
  obtain ⟨entry, search, rfl⟩ := Option.map_eq_some_iff.mp found
  have name : entry.1 = column := by simpa using List.find?_some search
  exact name ▸ hold entry (List.mem_of_find?_eq_some search)

end ColumnConstraints

/-- One of the prefixes, with the range if there is one, holds the key. -/
structure Prefixes.Hold (found : Prefixes J) (key : List (Value J)) : Prop where
  within : found.used.length ≤ key.length
  reached : found.bounds = none → key.take found.used.length ∈ found.prefixes
  ranged : ∀ lower upper, found.bounds = some (lower, upper) → ∃ depth v, found.used.length = depth + 1 ∧
    key.take depth ∈ found.prefixes ∧ key[depth]? = some v ∧ lower.admitsLower v = true ∧ upper.admitsUpper v = true

/-- The values of the row have the types of their columns. -/
def TypedIn (columns : List ColumnDef) (row : Row J) : Prop :=
  ∀ name v definition, findColumn name row = some v → columnDef name columns = some definition → definition.Admits v

theorem extendPrefixes_hold {columns : List ColumnDef} (typed : TypedIn columns row)
    {constraints : ColumnConstraints J} (hold : constraints.Hold row) {index rest : List String}
    {found : Prefixes J} (split : index = found.used ++ rest) (open_ : found.bounds = none)
    (reached : (indexKey index row).take found.used.length ∈ found.prefixes) :
    (extendPrefixes constraints columns rest found).Hold (indexKey index row) := by
  induction rest generalizing found with
  | nil =>
      refine ⟨?_, fun _ => reached, fun lower upper bounds => ?_⟩
      · rw [split, List.append_nil, indexKey, List.length_map]
        rfl
      · cases open_.symm.trans bounds
  | cons column rest ih =>
      have stays : found.Hold (indexKey index row) := by
        refine ⟨?_, fun _ => reached, fun lower upper bounds => ?_⟩
        · rw [indexKey, List.length_map, split, List.length_append]
          exact Nat.le_add_right _ _
        · cases open_.symm.trans bounds
      rw [extendPrefixes]
      cases known : constraints.get column with
      | none => exact stays
      | some c =>
          obtain ⟨v, value, allows⟩ := hold.get known
          have at_ : (indexKey index row)[found.used.length]? = some v := by
            rw [indexKey, List.getElem?_map, split, List.getElem?_append_right (Nat.le_refl _), Nat.sub_self]
            simp [value]
          have next : (indexKey index row).take (found.used ++ [column]).length =
              (indexKey index row).take found.used.length ++ [v] := by
            rw [List.length_append, List.length_singleton, List.take_add_one, at_]
            rfl
          have split' : index = (found.used ++ [column]) ++ rest := by
            rw [split, List.append_assoc, List.singleton_append]
          dsimp only
          cases fixed : c.eq with
          | some w =>
              obtain rfl := allows.eq w fixed
              refine ih split' open_ ?_
              rw [next]
              exact List.mem_map_of_mem reached
          | none =>
              dsimp only
              cases list : c.inList with
              | some values =>
                  dsimp only
                  split
                  · exact stays
                  · refine ih split' open_ ?_
                    rw [next]
                    exact List.mem_flatMap.mpr ⟨_, reached, List.mem_map_of_mem (allows.inList values list)⟩
              | none =>
                  dsimp only
                  cases range : c.rangeBounds (columnDef column columns) with
                  | none => exact stays
                  | some bounds =>
                      obtain ⟨lower, upper, flag⟩ := bounds
                      obtain ⟨above, below⟩ := allows.rangeBounds range fun definition def_ =>
                        typed column v definition value def_
                      refine ⟨?_, fun none_ => (by cases none_), ?_⟩
                      · change (found.used ++ [column]).length ≤ (indexKey index row).length
                        rw [indexKey, List.length_map, split', @List.length_append _ _ rest]
                        exact Nat.le_add_right _ _
                      · intro lower' upper' same
                        cases same
                        exact ⟨found.used.length, v, by simp, reached, at_, above, below⟩

theorem indexCandidate_covers {columns : List ColumnDef} (typed : TypedIn columns row)
    {constraints : ColumnConstraints J} (hold : constraints.Hold row) {index : IndexDef} {position : ℕ}
    {candidate : Candidate J} (made : indexCandidate index position constraints columns = some candidate) :
    candidate.path.Covers row := by
  have start : (indexKey index.columns row).take ({} : Prefixes J).used.length ∈ ({} : Prefixes J).prefixes :=
    List.mem_singleton.mpr rfl
  have found : (extendPrefixes constraints columns index.columns {}).Hold (indexKey index.columns row) :=
    extendPrefixes_hold typed hold (List.nil_append _).symm rfl start
  unfold indexCandidate at made
  dsimp only at made
  generalize extendPrefixes constraints columns index.columns {} = result at found made
  split at made
  next => cases made
  next =>
    cases made
    have length : (indexKey index.columns row).length = index.columns.length := List.length_map _
    have scan : ∃ range ∈ result.scans index.columns, range.holdsKey (indexKey range.columns row) = true := by
      cases bounds : result.bounds with
      | none =>
          refine ⟨.ofPrefix index.columns ((indexKey index.columns row).take result.used.length), ?_, ?_⟩
          · unfold Prefixes.scans
            rw [bounds]
            exact List.mem_map_of_mem (found.reached bounds)
          · change IndexScan.holdsKey (.ofPrefix index.columns ((indexKey index.columns row).take result.used.length))
              (indexKey index.columns row) = true
            unfold IndexScan.holdsKey
            split
            next exact_ =>
              have whole : index.columns.length ≤ ((indexKey index.columns row).take result.used.length).length :=
                of_decide_eq_true exact_
              rw [List.length_take, length] at whole
              refine decide_eq_true ?_
              exact (List.take_of_length_le (by omega)).symm
            next open_ =>
              have short : ¬ index.columns.length ≤ ((indexKey index.columns row).take result.used.length).length :=
                fun whole => open_ (decide_eq_true whole)
              rw [List.length_take, length] at short
              have below : result.used.length < (indexKey index.columns row).length := by omega
              refine Bool.and_eq_true_iff.mpr ⟨decide_eq_true ?_, ?_⟩
              · change (indexKey index.columns row).take ((indexKey index.columns row).take result.used.length).length = _
                rw [List.length_take, Nat.min_eq_left below.le]
                rfl
              · change ((indexKey index.columns row)[((indexKey index.columns row).take
                  result.used.length).length]?.any _) = true
                rw [List.length_take, Nat.min_eq_left below.le, List.getElem?_eq_getElem below]
                rfl
      | some bound =>
          obtain ⟨lower, upper⟩ := bound
          obtain ⟨depth, v, deep, reached, at_, above, below⟩ := found.ranged lower upper bounds
          have short : depth < (indexKey index.columns row).length := (List.getElem?_eq_some_iff.mp at_).1
          have begin : ((indexKey index.columns row).take depth).length = depth := by
            rw [List.length_take, Nat.min_eq_left short.le]
          refine ⟨.range index.columns ((indexKey index.columns row).take depth) lower upper, ?_, ?_⟩
          · unfold Prefixes.scans
            rw [bounds]
            exact List.mem_map_of_mem reached
          · change IndexScan.holdsKey (.range index.columns ((indexKey index.columns row).take depth) lower upper)
              (indexKey index.columns row) = true
            have open_ : (IndexScan.range index.columns ((indexKey index.columns row).take depth) lower upper).isExact =
                false := by
              refine decide_eq_false ?_
              change ¬ index.columns.length ≤ ((indexKey index.columns row).take depth).length
              omega
            unfold IndexScan.holdsKey
            rw [if_neg (by rw [open_]; exact Bool.false_ne_true)]
            refine Bool.and_eq_true_iff.mpr ⟨decide_eq_true ?_, ?_⟩
            · change (indexKey index.columns row).take ((indexKey index.columns row).take depth).length = _
              rw [begin]
              rfl
            · change ((indexKey index.columns row)[((indexKey index.columns row).take depth).length]?.any
                fun component => lower.admitsLower component && upper.admitsUpper component) = true
              rw [begin, at_, Option.any_some, above, below]
              rfl
    obtain ⟨range, member, holds⟩ := scan
    exact AccessPath.fromScans_covers member holds

/-- Some branch has no path or one that holds the row. -/
def Served (row : Row J) (branches : List (Option (AccessPath J))) : Prop :=
  ∃ branch ∈ branches, ∀ path, branch = some path → path.Covers row

theorem Served.append_left {left right : List (Option (AccessPath J))} (served : Served row left) :
    Served row (left ++ right) :=
  served.imp fun _ branch => ⟨List.mem_append_left _ branch.1, branch.2⟩

theorem Served.append_right {left right : List (Option (AccessPath J))} (served : Served row right) :
    Served row (left ++ right) :=
  served.imp fun _ branch => ⟨List.mem_append_right _ branch.1, branch.2⟩

theorem mapM_id_some {α : Type} {l : List (Option α)} {l' : List α} (all : l.mapM id = some l') :
    l = l'.map some := by
  induction l generalizing l' with
  | nil =>
      cases all
      rfl
  | cons x rest ih =>
      rw [List.mapM_cons] at all
      obtain ⟨a, first, all⟩ := Option.bind_eq_some_iff.mp all
      obtain ⟨rest', others, all⟩ := Option.bind_eq_some_iff.mp all
      cases all
      rw [ih others, List.map_cons]
      exact congrArg (· :: _) first

theorem AccessPath.Covers.ofBranches {paths : List (AccessPath J)} {path : AccessPath J} (member : path ∈ paths)
    (covers : path.Covers row) : (AccessPath.ofBranches paths).Covers row := by
  match paths, member with
  | [_], member => exact List.mem_singleton.mp member ▸ covers
  | a :: b :: rest, member => exact .union member covers

theorem orCandidate_covers {position : ℕ} {branches : List (Option (AccessPath J))} (served : Served row branches)
    {candidate : Candidate J} (made : orCandidate position branches = some candidate) :
    candidate.path.Covers row := by
  obtain ⟨paths, planned, made⟩ := Option.bind_eq_some_iff.mp made
  obtain ⟨branch, member, covers⟩ := served
  rw [mapM_id_some planned] at member
  obtain ⟨path, listed, rfl⟩ := List.mem_map.mp member
  have holds := covers path rfl
  have kept : path ∈ paths.filter fun path => !path.isEmpty :=
    List.mem_filter.mpr ⟨listed, by rw [holds.not_empty]; rfl⟩
  dsimp only at made
  split at made
  next => cases made
  next =>
    cases made
    exact AccessPath.Covers.ofBranches kept holds

omit [LinearOrder J] in
theorem selectMembers_mem {covered : List String} {candidates : List (Candidate J)} {path : AccessPath J}
    (member : path ∈ selectMembers covered candidates) : ∃ candidate ∈ candidates, candidate.path = path := by
  induction candidates generalizing covered with
  | nil => cases member
  | cons candidate rest ih =>
      rw [selectMembers] at member
      split at member
      · exact (ih member).imp fun _ found => ⟨List.mem_cons_of_mem _ found.1, found.2⟩
      · rcases List.mem_cons.mp member with rfl | later
        · exact ⟨candidate, List.mem_cons_self, rfl⟩
        · exact (ih later).imp fun _ found => ⟨List.mem_cons_of_mem _ found.1, found.2⟩

theorem planConjunction_covers {columns : List ColumnDef} (typed : TypedIn columns row)
    (names : (row.map fun entry => entry.1.name).Nodup) {P : Predicates J F} {indexes : List IndexDef}
    {conjuncts : List (Filter J F)} (holds : ∀ conjunct ∈ conjuncts, conjunct.matches P row = .ok true)
    {branches : List (Option (List (Option (AccessPath J))))}
    (served : ∀ plans, some plans ∈ branches → Served row plans) {path : AccessPath J}
    (planned : planConjunction indexes columns conjuncts branches = some path) : path.Covers row := by
  obtain ⟨constraints, collected, hold⟩ := ColumnConstraints.collect_hold names holds
  unfold planConjunction at planned
  rw [collected] at planned
  dsimp only at planned
  generalize sorted : ((indexes.zipIdx.filterMap fun index =>
      indexCandidate index.1 index.2 constraints columns) ++ branches.zipIdx.filterMap fun conjunct =>
        conjunct.1.bind fun plans => orCandidate (indexes.length + conjunct.2) plans).mergeSort
      (fun a b => decide (a.sortKey ≤ b.sortKey)) = candidates at planned
  have covers : ∀ candidate ∈ candidates, candidate.path.Covers row := by
    intro candidate member
    rw [← sorted, List.mem_mergeSort, List.mem_append] at member
    rcases member with onIndex | onBranches
    · obtain ⟨index, _, made⟩ := List.mem_filterMap.mp onIndex
      exact indexCandidate_covers typed hold made
    · obtain ⟨conjunct, listed, made⟩ := List.mem_filterMap.mp onBranches
      obtain ⟨plans, isOr, made⟩ := Option.bind_eq_some_iff.mp made
      refine orCandidate_covers (served plans ?_) made
      exact isOr ▸ List.fst_mem_of_mem_zipIdx listed
  have nonempty : (candidates.any fun candidate => candidate.path.isEmpty) = false :=
    List.any_eq_false.mpr fun candidate member => by
      rw [(covers candidate member).not_empty]
      exact Bool.false_ne_true
  rw [nonempty, if_neg Bool.false_ne_true] at planned
  match candidates, covers, planned with
  | first :: rest, covers, planned =>
      dsimp only at planned
      split at planned
      next =>
        cases planned
        exact covers first List.mem_cons_self
      next =>
        have members : ∀ path ∈ selectMembers [] (first :: rest), path.Covers row := by
          intro path member
          obtain ⟨candidate, listed, rfl⟩ := selectMembers_mem member
          exact covers candidate listed
        split at planned
        next only same =>
          cases planned
          exact members path (same ▸ List.mem_singleton.mpr rfl)
        next =>
          cases planned
          exact .intersection members

theorem Filter.flattenAnd_matches {P : Predicates J F} {filter : Filter J F} (holds : filter.matches P row = .ok true) :
    ∀ conjunct ∈ filter.flattenAnd, conjunct.matches P row = .ok true := by
  induction filter with
  | and left right ihl ihr =>
      obtain ⟨first, second⟩ := Filter.and_true holds
      exact List.forall_mem_append.mpr ⟨ihl first, ihr second⟩
  | _ => exact List.forall_mem_singleton.mpr holds

section Branches
variable {columns : List ColumnDef} (typed : TypedIn columns row) (names : (row.map fun entry => entry.1.name).Nodup)
  {P : Predicates J F} {indexes : List IndexDef}
include typed names

/-- A row that matches one branch is served by the plans of all. -/
theorem plans_serve (filter : Filter J F) (holds : filter.matches P row = .ok true) :
    Served row (branchPlans indexes columns filter) ∧
      ∀ plans, some plans ∈ conjunctPlans indexes columns filter → Served row plans := by
  -- a filter that is neither a conjunction nor a disjunction
  have single : ∀ filter : Filter J F, filter.matches P row = .ok true →
      Served row [planConjunction indexes columns [filter] [none]] := by
    intro filter holds
    refine ⟨_, List.mem_singleton.mpr rfl, fun path planned => ?_⟩
    refine planConjunction_covers typed names (List.forall_mem_singleton.mpr holds) ?_ planned
    intro plans member
    cases List.mem_singleton.mp member
  have leaf : ∀ filter : Filter J F, filter.matches P row = .ok true →
      Served row [planConjunction indexes columns [filter] [none]] ∧
        ∀ plans, some plans ∈ ([none] : List (Option (List (Option (AccessPath J))))) → Served row plans := by
    intro filter holds
    exact ⟨single filter holds, fun plans member => by cases List.mem_singleton.mp member⟩
  induction filter with
  | or left right ihl ihr =>
      have served : Served row (branchPlans indexes columns left ++ branchPlans indexes columns right) := by
        rcases Filter.or_true holds with first | second
        · exact (ihl first).1.append_left
        · exact (ihr second).1.append_right
      refine ⟨served, fun plans member => ?_⟩
      cases List.mem_singleton.mp member
      exact served
  | and left right ihl ihr =>
      obtain ⟨first, second⟩ := Filter.and_true holds
      have conjuncts : ∀ plans, some plans ∈ conjunctPlans indexes columns left ++ conjunctPlans indexes columns right →
          Served row plans := by
        intro plans member
        rcases List.mem_append.mp member with inLeft | inRight
        · exact (ihl first).2 plans inLeft
        · exact (ihr second).2 plans inRight
      refine ⟨⟨_, List.mem_singleton.mpr rfl, fun path planned => ?_⟩, conjuncts⟩
      exact planConjunction_covers typed names (Filter.flattenAnd_matches holds) conjuncts planned
  | _ => exact leaf _ holds

/-- The path planned for a filter holds every row that matches it. -/
theorem planFilter_covers {filter : Filter J F} (holds : filter.matches P row = .ok true) {path : AccessPath J}
    (planned : planFilter filter indexes columns = some path) : path.Covers row :=
  planConjunction_covers typed names (Filter.flattenAnd_matches holds) (plans_serve typed names filter holds).2 planned

end Branches

end Sound

/-! ## The indexes of a path -/

section Declared

/-- The scans of the path are scans of these indexes. -/
inductive AccessPath.Declared (indexes : List IndexDef) : AccessPath J → Prop
  | empty : Declared indexes .empty
  | scan {range : IndexScan J} (declared : range.columns ∈ indexes.map IndexDef.columns) :
      Declared indexes (.scan range)
  | union {paths : List (AccessPath J)} (declared : ∀ path ∈ paths, Declared indexes path) :
      Declared indexes (.union paths)
  | intersection {paths : List (AccessPath J)} (declared : ∀ path ∈ paths, Declared indexes path) :
      Declared indexes (.intersection paths)

variable {indexes : List IndexDef}

theorem AccessPath.fromScans_declared {ranges : List (IndexScan J)}
    (declared : ∀ range ∈ ranges, range.columns ∈ indexes.map IndexDef.columns) :
    (fromScans ranges).Declared indexes := by
  match ranges, declared with
  | [], _ => exact .empty
  | [range], declared => exact .scan (declared range List.mem_cons_self)
  | a :: b :: rest, declared =>
      refine .union fun path member => ?_
      obtain ⟨range, listed, rfl⟩ := List.mem_map.mp member
      exact .scan (declared range listed)

theorem AccessPath.ofBranches_declared {paths : List (AccessPath J)}
    (declared : ∀ path ∈ paths, path.Declared indexes) : (ofBranches paths).Declared indexes := by
  match paths, declared with
  | [], _ => exact .empty
  | [path], declared => exact declared path List.mem_cons_self
  | a :: b :: rest, declared => exact .union declared

theorem indexCandidate_declared {columns : List ColumnDef} {constraints : ColumnConstraints J} {index : IndexDef}
    (listed : index ∈ indexes) {position : ℕ} {candidate : Candidate J}
    (made : indexCandidate index position constraints columns = some candidate) : candidate.path.Declared indexes := by
  unfold indexCandidate at made
  dsimp only at made
  split at made
  next => cases made
  next =>
    cases made
    refine AccessPath.fromScans_declared fun range member => ?_
    obtain ⟨begin, _, rfl⟩ := List.mem_map.mp member
    have own : index.columns ∈ indexes.map IndexDef.columns := List.mem_map_of_mem listed
    split <;> exact own

theorem orCandidate_declared {position : ℕ} {branches : List (Option (AccessPath J))}
    (declared : ∀ path, some path ∈ branches → path.Declared indexes) {candidate : Candidate J}
    (made : orCandidate position branches = some candidate) : candidate.path.Declared indexes := by
  obtain ⟨paths, planned, made⟩ := Option.bind_eq_some_iff.mp made
  dsimp only at made
  split at made
  next => cases made
  next =>
    cases made
    refine AccessPath.ofBranches_declared fun path kept => declared path ?_
    rw [mapM_id_some planned]
    exact List.mem_map_of_mem (List.mem_filter.mp kept).1

variable [LinearOrder J]

theorem planConjunction_declared {columns : List ColumnDef} {conjuncts : List (Filter J F)}
    {branches : List (Option (List (Option (AccessPath J))))}
    (declared : ∀ plans, some plans ∈ branches → ∀ path, some path ∈ plans → path.Declared indexes)
    {path : AccessPath J} (planned : planConjunction indexes columns conjuncts branches = some path) :
    path.Declared indexes := by
  unfold planConjunction at planned
  split at planned
  next =>
    cases planned
    exact .empty
  next constraints collected =>
    dsimp only at planned
    generalize sorted : ((indexes.zipIdx.filterMap fun index =>
        indexCandidate index.1 index.2 constraints columns) ++ branches.zipIdx.filterMap fun conjunct =>
          conjunct.1.bind fun plans => orCandidate (indexes.length + conjunct.2) plans).mergeSort
        (fun a b => decide (a.sortKey ≤ b.sortKey)) = candidates at planned
    have each : ∀ candidate ∈ candidates, candidate.path.Declared indexes := by
      intro candidate member
      rw [← sorted, List.mem_mergeSort, List.mem_append] at member
      rcases member with onIndex | onBranches
      · obtain ⟨index, listed, made⟩ := List.mem_filterMap.mp onIndex
        exact indexCandidate_declared (List.fst_mem_of_mem_zipIdx listed) made
      · obtain ⟨conjunct, listed, made⟩ := List.mem_filterMap.mp onBranches
        obtain ⟨plans, isOr, made⟩ := Option.bind_eq_some_iff.mp made
        exact orCandidate_declared (declared plans (isOr ▸ List.fst_mem_of_mem_zipIdx listed)) made
    split at planned
    next =>
      cases planned
      exact .empty
    next =>
      match candidates, each, planned with
      | first :: rest, each, planned =>
          dsimp only at planned
          have members : ∀ path ∈ selectMembers [] (first :: rest), path.Declared indexes := by
            intro path member
            obtain ⟨candidate, listed, rfl⟩ := selectMembers_mem member
            exact each candidate listed
          split at planned
          next =>
            cases planned
            exact each first List.mem_cons_self
          next =>
            split at planned
            next only same =>
              cases planned
              exact members path (same ▸ List.mem_singleton.mpr rfl)
            next =>
              cases planned
              exact .intersection members

theorem plans_declared {columns : List ColumnDef} (filter : Filter J F) :
    (∀ path, some path ∈ branchPlans indexes columns filter → path.Declared indexes) ∧
      ∀ plans, some plans ∈ conjunctPlans indexes columns filter → ∀ path, some path ∈ plans →
        path.Declared indexes := by
  have leaf : ∀ filter : Filter J F,
      (∀ path, some path ∈ [planConjunction indexes columns [filter] [none]] → path.Declared indexes) ∧
        ∀ plans, some plans ∈ ([none] : List (Option (List (Option (AccessPath J))))) → ∀ path, some path ∈ plans →
          path.Declared indexes := by
    intro filter
    refine ⟨fun path member => ?_, fun plans member => by cases List.mem_singleton.mp member⟩
    refine planConjunction_declared ?_ (List.mem_singleton.mp member).symm
    exact fun plans member => by cases List.mem_singleton.mp member
  induction filter with
  | or left right ihl ihr =>
      have declared : ∀ path, some path ∈ branchPlans indexes columns left ++ branchPlans indexes columns right →
          path.Declared indexes := fun path member =>
        (List.mem_append.mp member).elim (ihl.1 path) (ihr.1 path)
      refine ⟨declared, fun plans member => ?_⟩
      cases List.mem_singleton.mp member
      exact declared
  | and left right ihl ihr =>
      have declared : ∀ plans, some plans ∈ conjunctPlans indexes columns left ++ conjunctPlans indexes columns right →
          ∀ path, some path ∈ plans → path.Declared indexes := fun plans member =>
        (List.mem_append.mp member).elim (ihl.2 plans) (ihr.2 plans)
      refine ⟨fun path member => ?_, declared⟩
      exact planConjunction_declared declared (List.mem_singleton.mp member).symm
  | _ => exact leaf _

theorem planFilter_declared {columns : List ColumnDef} {filter : Filter J F} {path : AccessPath J}
    (planned : planFilter filter indexes columns = some path) : path.Declared indexes :=
  planConjunction_declared (plans_declared filter).2 planned

end Declared
end WasmDbms
