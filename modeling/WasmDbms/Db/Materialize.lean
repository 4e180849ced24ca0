import WasmDbms.Db.Executor

/-!
# The addresses of a path and its budget

Over indexes in key order the answer for a path has every address whose index entries lie
in the path, and no subtraction from the budget underflows.
-/
namespace WasmDbms
open Sorted Result

variable {J : Type} [LinearOrder J]

/-- `-=` on a `usize` that must not underflow. -/
def checkedSub (total spent : ℕ) : Option ℕ := if spent ≤ total then some (total - spent) else none

theorem checkedSub_eq {total spent : ℕ} (covered : spent ≤ total) : checkedSub total spent = some (total - spent) :=
  if_pos covered

section Checked
variable (ledger : IndexLedger J)

mutual
/-- `materialize` with checked subtractions; `none` when one of them underflows. -/
def materializeChecked : AccessPath J → Budget → Option (Except (DbmsError J) (Option (List RecordAddress) × Budget))
  | .empty, budget => some (.ok (some [], budget))
  | .scan scan, budget =>
      let limit := min budget.perScan budget.remaining
      match IndexReader.addresses ledger scan limit with
      | .error e => some (.error e)
      | .ok (some addresses) => (checkedSub budget.remaining addresses.length).map fun remaining =>
          .ok (some (sortDedup addresses), { budget with remaining })
      | .ok none => (checkedSub budget.remaining limit).map fun remaining => .ok (none, { budget with remaining })
  | .union paths, budget => materializeUnionChecked paths [] budget
  | .intersection paths, budget => materializeIntersectionChecked paths none budget
def materializeUnionChecked : List (AccessPath J) → List RecordAddress → Budget →
    Option (Except (DbmsError J) (Option (List RecordAddress) × Budget))
  | [], union, budget => some (.ok (some (sortDedup union), budget))
  | path :: paths, union, budget =>
      (materializeChecked path budget).bind fun answer =>
        match answer with
        | .error e => some (.error e)
        | .ok (some addresses, budget) => materializeUnionChecked paths (union ++ addresses) budget
        | .ok (none, budget) => some (.ok (none, budget))
def materializeIntersectionChecked : List (AccessPath J) → Option (List RecordAddress) → Budget →
    Option (Except (DbmsError J) (Option (List RecordAddress) × Budget))
  | [], current, budget => some (.ok (current, budget))
  | path :: paths, current, budget =>
      if current.any fun set => set.length ≤ smallCandidateSet then some (.ok (current, budget))
      else
        (materializeChecked path budget).bind fun answer =>
          match answer with
          | .error e => some (.error e)
          | .ok (some addresses, budget) =>
              materializeIntersectionChecked paths
                (some (current.elim addresses fun set => intersectSorted set addresses)) budget
          | .ok (none, budget) => materializeIntersectionChecked paths current budget
end

end Checked

variable {ledger : IndexLedger J}

/-- The index of the scan has an entry of the address whose key lies in the scan. -/
def IndexLedger.Holds (ledger : IndexLedger J) (scan : IndexScan J) (a : RecordAddress) : Prop :=
  ∃ entries, ledger.lookup scan.columns = .ok entries ∧ ∃ e ∈ entries, e.2 = a ∧ scan.holdsKey e.1 = true

section Ordered
variable (ordered : ∀ index ∈ ledger, KeyOrdered index.1 index.2)
include ordered

/-- A scan within its limit reads the addresses of its entries. -/
theorem IndexReader.mem_addresses_entries {scan : IndexScan J} {limit : ℕ} {found : List RecordAddress}
    (run : addresses ledger scan limit = .ok (some found)) {a : RecordAddress} : a ∈ found ↔ ledger.Holds scan a := by
  obtain ⟨entries, known⟩ := addresses_lookup run
  rw [addresses_eq known (ordered _ (IndexLedger.lookup_mem known))] at run
  split at run
  next => cases run
  next =>
    cases run
    constructor
    · intro member
      obtain ⟨e, inside, rfl⟩ := List.mem_map.mp member
      obtain ⟨there, holds⟩ := List.mem_filter.mp inside
      exact ⟨entries, known, e, there, rfl, holds⟩
    · rintro ⟨entries', known', e, there, rfl, holds⟩
      cases known.symm.trans known'
      exact List.mem_map_of_mem (List.mem_filter.mpr ⟨there, holds⟩)

theorem IndexReader.addresses_few {scan : IndexScan J} {limit : ℕ} {found : List RecordAddress}
    (run : addresses ledger scan limit = .ok (some found)) : found.length ≤ limit := by
  obtain ⟨entries, known⟩ := addresses_lookup run
  rw [addresses_eq known (ordered _ (IndexLedger.lookup_mem known))] at run
  split at run
  next => cases run
  next few =>
    cases run
    rw [List.length_map]
    exact not_lt.mp few

set_option linter.unusedSectionVars false in
mutual
/-- No subtraction underflows. -/
theorem materializeChecked_eq : ∀ (path : AccessPath J) (budget : Budget),
    materializeChecked ledger path budget = some (materialize ledger path budget)
  | .empty, _ => rfl
  | .scan scan, budget => by
      rw [materializeChecked, materialize]
      cases read : IndexReader.addresses ledger scan (min budget.perScan budget.remaining) with
      | error e => rfl
      | ok answer =>
          cases answer with
          | none =>
              dsimp only
              rw [checkedSub_eq (min_le_right _ _)]
              rfl
          | some found =>
              dsimp only
              rw [checkedSub_eq ((IndexReader.addresses_few ordered read).trans (min_le_right _ _))]
              rfl
  | .union paths, budget => materializeUnionChecked_eq paths [] budget
  | .intersection paths, budget => materializeIntersectionChecked_eq paths none budget

theorem materializeUnionChecked_eq : ∀ (paths : List (AccessPath J)) (union : List RecordAddress) (budget : Budget),
    materializeUnionChecked ledger paths union budget = some (materializeUnion ledger paths union budget)
  | [], _, _ => rfl
  | path :: paths, union, budget => by
      rw [materializeUnionChecked, materializeUnion, materializeChecked_eq path budget]
      cases materialize ledger path budget with
      | error e => rfl
      | ok answer =>
          obtain ⟨found, budget'⟩ := answer
          cases found with
          | none => rfl
          | some found => exact materializeUnionChecked_eq paths (union ++ found) budget'

theorem materializeIntersectionChecked_eq : ∀ (paths : List (AccessPath J)) (current : Option (List RecordAddress))
    (budget : Budget),
    materializeIntersectionChecked ledger paths current budget = some (materializeIntersection ledger paths current budget)
  | [], _, _ => rfl
  | path :: paths, current, budget => by
      rw [materializeIntersectionChecked, materializeIntersection, materializeChecked_eq path budget]
      split
      · rfl
      · cases materialize ledger path budget with
        | error e => rfl
        | ok answer =>
            obtain ⟨found, budget'⟩ := answer
            cases found with
            | none => exact materializeIntersectionChecked_eq paths current budget'
            | some found => exact materializeIntersectionChecked_eq paths _ budget'
end

/-- Whatever the budget, no subtraction from it underflows, and what is returned for a path is
the whole answer: in order, with every address whose entries lie in the path, and with no
other one where nothing is intersected. A path over the indexes raises no error. -/
theorem materialize_whole (path : AccessPath J) (budget : Budget) :
    materializeChecked ledger path budget = some (materialize ledger path budget) ∧
    (path.Declared (ledger.map fun index => ⟨index.1⟩) → ∃ answer, materialize ledger path budget = .ok answer) ∧
    ∀ addresses budget', materialize ledger path budget = .ok (some addresses, budget') →
      addresses.Pairwise (· < ·) ∧ (∀ a, path.Selects ledger.Holds a → a ∈ addresses) ∧
        (path.hasIntersection = false → ∀ a, a ∈ addresses ↔ path.Selects ledger.Holds a) := by
  refine ⟨materializeChecked_eq ordered path budget, ?_, fun addresses budget' run => ?_⟩
  · refine materialize_ok ordered ?_ path budget
    rw [List.map_map]
    rfl
  · have answers := materialize_answers (fun read => IndexReader.mem_addresses_entries ordered read) path run
    exact ⟨answers.sorted, answers.complete, fun plain a => ⟨answers.exact plain a, answers.complete a⟩⟩

end Ordered

/-! Two rows by age, and a path that reads one of them by its key and the other by a range. -/

def ages : IndexLedger ℕ := [(["age"], [([.uint32 4], ⟨1, 0⟩), ([.uint32 7], ⟨0, 0⟩)])]

def bothAges : AccessPath ℕ :=
  .union [.scan (.ofPrefix ["age"] [.uint32 4]), .scan (.range ["age"] [] (.excluded (.uint32 4)) .unbounded)]

theorem ages_ordered : ∀ index ∈ ages, KeyOrdered index.1 index.2 := by
  refine List.forall_mem_singleton.mpr ⟨?_, by decide⟩
  exact List.pairwise_pair.mpr (by decide)

theorem both_ages_read : materialize ages bothAges ⟨1, 2⟩ = .ok (some [⟨0, 0⟩, ⟨1, 0⟩], ⟨1, 0⟩) ∧
    ∀ a, a ∈ [(⟨0, 0⟩ : RecordAddress), ⟨1, 0⟩] ↔ bothAges.Selects ages.Holds a :=
  have run : materialize ages bothAges ⟨1, 2⟩ = .ok (some [⟨0, 0⟩, ⟨1, 0⟩], ⟨1, 0⟩) := rfl
  ⟨run, ((materialize_whole ages_ordered bothAges ⟨1, 2⟩).2.2 _ _ run).2.2 rfl⟩

end WasmDbms
