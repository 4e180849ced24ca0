import WasmDbms.Db.Conflict
import WasmDbms.Db.Executor
import WasmDbms.Lib.Distinct

/-!
# Selecting through an index

The candidates of an access path are the stored rows its indexes name and those the
transaction has changed. They are shown as the transaction sees them, followed by the
rows it has inserted, and each visible primary key is returned once.
-/
namespace WasmDbms
open Sorted Result Distinct

variable {J F : Type} [LinearOrder J]

/-- The primary keys of the updates of one of the columns. -/
def updatedKeys (columns : List String) (operations : List (Operation J)) : List (Value J) :=
  (operations.filterMap fun
    | .update key updates => if updates.any fun entry => entry.1.name ∈ columns then some key else none
    | _ => none).eraseDups

def TableDef.primaryKeyValue (table : TableDef J) (values : Row J) : Value J :=
  (findColumn table.primaryKey values).getD .null

/-- `read_at`. -/
def TableData.readAt (data : TableData J) (address : RecordAddress) : Except (DbmsError J) (Row J) :=
  match data.rows.find? fun x => x.1 == address with
  | some x => .ok x.2
  | none => .error (.memory (.decodeError .tooShort))

/-- The addresses of the path, with those of the stored rows the transaction updated. -/
def candidateAddresses (table : TableDef J) (ledger : IndexLedger J) (path : AccessPath J)
    (changes : Option (List (Operation J))) : Except (DbmsError J) (Option (List RecordAddress)) := do
  let (addresses, _) ← materialize ledger path {}
  match addresses, changes with
  | some addresses, some operations =>
      let keys := updatedKeys (table.primaryKey :: path.constrainedColumns) operations
      let found ← keys.mapM fun key => ledger.search [table.primaryKey] [key]
      return some (sortDedup (addresses ++ found.flatten))
  | addresses, _ => return addresses

/-- The row of a candidate, a stored record or an inserted row, as it can be seen. -/
def visibleRow (data : TableData J) (changes : Option (List (Operation J))) :
    RecordAddress ⊕ Row J → Except (DbmsError J) (Option (Row J))
  | .inl address => do
      let record ← data.readAt address
      match changes with
      | some operations => return replay record operations
      | none => return some record
  | .inr row => .ok (some row)

/-- The rows a scan visits. -/
def overlayReader (changes : Option (List (Operation J))) (stored : List (Row J)) : List (Row J) :=
  changes.elim stored fun operations => overlayRows operations stored

namespace Database
variable (db : Database J F)

/-- Whether a visible row is returned: a filter that can fail is evaluated on the rows of
the path only. -/
def verifies (planned : PlannedAccess J F) (legacy : Bool) (row : Row J) : Except (Failure J) Bool :=
  if legacy && !planned.path.matchesRow row then .ok false else db.recordMatchesFilter row planned.verify

/-- The two loops of `try_index_select`, over the candidates in turn. -/
def collectVisible (table : TableDef J) (data : TableData J) (changes : Option (List (Operation J)))
    (planned : PlannedAccess J F) (legacy : Bool) :
    List (Value J) → List (RecordAddress ⊕ Row J) → Except (Failure J) (List (Row J))
  | _, [] => .ok []
  | visibleKeys, candidate :: rest => do
      match ← Failure.lift (visibleRow data changes candidate) with
      | none => collectVisible table data changes planned legacy visibleKeys rest
      | some values =>
          let keep ← db.verifies planned legacy values
          let key := table.primaryKeyValue values
          if !keep || changes.isSome && key ∈ visibleKeys then
            collectVisible table data changes planned legacy visibleKeys rest
          else do
            let rows ← collectVisible table data changes planned legacy (key :: visibleKeys) rest
            return values :: rows

/-- The rows found through an index, or `none` when no index helps or the path is over
budget. -/
def tryIndexSelect (table : TableDef J) (filter : Filter J F) (data : TableData J)
    (changes : Option (List (Operation J))) : Except (Failure J) (Option (List (Row J))) :=
  match planAccess filter table.indexes table.columns with
  | none => .ok none
  | some planned => do
      match ← Failure.lift (candidateAddresses table data.indexes planned.path changes) with
      | none => return none
      | some addresses => do
          let candidates := addresses.map .inl ++ (iterInserted (changes.getD [])).map .inr
          let rows ← db.collectVisible table data changes planned filter.isFallible [] candidates
          return some rows

end Database

/-! ## The rows a transaction moves -/

/-- The updates assign typed values to columns of the table. -/
def TypedUpdates (table : TableDef J) (operations : List (Operation J)) : Prop :=
  ∀ key updates, .update key updates ∈ operations → Patches table updates

theorem mem_updatedKeys {columns : List String} {operations : List (Operation J)} {key : Value J} :
    key ∈ updatedKeys columns operations ↔
      ∃ updates, .update key updates ∈ operations ∧ ∃ entry ∈ updates, entry.1.name ∈ columns := by
  rw [updatedKeys, List.mem_eraseDups, List.mem_filterMap]
  constructor
  · rintro ⟨op, listed, found⟩
    cases op with
    | update key' updates =>
        dsimp only at found
        split at found
        next touched =>
          cases found
          obtain ⟨entry, member, named⟩ := List.any_eq_true.mp touched
          exact ⟨updates, listed, entry, member, of_decide_eq_true named⟩
        next => cases found
    | insert _ _ => cases found
    | delete _ => cases found
  · rintro ⟨updates, listed, entry, member, named⟩
    refine ⟨_, listed, ?_⟩
    dsimp only
    rw [if_pos (List.any_eq_true.mpr ⟨entry, member, decide_eq_true named⟩)]

section Replayed
variable {table : TableDef J} {operations : List (Operation J)} {row row' : Row J}

/-- A row that is still visible has been updated under its stored key, or its values in
the columns are the stored ones. -/
theorem replay_moves (columns : List String) (complete : Complete table row) (typed : TypedUpdates table operations)
    (keyed : table.primaryKey ∈ columns) {key : Value J} (own : primaryKeyOf row = some key)
    (run : replay row operations = some row') :
    Complete table row' ∧
      (key ∈ updatedKeys columns operations ∨ ∀ c ∈ columns, findColumn c row' = findColumn c row) := by
  induction operations generalizing row key with
  | nil =>
      cases (replay_nil complete).symm.trans run
      exact ⟨complete, .inr fun _ _ => rfl⟩
  | cons op rest ih =>
      have later : TypedUpdates table rest := fun k updates member => typed k updates (List.mem_cons_of_mem _ member)
      have widen : key ∈ updatedKeys columns rest → key ∈ updatedKeys columns (op :: rest) := by
        rw [mem_updatedKeys, mem_updatedKeys]
        exact fun ⟨updates, member, touched⟩ => ⟨updates, List.mem_cons_of_mem _ member, touched⟩
      by_cases here : op.primaryKeyValue = key
      case neg =>
        rw [replay_other own here] at run
        exact (ih complete later own run).imp_right fun moved => moved.imp_left widen
      case pos =>
        cases op with
        | insert _ _ =>
            rw [replay_removed own here fun _ same => by cases same] at run
            cases run
        | delete _ =>
            rw [replay_removed own here fun _ same => by cases same] at run
            cases run
        | update key' updates =>
            obtain rfl : key' = key := here
            have patches := typed key' updates List.mem_cons_self
            rw [replay_update complete patches own] at run
            have patched := complete.patched patches
            by_cases touched : ∃ entry ∈ updates, entry.1.name ∈ columns
            · obtain ⟨key'', own''⟩ := patched.key
              refine ⟨(ih patched later own'' run).1, .inl ?_⟩
              exact mem_updatedKeys.mpr ⟨updates, List.mem_cons_self, touched⟩
            · have same : ∀ c ∈ columns, findColumn c (patchValues updates row) = findColumn c row := by
                intro c listed
                have absent : findColumn c updates = none := by
                  refine findColumn_none fun member => touched ?_
                  obtain ⟨entry, given, rfl⟩ := List.mem_map.mp member
                  exact ⟨entry, given, listed⟩
                rw [complete.findColumn_patch patches, absent]
                exact Option.map_id'
              have own' : primaryKeyOf (patchValues updates row) = some key' := by
                rw [patched.primaryKeyOf_eq, same _ keyed, ← complete.primaryKeyOf_eq, own]
              obtain ⟨complete', moved⟩ := ih patched later own' run
              refine ⟨complete', moved.imp widen fun kept c listed => ?_⟩
              rw [kept c listed, same c listed]

end Replayed

omit [LinearOrder J] in
theorem IndexScan.take_subset {scan : IndexScan J} {n : ℕ}
    (deep : n ≤ scan.keyPrefix.length ∨ n ≤ scan.keyPrefix.length + 1 ∧ ¬ (scan.lower = .unbounded ∧ scan.upper = .unbounded)) :
    scan.columns.take n ⊆ scan.constrainedColumns := by
  refine fun c member => (?_ : c ∈ List.take _ scan.columns)
  have bounded : c ∈ scan.columns.take (min n scan.columns.length) := by
    rwa [← List.take_length (l := scan.columns), List.take_take] at member
  refine (List.take_sublist_take_left (min_le_min_right _ ?_)).subset bounded
  rcases deep with begins | ⟨ranged, bound⟩
  · exact begins.trans (Nat.le_add_right _ _)
  · split
    next low high => exact absurd ⟨low, high⟩ bound
    next => exact ranged

/-- A scan holds a row that agrees with one of its rows on the columns it constrains. -/
theorem IndexScan.holdsKey_congr {scan : IndexScan J} {row row' : Row J}
    (same : ∀ c ∈ scan.constrainedColumns, findColumn c row' = findColumn c row)
    (holds : scan.holdsKey (indexKey scan.columns row') = true) : scan.holdsKey (indexKey scan.columns row) = true := by
  have agree : ∀ n, scan.columns.take n ⊆ scan.constrainedColumns →
      (indexKey scan.columns row').take n = (indexKey scan.columns row).take n := by
    intro n sub
    rw [indexKey, indexKey, ← List.map_take, ← List.map_take]
    refine List.map_congr_left fun c member => ?_
    rw [same c (sub member)]
  have length : (indexKey scan.columns row).length = scan.columns.length := List.length_map _
  have length' : (indexKey scan.columns row').length = scan.columns.length := List.length_map _
  have begins := agree scan.keyPrefix.length (take_subset (.inl (Nat.le_refl _)))
  unfold holdsKey at holds ⊢
  cases exact_ : scan.isExact with
  | true =>
      have long : scan.columns.length ≤ scan.keyPrefix.length := of_decide_eq_true exact_
      rw [exact_, if_pos rfl] at holds
      rw [List.take_of_length_le (length' ▸ long), List.take_of_length_le (length ▸ long)] at begins
      rw [if_pos rfl, ← begins]
      exact holds
  | false =>
      have short : scan.keyPrefix.length < scan.columns.length := not_le.mp (of_decide_eq_false exact_)
      rw [exact_, if_neg Bool.false_ne_true] at holds
      rw [if_neg Bool.false_ne_true, ← begins]
      refine Bool.and_eq_true_iff.mpr ((Bool.and_eq_true_iff.mp holds).imp_right fun admitted => ?_)
      by_cases free : scan.lower = .unbounded ∧ scan.upper = .unbounded
      · rw [List.getElem?_eq_getElem (length ▸ short), Option.any_some, admits, free.1, free.2]
        rfl
      · have deep := agree (scan.keyPrefix.length + 1) (take_subset (.inr ⟨Nat.le_refl _, free⟩))
        have component := congrArg (fun key => key[scan.keyPrefix.length]?) deep
        simp only [List.getElem?_take, Nat.lt_succ_self, if_true] at component
        rw [← component]
        exact admitted

omit [LinearOrder J] in
theorem mem_allConstrainedColumns {paths : List (AccessPath J)} {path : AccessPath J} (member : path ∈ paths) :
    path.constrainedColumns ⊆ AccessPath.allConstrainedColumns paths := by
  induction paths with
  | nil => cases member
  | cons first rest ih =>
      rw [AccessPath.allConstrainedColumns]
      rcases List.mem_cons.mp member with rfl | later
      · exact List.subset_append_left _ _
      · exact List.Subset.trans (ih later) (List.subset_append_right _ _)

theorem AccessPath.Covers.congr {path : AccessPath J} {row row' : Row J} (covers : path.Covers row')
    (same : ∀ c ∈ path.constrainedColumns, findColumn c row' = findColumn c row) : path.Covers row := by
  induction covers with
  | scan holds => exact .scan (IndexScan.holdsKey_congr same holds)
  | union member _ ih => exact .union member (ih fun c listed => same c (mem_allConstrainedColumns member listed))
  | intersection _ ih =>
      exact .intersection fun path member => ih path member fun c listed =>
        same c (mem_allConstrainedColumns member listed)


/-! ## The candidates -/

/-- What is seen of a stored row. -/
def shownRow (changes : Option (List (Operation J))) (row : Row J) : Option (Row J) :=
  match changes with
  | some operations => replay row operations
  | none => some row

section Candidates
variable {table : TableDef J} {data : TableData J} (stored : Stored table data)
  {changes : Option (List (Operation J))} (typed : ∀ operations, changes = some operations → TypedUpdates table operations)
  {path : AccessPath J}
include stored

theorem Stored.search_ok (keyIndexed : ⟨[table.primaryKey]⟩ ∈ table.indexes) (key : Value J) :
    ∃ found, data.indexes.search [table.primaryKey] [key] = .ok found := by
  obtain ⟨entries, known⟩ := IndexLedger.lookup_ok stored.indexed.1 (List.mem_map_of_mem keyIndexed)
  exact ⟨_, by rw [IndexLedger.search, known]; rfl⟩

/-- A search finds the addresses of the rows with the key. -/
theorem Stored.mem_search {columns : List String} {key : List (Value J)} {found : List RecordAddress}
    (run : data.indexes.search columns key = .ok found) {a : RecordAddress} :
    a ∈ found ↔ ∃ x ∈ data.rows, x.1 = a ∧ indexKey columns x.2 = key := by
  obtain ⟨entries, known, run⟩ := bind_eq_ok.mp run
  cases run
  have index := IndexLedger.lookup_index stored.indexed.2 known
  rw [List.mem_map]
  constructor
  · rintro ⟨e, listed, rfl⟩
    obtain ⟨inside, same⟩ := List.mem_filter.mp listed
    obtain ⟨x, member, rfl⟩ := List.mem_map.mp (index.perm.mem_iff.mp inside)
    exact ⟨x, member, rfl, of_decide_eq_true same⟩
  · rintro ⟨x, member, rfl, rfl⟩
    refine ⟨_, List.mem_filter.mpr ⟨index.perm.mem_iff.mpr (List.mem_map_of_mem member), ?_⟩, rfl⟩
    exact decide_eq_true rfl

theorem candidateAddresses_ok (keyIndexed : ⟨[table.primaryKey]⟩ ∈ table.indexes)
    (declared : path.Declared table.indexes) :
    ∃ answer, candidateAddresses table data.indexes path changes = .ok answer := by
  obtain ⟨⟨addresses, budget⟩, read⟩ := materialize_ok (fun index listed => (stored.indexed.2 index listed).ordered) stored.indexed.1 path {} declared
  rw [candidateAddresses, read]
  cases addresses with
  | none => exact ⟨_, rfl⟩
  | some addresses =>
      cases changes with
      | none => exact ⟨_, rfl⟩
      | some operations =>
          obtain ⟨found, searched⟩ := mapM_ok (l := updatedKeys (table.primaryKey :: path.constrainedColumns) operations)
            fun key _ => stored.search_ok keyIndexed key
          dsimp only [bind, Except.bind]
          rw [searched]
          exact ⟨_, rfl⟩

include typed

/-- The candidates are addresses of stored rows, in order, and hold every row that is
seen in the path. -/
theorem candidateAddresses_spec (keyIndexed : ⟨[table.primaryKey]⟩ ∈ table.indexes) {addresses : List RecordAddress}
    (run : candidateAddresses table data.indexes path changes = .ok (some addresses)) :
    addresses.Pairwise (· < ·) ∧ (∀ a ∈ addresses, a ∈ data.rows.map Prod.fst) ∧
      ∀ x ∈ data.rows, ∀ row, shownRow changes x.2 = some row → path.Covers row → x.1 ∈ addresses := by
  obtain ⟨⟨answer, budget⟩, read, run⟩ := bind_eq_ok.mp run
  cases answer with
  | none => cases run
  | some base =>
      have part := materialize_spec stored.indexed.2 read
      cases changes with
      | none =>
          cases run
          refine ⟨part.sorted, part.stored, fun x listed row seen covers => ?_⟩
          cases seen
          exact part.covered x listed covers
      | some operations =>
          obtain ⟨found, searched, run⟩ := bind_eq_ok.mp run
          cases run
          refine ⟨sortDedup_sorted _, fun a member => ?_, fun x listed row seen covers => ?_⟩
          · rcases List.mem_append.mp (mem_sortDedup.mp member) with inPath | moved
            · exact part.stored a inPath
            · obtain ⟨some_, listed, inside⟩ := List.mem_flatten.mp moved
              obtain ⟨key, _, search⟩ := (mem_mapM searched).mp listed
              obtain ⟨x, stored, rfl, _⟩ := (stored.mem_search search).mp inside
              exact List.mem_map_of_mem stored
          · have complete := (stored.rows x listed).complete
            obtain ⟨key, own⟩ := complete.key
            obtain ⟨_, moved | kept⟩ := replay_moves (table.primaryKey :: path.constrainedColumns) complete
              (typed operations rfl) List.mem_cons_self own seen
            · obtain ⟨own_, search⟩ := stored.search_ok keyIndexed key
              refine mem_sortDedup.mpr (List.mem_append_right _ (List.mem_flatten.mpr ⟨own_, ?_, ?_⟩))
              · exact (mem_mapM searched).mpr ⟨key, moved, search⟩
              · refine (stored.mem_search search).mpr ⟨x, listed, rfl, ?_⟩
                rw [indexKey, List.map_singleton, ← complete.primaryKeyOf_eq, own]
                rfl
            · refine mem_sortDedup.mpr (List.mem_append_left _ (part.covered x listed ?_))
              exact covers.congr fun c member => kept c (List.mem_cons_of_mem _ member)

end Candidates

/-! ## The index path and the scan -/

omit [LinearOrder J] in
theorem Complete.typedIn {table : TableDef J} {row : Row J} (complete : Complete table row) :
    TypedIn table.columns row := by
  intro name v definition found known
  obtain ⟨entry, member, rfl, rfl⟩ := mem_of_findColumn found
  have same : definition.name = entry.1.name := by simpa using List.find?_some known
  have listed := List.mem_of_find?_eq_some known
  rw [List.inj_on_of_nodup_map table.columnNames listed (complete.column member) same]
  exact complete.typed entry member

omit [LinearOrder J] in
theorem TableData.readAt_eq {data : TableData J} (addresses : (data.rows.map Prod.fst).Nodup)
    {x : RecordAddress × Row J} (listed : x ∈ data.rows) : data.readAt x.1 = .ok x.2 := by
  unfold readAt
  cases search : data.rows.find? fun other => other.1 == x.1 with
  | none => exact absurd (List.find?_eq_none.mp search x listed) (by simp)
  | some found =>
      have same : found.1 = x.1 := by simpa using List.find?_some search
      rw [List.inj_on_of_nodup_map addresses (List.mem_of_find?_eq_some search) listed same]

/-- Rows that are not candidates do not match. -/
theorem filterMap_filter_filter {α β : Type} {l : List α} {p : α → Bool} {show_ : α → Option β} {q : β → Bool}
    (kept : ∀ x ∈ l, ∀ y, show_ x = some y → q y = true → p x = true) :
    ((l.filter p).filterMap show_).filter q = (l.filterMap show_).filter q := by
  induction l with
  | nil => rfl
  | cons x rest ih =>
      rw [List.forall_mem_cons] at kept
      have rest := ih kept.2
      cases chosen : p x with
      | true =>
          rw [List.filter_cons_of_pos chosen, List.filterMap_cons, List.filterMap_cons]
          split
          · exact rest
          · rw [List.filter_cons, List.filter_cons, rest]
      | false =>
          rw [List.filter_cons_of_neg (by rw [chosen]; exact Bool.false_ne_true), rest, List.filterMap_cons]
          split
          · rfl
          next y seen =>
            have out : ¬ q y = true := fun matches_ => Bool.false_ne_true (chosen.symm.trans (kept.1 y seen matches_))
            rw [List.filter_cons_of_neg out]

/-- The row of a candidate that can be read. -/
def candidateRow (data : TableData J) (changes : Option (List (Operation J))) (candidate : RecordAddress ⊕ Row J) :
    Option (Row J) :=
  (visibleRow data changes candidate).toOption.join

section CandidateRows
variable {data : TableData J} {changes : Option (List (Operation J))} (distinct : (data.rows.map Prod.fst).Nodup)
include distinct

theorem visibleRow_stored {x : RecordAddress × Row J} (listed : x ∈ data.rows) :
    visibleRow data changes (.inl x.1) = .ok (shownRow changes x.2) := by
  rw [visibleRow, TableData.readAt_eq distinct listed]
  cases changes <;> rfl

variable {addresses : List RecordAddress} (inRows : ∀ a ∈ addresses, a ∈ data.rows.map Prod.fst)
include inRows

theorem visibleRow_candidate {inserted : List (Row J)} :
    ∀ c ∈ addresses.map .inl ++ inserted.map .inr, visibleRow data changes c = .ok (candidateRow data changes c) := by
  intro c member
  rcases List.mem_append.mp member with isStored | isInserted
  · obtain ⟨a, listed, rfl⟩ := List.mem_map.mp isStored
    obtain ⟨x, there, rfl⟩ := List.mem_map.mp (inRows a listed)
    rw [candidateRow, visibleRow_stored distinct there]
    rfl
  · obtain ⟨row, _, rfl⟩ := List.mem_map.mp isInserted
    rfl

theorem candidateRows_perm (nodup : addresses.Nodup) :
    ((addresses.map .inl).filterMap (candidateRow data changes)).Perm
      ((data.rows.filter fun x => x.1 ∈ addresses).filterMap fun x => shownRow changes x.2) := by
  have same : addresses.Perm ((data.rows.filter fun x => x.1 ∈ addresses).map Prod.fst) := by
    refine (List.perm_ext_iff_of_nodup nodup (distinct.sublist (List.filter_sublist.map _))).mpr fun a => ?_
    constructor
    · intro member
      obtain ⟨x, listed, rfl⟩ := List.mem_map.mp (inRows a member)
      exact List.mem_map_of_mem (List.mem_filter.mpr ⟨listed, decide_eq_true member⟩)
    · intro member
      obtain ⟨x, listed, rfl⟩ := List.mem_map.mp member
      exact of_decide_eq_true (List.mem_filter.mp listed).2
  refine ((same.map Sum.inl).filterMap _).trans (.of_eq ?_)
  rw [List.map_map, List.filterMap_map]
  refine List.filterMap_congr fun x member => ?_
  change candidateRow data changes (.inl x.1) = _
  rw [candidateRow, visibleRow_stored distinct (List.mem_filter.mp member).1]
  rfl

end CandidateRows

/-- The rows that are returned: in a transaction each primary key once. -/
def returnedRows (table : TableDef J) (changes : Option (List (Operation J))) (seen : List (Value J))
    (rows : List (Row J)) : List (Row J) :=
  if changes.isSome then firstOfEach table.primaryKeyValue seen rows else rows

/-- No row is left out when the keys are distinct, and only then. -/
theorem returnedRows_perm_iff {table : TableDef J} {changes : Option (List (Operation J))} {rows scanned : List (Row J)}
    (perm : rows.Perm scanned) : (returnedRows table changes [] rows).Perm scanned ↔
      (changes.isSome → (scanned.map table.primaryKeyValue).Nodup) := by
  unfold returnedRows
  cases inside : changes.isSome with
  | false => exact ⟨fun _ no => Bool.noConfusion no, fun _ => perm⟩
  | true =>
      rw [if_pos rfl, firstOfEach_perm_iff perm]
      exact ⟨fun distinct _ => distinct, fun distinct => distinct rfl⟩

section Select
variable (db : Database J F) {table : TableDef J} {data : TableData J} {changes : Option (List (Operation J))}

theorem overlayReader_eq {stored : List (Row J)} :
    overlayReader changes stored = stored.filterMap (shownRow changes) ++ iterInserted (changes.getD []) := by
  cases changes with
  | some operations => rfl
  | none => exact ((List.append_nil _).trans (List.filterMap_some)).symm

variable {db} in
/-- The loops over the candidates, for a filter that raises no error. -/
theorem collectVisible_eq {planned : PlannedAccess J F} {test : Row J → Bool}
    (checks : ∀ row, db.verifies planned false row = .ok (test row)) {candidates : List (RecordAddress ⊕ Row J)}
    {show_ : RecordAddress ⊕ Row J → Option (Row J)}
    (shown : ∀ c ∈ candidates, visibleRow data changes c = .ok (show_ c)) (seen : List (Value J)) :
    db.collectVisible table data changes planned false seen candidates =
      .ok (returnedRows table changes seen ((candidates.filterMap show_).filter test)) := by
  induction candidates generalizing seen with
  | nil =>
      unfold returnedRows
      split <;> rfl
  | cons candidate rest ih =>
      obtain ⟨first, later⟩ := List.forall_mem_cons.mp shown
      rw [Database.collectVisible, first, List.filterMap_cons]
      cases visible : show_ candidate with
      | none => exact ih later seen
      | some row =>
          dsimp only [Failure.lift, bind, Except.bind]
          rw [checks row]
          dsimp only
          cases keep : test row with
          | false =>
              rw [List.filter_cons_of_neg (by rw [keep]; exact Bool.false_ne_true)]
              exact ih later seen
          | true =>
              rw [List.filter_cons_of_pos keep]
              unfold returnedRows at ih ⊢
              cases inside : changes.isSome with
              | false =>
                  simp only [inside, Bool.false_and, Bool.not_true, Bool.or_false, Bool.false_eq_true, if_false] at ih ⊢
                  rw [ih later]
                  rfl
              | true =>
                  simp only [inside, Bool.true_and, Bool.not_true, Bool.false_or, decide_eq_true_eq, if_true] at ih ⊢
                  rw [firstOfEach]
                  split
                  · exact ih later seen
                  · rw [ih later]
                    rfl

variable {filter : Filter J F} (stored : Stored table data) (keyIndexed : ⟨[table.primaryKey]⟩ ∈ table.indexes)
  (typed : ∀ operations, changes = some operations → TypedUpdates table operations) (safe : filter.isFallible = false)
include stored keyIndexed typed safe

/-- Whenever the index path is taken, it returns the rows of the scan, in a transaction
one for each primary key. -/
theorem tryIndexSelect_spec :
    ∃ scanned, db.selectMatching (some filter) (overlayReader changes (data.rows.map Prod.snd)) = .ok scanned ∧
      ∃ answer, db.tryIndexSelect table filter data changes = .ok answer ∧
        ∀ found, answer = some found → ∃ rows, rows.Perm scanned ∧ found = returnedRows table changes [] rows := by
  have total : ∀ row, ∃ b, filter.matches db.predicates row = .ok b := fun row => Filter.matches_ok safe
  choose test evaluates using total
  refine ⟨_, selectMatching_eq fun row _ => evaluates row, ?_⟩
  unfold Database.tryIndexSelect
  rw [planAccess, safe, if_neg Bool.false_ne_true]
  cases planned : planFilter filter table.indexes table.columns with
  | none => exact ⟨none, rfl, fun _ none_ => by cases none_⟩
  | some path =>
      dsimp only [Option.map_some]
      have reads : ∃ answer, candidateAddresses table data.indexes path changes = .ok answer :=
        candidateAddresses_ok stored keyIndexed (planFilter_declared planned)
      obtain ⟨answer, read⟩ := reads
      rw [read]
      cases answer with
      | none => exact ⟨none, rfl, fun _ none_ => by cases none_⟩
      | some addresses =>
          obtain ⟨sorted, inRows, covered⟩ := candidateAddresses_spec stored typed keyIndexed read
          have checks : ∀ row, db.verifies ⟨path, some filter⟩ false row = .ok (test row) := fun row =>
            recordMatchesFilter_eq (evaluates row)
          have shown : ∀ c ∈ addresses.map .inl ++ (iterInserted (changes.getD [])).map .inr,
              visibleRow data changes c = .ok (candidateRow data changes c) :=
            visibleRow_candidate stored.addresses inRows
          have run : db.collectVisible table data changes ⟨path, some filter⟩ false [] _ = _ :=
            collectVisible_eq checks shown []
          dsimp only [Failure.lift, bind, Except.bind]
          rw [run]
          refine ⟨_, rfl, fun found same => ⟨_, ?_, (Option.some.inj same).symm⟩⟩
          -- candidates that are left out do not match
          have matching : ((data.rows.filter fun x => x.1 ∈ addresses).filterMap fun x => shownRow changes x.2).filter test =
              (data.rows.filterMap fun x => shownRow changes x.2).filter test := by
            refine filterMap_filter_filter fun x listed row seen holds => decide_eq_true (covered x listed row seen ?_)
            have complete : Complete table row := by
              have whole := (stored.rows x listed).complete
              cases changes with
              | none =>
                  cases seen
                  exact whole
              | some operations =>
                  obtain ⟨key, own⟩ := whole.key
                  exact (replay_moves [table.primaryKey] whole (typed operations rfl) List.mem_cons_self own
                    seen).1
            have matches_ : filter.matches db.predicates row = .ok true := by rw [evaluates row, holds]
            exact planFilter_covers complete.typedIn complete.names matches_ planned
          have fromStore : (((addresses.map .inl).filterMap (candidateRow data changes)).filter test).Perm _ :=
            ((candidateRows_perm stored.addresses inRows (nodup_of_sorted sorted)).filter test).trans (.of_eq matching)
          have inserted : ((iterInserted (changes.getD [])).map .inr).filterMap (candidateRow data changes) =
              iterInserted (changes.getD []) := by
            rw [List.filterMap_map]
            exact List.filterMap_some
          have view : (data.rows.map Prod.snd).filterMap (shownRow changes) =
              data.rows.filterMap fun x => shownRow changes x.2 := List.filterMap_map
          rw [overlayReader_eq, List.filterMap_append, List.filter_append, List.filter_append, inserted, view]
          exact fromStore.append_right _

/-- A select in a transaction that takes the index path returns rows of the overlay scan,
one for each visible primary key: all of them if and only if their keys are distinct. -/
theorem index_select_agrees :
    ∃ scanned, db.selectMatching (some filter) (overlayReader changes (data.rows.map Prod.snd)) = .ok scanned ∧
      ∃ answer, db.tryIndexSelect table filter data changes = .ok answer ∧
        ∀ found, answer = some found → found.Subperm scanned ∧
          (∀ row ∈ scanned, table.primaryKeyValue row ∈ found.map table.primaryKeyValue) ∧
          (changes.isSome → (found.map table.primaryKeyValue).Nodup) ∧
          (found.Perm scanned ↔ changes.isSome → (scanned.map table.primaryKeyValue).Nodup) := by
  obtain ⟨scanned, scan, answer, run, found⟩ := tryIndexSelect_spec db stored keyIndexed typed safe
  refine ⟨scanned, scan, answer, run, fun rows same => ?_⟩
  obtain ⟨visited, perm, rfl⟩ := found rows same
  have keys : ∀ row ∈ scanned, table.primaryKeyValue row ∈ visited.map table.primaryKeyValue := fun row member =>
    List.mem_map_of_mem (perm.mem_iff.mpr member)
  refine ⟨?_, ?_, ?_, returnedRows_perm_iff perm⟩ <;> unfold returnedRows <;> cases inside : changes.isSome
  · exact perm.subperm
  · exact firstOfEach_sublist.subperm.trans perm.subperm
  · exact keys
  · exact fun row member => mem_keys.mpr ⟨keys row member, List.not_mem_nil⟩
  · exact fun no => Bool.noConfusion no
  · exact fun _ => keys_nodup

end Select

/-! ## The rows that are returned are visible -/

section Shown
variable {db : Database J F} {table : TableDef J} {data : TableData J} {changes : Option (List (Operation J))}

theorem collectVisible_visible {planned : PlannedAccess J F} {legacy : Bool} {seen : List (Value J)}
    {candidates : List (RecordAddress ⊕ Row J)} {rows : List (Row J)}
    (run : db.collectVisible table data changes planned legacy seen candidates = .ok rows) :
    ∀ row ∈ rows, ∃ c ∈ candidates, visibleRow data changes c = .ok (some row) := by
  induction candidates generalizing seen rows with
  | nil =>
      cases run
      exact fun _ member => absurd member List.not_mem_nil
  | cons candidate rest ih =>
      have later : ∀ {seen rows}, db.collectVisible table data changes planned legacy seen rest = .ok rows →
          ∀ row ∈ rows, ∃ c ∈ candidate :: rest, visibleRow data changes c = .ok (some row) :=
        fun run row member => (ih run row member).imp fun _ => And.imp_left (List.mem_cons_of_mem _)
      rw [Database.collectVisible] at run
      obtain ⟨answer, visible, run⟩ := bind_eq_ok.mp run
      have shown := Failure.lift_eq_ok.mp visible
      cases answer with
      | none => exact later run
      | some values =>
          obtain ⟨keep, _, run⟩ := bind_eq_ok.mp run
          dsimp only at run
          split at run
          · exact later run
          · obtain ⟨others, found, run⟩ := bind_eq_ok.mp run
            cases run
            refine List.forall_mem_cons.mpr ⟨⟨candidate, List.mem_cons_self, shown⟩, later found⟩

theorem visibleRow_shown {c : RecordAddress ⊕ Row J} {row : Row J}
    (listed : ∀ inserted, c = .inr inserted → inserted ∈ iterInserted (changes.getD []))
    (visible : visibleRow data changes c = .ok (some row)) : row ∈ overlayReader changes (data.rows.map Prod.snd) := by
  cases c with
  | inr inserted =>
      cases visible
      have inside := listed row rfl
      cases changes with
      | none => cases inside
      | some operations => exact List.mem_append_right _ inside
  | inl address =>
      obtain ⟨record, read, visible⟩ := bind_eq_ok.mp visible
      have there : record ∈ data.rows.map Prod.snd := by
        unfold TableData.readAt at read
        split at read
        next x found =>
          cases read
          exact List.mem_map_of_mem (List.mem_of_find?_eq_some found)
        next => cases read
      cases changes with
      | none =>
          cases visible
          exact there
      | some operations =>
          refine List.mem_append_left _ (List.mem_filterMap.mpr ⟨record, there, ?_⟩)
          exact Except.ok.inj visible

/-- The rows of an index path are among those of the overlay, whatever the filter. -/
theorem tryIndexSelect_shown {filter : Filter J F} {rows : List (Row J)}
    (run : db.tryIndexSelect table filter data changes = .ok (some rows)) :
    ∀ row ∈ rows, row ∈ overlayReader changes (data.rows.map Prod.snd) := by
  unfold Database.tryIndexSelect at run
  split at run
  next => cases run
  next planned _ =>
    obtain ⟨answer, _, run⟩ := bind_eq_ok.mp run
    cases answer with
    | none => cases run
    | some addresses =>
        obtain ⟨found, visited, run⟩ := bind_eq_ok.mp run
        cases run
        intro row member
        obtain ⟨c, inside, visible⟩ := collectVisible_visible visited row member
        refine visibleRow_shown (fun inserted same => ?_) visible
        subst same
        rcases List.mem_append.mp inside with isStored | isInserted
        · obtain ⟨_, _, same⟩ := List.mem_map.mp isStored
          cases same
        · obtain ⟨_, listed, same⟩ := List.mem_map.mp isInserted
          cases same
          exact listed

/-- The rows of the overlay have the columns of the table. -/
theorem overlayReader_complete (stored : Stored table data)
    (typed : ∀ operations, changes = some operations → Changes table operations) :
    ∀ row ∈ overlayReader changes (data.rows.map Prod.snd), Complete table row := by
  have records : ∀ row ∈ data.rows.map Prod.snd, Complete table row := by
    intro row member
    obtain ⟨x, listed, rfl⟩ := List.mem_map.mp member
    exact (stored.rows x listed).complete
  cases changes with
  | none => exact records
  | some operations => exact fun row member => overlayRows_complete records (typed operations rfl) member

end Shown

/-! ## Two items under one key -/

namespace Items

/-- Two items. -/
def pair : TableData ℕ :=
  ⟨[(⟨0, 0⟩, item 1 "a"), (⟨1, 0⟩, item 2 "b")], [(["id"], [([.uint32 1], ⟨0, 0⟩), ([.uint32 2], ⟨1, 0⟩)])]⟩

theorem pair_stored : Stored table pair := by
  refine ⟨fun x member => ?_, by decide, rfl, fun index member => ?_⟩
  · rcases List.mem_cons.mp member with rfl | member
    · exact ⟨rfl, fun entry listed => by
        rcases List.mem_cons.mp listed with rfl | listed
        · exact .inl rfl
        · obtain rfl := List.mem_singleton.mp listed
          exact .inl rfl⟩
    · obtain rfl := List.mem_singleton.mp member
      exact ⟨rfl, fun entry listed => by
        rcases List.mem_cons.mp listed with rfl | listed
        · exact .inl rfl
        · obtain rfl := List.mem_singleton.mp listed
          exact .inl rfl⟩
  · obtain rfl := List.mem_singleton.mp member
    exact ⟨by decide, .refl _⟩

theorem pair_complete : ∀ row ∈ pair.rows.map Prod.snd, Complete table row := by
  intro row member
  obtain ⟨x, listed, rfl⟩ := List.mem_map.mp member
  exact (pair_stored.rows x listed).complete

/-- The key 3 is given to the items. -/
def renumbered (items : List (Value ℕ × Row ℕ)) : Transaction ℕ Empty :=
  Transaction.new.update table [(id, .uint32 3)] items

theorem renumbered_typed {items : List (Value ℕ × Row ℕ)} : TypedUpdates table ((renumbered items).overlay "items") := by
  intro key updates member
  obtain ⟨row, _, same⟩ := List.mem_map.mp member
  cases same
  refine ⟨List.nodup_singleton _, fun entry listed => ?_, fun entry listed => ?_⟩
  · obtain rfl := List.mem_singleton.mp listed
    exact List.mem_cons_self
  · obtain rfl := List.mem_singleton.mp listed
    exact .inl rfl

theorem plan_key (key : UInt32) : planFilter (.eq "id" (.uint32 key) : Filter ℕ Empty) table.indexes table.columns =
    some (.scan (.ofPrefix ["id"] [.uint32 key])) := by
  have collected : ColumnConstraints.collect [(.eq "id" (.uint32 key) : Filter ℕ Empty)] =
      some [("id", { eq := some (.uint32 key) })] := rfl
  have onIndex : (table.indexes.zipIdx.filterMap fun index =>
      indexCandidate index.1 index.2 [("id", ({ eq := some (.uint32 key) } : ColumnConstraint ℕ))] table.columns) =
      [⟨.uniqueExact, 0, ["id"], .scan (.ofPrefix ["id"] [.uint32 key])⟩] := rfl
  have onBranches : ([none].zipIdx.filterMap fun conjunct : Option (List (Option (AccessPath ℕ))) × ℕ =>
      conjunct.1.bind fun plans => orCandidate (table.indexes.length + conjunct.2) plans) = [] := rfl
  change planConjunction table.indexes table.columns [(.eq "id" (.uint32 key) : Filter ℕ Empty)] [none] = _
  unfold planConjunction
  rw [collected]
  dsimp only
  rw [onIndex, onBranches, List.append_nil, List.mergeSort_singleton]
  rfl

/-- An item is found under the key it has been given. -/
theorem index_select_finds_moved : ∃ found,
    db.tryIndexSelect table (.eq "id" (.uint32 3)) pair
      (some ((renumbered [(.uint32 1, item 1 "a")]).overlay "items")) = .ok (some found) ∧
    found.Perm [item 3 "a"] := by
  have safe : (Filter.eq "id" (.uint32 3) : Filter ℕ Empty).isFallible = false := rfl
  have typed : ∀ operations, some ((renumbered [(.uint32 1, item 1 "a")]).overlay "items") = some operations →
      TypedUpdates table operations := fun _ same => Option.some.inj same ▸ renumbered_typed
  obtain ⟨scanned, scan, answer, run, agrees⟩ := index_select_agrees db pair_stored (List.mem_singleton.mpr rfl) typed safe
  obtain rfl : scanned = [item 3 "a"] := (Except.ok.inj scan).symm
  have taken : db.tryIndexSelect table (.eq "id" (.uint32 3)) pair
      (some ((renumbered [(.uint32 1, item 1 "a")]).overlay "items")) = .ok (some [item 3 "a"]) := by
    unfold Database.tryIndexSelect planAccess
    rw [plan_key]
    rfl
  refine ⟨_, taken, ?_⟩
  cases run.symm.trans taken
  exact (agrees _ rfl).2.2.2.mpr fun _ => List.nodup_singleton _

/-- The path over the primary key returns one of two rows that have been given it. -/
theorem index_select_drops_row :
    (∃ ctx, (⟨fun _ => pair, fun _ => some .new, 1⟩ : Context ℕ Empty).perform db 1
        (.update (some 0) table [(id, .uint32 3)] none) = .ok (2, ctx) ∧
      ctx.transactions 0 = some (renumbered [(.uint32 1, item 1 "a"), (.uint32 2, item 2 "b")])) ∧
    db.tryIndexSelect table (.eq "id" (.uint32 3)) pair
      (some ((renumbered [(.uint32 1, item 1 "a"), (.uint32 2, item 2 "b")]).overlay "items")) =
        .ok (some [item 3 "a"]) ∧
    db.selectMatching (some (.eq "id" (.uint32 3)))
      (overlayReader (some ((renumbered [(.uint32 1, item 1 "a"), (.uint32 2, item 2 "b")]).overlay "items"))
        (pair.rows.map Prod.snd)) = .ok [item 3 "a", item 3 "b"] := by
  refine ⟨⟨_, rfl, rfl⟩, ?_, rfl⟩
  unfold Database.tryIndexSelect planAccess
  rw [plan_key]
  rfl

end Items
end WasmDbms
