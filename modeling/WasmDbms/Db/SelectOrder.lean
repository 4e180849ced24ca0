import WasmDbms.Db.Selection

/-!
# The order of the clauses

Each source gives a query the rows that match. Deduplication, the page and the
selection do the same with what a source gives as with the full rows; the order does
it for the columns that are selected.
-/
namespace WasmDbms
open Result Distinct Sorted

variable {J F : Type} [LinearOrder J]

namespace SelectQuery

/-! ## The page -/

section Page
variable {db : Database J F}

theorem takePage_eq {filter : Option (Filter J F)} {test : Row J → Bool} {rows : List (Row J)}
    (total : ∀ row ∈ rows, db.recordMatchesFilter row filter = .ok (test row)) (offset : ℕ) (limit : Option ℕ) :
    db.takePage filter offset limit rows = .ok (cutRows offset limit (rows.filter test)) := by
  induction rows generalizing offset limit with
  | nil =>
      unfold cutRows
      cases limit <;> simp [Database.takePage]
  | cons row rest ih =>
      obtain ⟨first, later⟩ := List.forall_mem_cons.mp total
      rw [Database.takePage.eq_def]
      dsimp only
      rw [first]
      cases keep : test row with
      | false =>
          rw [List.filter_cons_of_neg (by rw [keep]; exact Bool.false_ne_true)]
          exact ih later offset limit
      | true =>
          rw [List.filter_cons_of_pos keep]
          cases offset with
          | succ offset =>
              refine (ih later offset limit).trans (congrArg Except.ok ?_)
              cases limit <;> rfl
          | zero =>
              match limit with
              | none => exact congrArg (· >>= fun rest => pure (row :: rest)) (ih later 0 none)
              | some 0 => rfl
              | some 1 => rfl
              | some (limit + 2) =>
                  exact congrArg (· >>= fun rest => pure (row :: rest)) (ih later 0 (some (limit + 1)))

omit [LinearOrder J] in
theorem cutRows_cutRows {rows : List (Row J)} (offset : ℕ) (limit : Option ℕ) :
    cutRows offset limit (cutRows 0 (limit.map fun limit => offset + limit) rows) = cutRows offset limit rows := by
  cases limit with
  | none => rfl
  | some limit =>
      change ((rows.take (offset + limit)).drop offset).take limit = (rows.drop offset).take limit
      rw [List.drop_take, Nat.add_sub_cancel_left, List.take_take, Nat.min_self]

end Page

/-! ## The rows of an index that covers the query -/

section Covering
variable {db : Database J F} {query : SelectQuery J F} {table : TableDef J} {data : TableData J}

omit [LinearOrder J] in
/-- The key of a row has its values in the columns of the index. -/
theorem keyValues_eq {columns : List String} {row : Row J} (record : RowOf table.columns row) :
    keyValues (layout table columns) (indexKey columns row) = retainColumns columns row := by
  have names := record.complete.names
  unfold keyValues layout retainColumns
  rw [← record.names, List.filterMap_map, List.map_filterMap, ← List.filterMap_eq_filter]
  refine List.filterMap_congr fun entry member => ?_
  rw [Function.comp_apply, Option.map_map]
  cases found : columns.findIdx? fun name => name == entry.1.name with
  | none =>
      have absent : entry.1.name ∉ columns := fun inside => by
        have different := List.findIdx?_eq_none_iff.mp found _ inside
        simp at different
      simp [Option.guard, absent]
  | some position =>
      obtain ⟨inside, hit, _⟩ := List.findIdx?_eq_some_iff_getElem.mp found
      have name : columns[position] = entry.1.name := by simpa using hit
      have present : entry.1.name ∈ columns := name ▸ List.getElem_mem inside
      have value : (indexKey columns row)[position]? = some entry.2 := by
        unfold indexKey
        rw [List.getElem?_map, List.getElem?_eq_getElem inside, name, Option.map_some, findColumn_eq names member]
        rfl
      simp [Option.guard, present, value]

theorem visitKey_skip {columns : List (ℕ × ColumnDef)} {rows : List (Row J)} {key : List (Value J)} {address : RecordAddress}
    (check : query.keyMatches db (keyValues columns key) = .ok false) :
    query.visitKey db columns rows key address = .ok (.next rows) := by
  rw [visitKey, check]
  rfl

theorem visitKey_keep {columns : List (ℕ × ColumnDef)} {rows : List (Row J)} {key : List (Value J)} {address : RecordAddress}
    (check : query.keyMatches db (keyValues columns key) = .ok true) :
    query.visitKey db columns rows key address =
      .ok (if query.stopAfter.any fun limit => limit ≤ rows.length + 1 then .stop (rows ++ [keyValues columns key])
        else .next (rows ++ [keyValues columns key])) := by
  rw [visitKey, check]
  change Except.ok (if query.stopAfter.any fun limit => limit ≤ (rows ++ [keyValues columns key]).length then _ else _) = _
  rw [List.length_append, List.length_singleton]

/-- The visit of the keys collects the rows up to where the query can stop. -/
theorem visitAll_visitKey {columns : List (ℕ × ColumnDef)} {entries : List (IndexEntry J)} {keep : Row J → Bool}
    (checks : ∀ e ∈ entries, query.keyMatches db (keyValues columns e.1) = .ok (keep (keyValues columns e.1)))
    {rows : List (Row J)} (room : ∀ n, query.stopAfter = some n → rows.length < n) :
    visitAll (query.visitKey db columns) entries rows =
      .ok (rows ++ cutRows 0 (query.stopAfter.map fun n => n - rows.length)
        ((entries.map fun e => keyValues columns e.1).filter keep)) := by
  induction entries generalizing rows with
  | nil =>
      unfold cutRows
      cases query.stopAfter <;> simp [visitAll]
  | cons e rest ih =>
      obtain ⟨first, later⟩ := List.forall_mem_cons.mp checks
      rw [visitAll, List.map_cons]
      cases kept : keep (keyValues columns e.1) with
      | false =>
          rw [visitKey_skip (first.trans (congrArg _ kept)), List.filter_cons_of_neg (by rw [kept]; exact Bool.false_ne_true)]
          exact ih later room
      | true =>
          rw [visitKey_keep (first.trans (congrArg _ kept)), List.filter_cons_of_pos kept]
          cases stop : query.stopAfter with
          | none =>
              have more : visitAll (query.visitKey db columns) rest (rows ++ [keyValues columns e.1]) = _ :=
                ih later (by simp [stop])
              rw [stop] at more
              refine Eq.trans more (congrArg Except.ok ?_)
              exact List.append_assoc _ _ _
          | some n =>
              have space := room n stop
              by_cases full : n ≤ rows.length + 1
              · have one : n - rows.length = 1 := by omega
                rw [if_pos (by simpa using full), Option.map_some, one]
                rfl
              · rw [if_neg (by simpa using full)]
                have longer : (rows ++ [keyValues columns e.1]).length = rows.length + 1 := by
                  rw [List.length_append, List.length_singleton]
                have more : visitAll (query.visitKey db columns) rest (rows ++ [keyValues columns e.1]) = _ :=
                  ih later fun k same => by
                    have : n = k := Option.some.inj (stop.symm.trans same)
                    omega
                rw [stop] at more
                refine Eq.trans more (congrArg Except.ok ?_)
                rw [Option.map_some, Option.map_some, longer, List.append_assoc]
                have split : n - rows.length = n - (rows.length + 1) + 1 := by omega
                rw [split]
                rfl

variable (stored : Stored table data)

/-- What an index that covers the query has: an entry for each stored row, and each row
that matches in the range of the scan. -/
structure Covering (query : SelectQuery J F) (table : TableDef J) (data : TableData J) (test : Row J → Bool)
    (scan : IndexScan J) (entries : List (IndexEntry J)) : Prop where
  found : data.indexes.lookup scan.columns = .ok entries
  index : IndexOf scan.columns data.rows entries
  covers : query.covers table scan.columns = true
  holds : ∀ x ∈ data.rows, test x.2 = true → scan.holdsKey (indexKey scan.columns x.2) = true

/-- A scan without bounds holds every key. -/
theorem holdsKey_all {columns : List String} {key : List (Value J)} (length : key.length = columns.length) :
    (IndexScan.ofPrefix columns []).holdsKey key = true := by
  cases columns with
  | nil =>
      obtain rfl := List.length_eq_zero_iff.mp length
      rfl
  | cons c rest =>
      cases key with
      | nil => cases length
      | cons v more => exact (IndexScan.holdsKey_iff rfl).mpr ⟨v, more, rfl, rfl⟩

include stored in
theorem coveringScan_covering {inTransaction : Bool} {scan : IndexScan J} {test : Row J → Bool}
    (chosen : query.coveringScan table inTransaction = some scan)
    (total : ∀ filter, query.filter = some filter → ∀ row, filter.matches db.predicates row = .ok (test row)) :
    ∃ entries, Covering query table data test scan entries := by
  unfold coveringScan at chosen
  split at chosen
  · cases chosen
  · obtain ⟨planned, covers⟩ := Option.filter_eq_some_iff.mp chosen
    have facts : scan.columns ∈ table.indexes.map IndexDef.columns ∧
        ∀ x ∈ data.rows, test x.2 = true → scan.holdsKey (indexKey scan.columns x.2) = true := by
      unfold plannedScan at planned
      cases filtered : query.filter with
      | some filter =>
          rw [filtered] at planned
          dsimp only at planned
          split at planned
          · rename_i path plan
            cases planned
            have declared := planFilter_declared plan
            cases declared with
            | scan declared =>
                refine ⟨declared, fun x listed holds => ?_⟩
                have complete := (stored.rows x listed).complete
                have covered := planFilter_covers (P := db.predicates) complete.typedIn complete.names
                  (by rw [total filter filtered, holds]) plan
                cases covered with
                | scan holds => exact holds
          · cases planned
      | none =>
          rw [filtered] at planned
          obtain ⟨index, found, rfl⟩ := Option.map_eq_some_iff.mp planned
          exact ⟨List.mem_map_of_mem (List.mem_of_find?_eq_some found), fun x _ _ => holdsKey_all (List.length_map _)⟩
    obtain ⟨entries, found⟩ := IndexLedger.lookup_ok stored.indexed.1 facts.1
    exact ⟨entries, found, IndexLedger.lookup_index stored.indexed.2 found, covers, facts.2⟩

/-- The row at an address. -/
def rowAt (data : TableData J) (address : RecordAddress) : Row J :=
  ((data.rows.find? fun x => x.1 == address).map Prod.snd).getD []

namespace Covering
variable {scan : IndexScan J} {entries : List (IndexEntry J)} {test : Row J → Bool}
variable (covering : Covering query table data test scan entries)
include covering

theorem entry {e : IndexEntry J} (member : e ∈ entries) : ∃ x ∈ data.rows, e = (indexKey scan.columns x.2, x.1) := by
  obtain ⟨x, listed, rfl⟩ := List.mem_map.mp (covering.index.perm.mem_iff.mp member)
  exact ⟨x, listed, rfl⟩

include stored

omit covering in
theorem rowAt_eq {x : RecordAddress × Row J} (listed : x ∈ data.rows) : rowAt data x.1 = x.2 := by
  have read := TableData.readAt_eq stored.addresses listed
  unfold TableData.readAt at read
  unfold rowAt
  cases found : data.rows.find? fun y => y.1 == x.1 with
  | none =>
      rw [found] at read
      cases read
  | some y =>
      rw [found] at read
      exact Except.ok.inj read

/-- The rows of the entries of the scan that match. -/
theorem rows_perm : (((entries.filter fun e => scan.holdsKey e.1).map fun e => rowAt data e.2).filter test).Perm
    ((data.rows.map Prod.snd).filter test) := by
  have inRange : ((entries.filter fun e => scan.holdsKey e.1).map fun e => rowAt data e.2).filter test =
      (entries.map fun e => rowAt data e.2).filter test := by
    rw [List.filter_map, List.filter_map, List.filter_filter]
    refine congrArg _ (List.filter_congr fun e member => ?_)
    obtain ⟨x, listed, rfl⟩ := covering.entry member
    cases here : test x.2 with
    | false => simp [rowAt_eq stored listed, here]
    | true => simp [rowAt_eq stored listed, here, covering.holds x listed here]
  have whole : ((data.rows.map fun x => (indexKey scan.columns x.2, x.1)).map fun e : IndexEntry J => rowAt data e.2) =
      data.rows.map Prod.snd := by
    rw [List.map_map]
    exact List.map_congr_left fun x listed => rowAt_eq stored listed
  rw [inRange, ← whole]
  exact (covering.index.perm.map _).filter _

/-- The values of an entry are those of its row in the columns of the index. -/
theorem values {e : IndexEntry J} (member : e ∈ entries) :
    keyValues (layout table scan.columns) e.1 = retainColumns scan.columns (rowAt data e.2) := by
  obtain ⟨x, listed, rfl⟩ := covering.entry member
  rw [rowAt_eq stored listed]
  exact keyValues_eq (stored.rows x listed)

theorem addresses_read : (IndexReader.forEachEntry data.indexes scan
      (fun found _ address => .ok (.next (found ++ [address]))) [] : Except (DbmsError J) (List RecordAddress)) =
        .ok ((entries.filter fun e => scan.holdsKey e.1).map Prod.snd) ∧
    ((entries.filter fun e => scan.holdsKey e.1).map Prod.snd).mapM data.readAt =
      .ok ((entries.filter fun e => scan.holdsKey e.1).map fun e => rowAt data e.2) := by
  constructor
  · rw [IndexReader.forEachEntry_eq covering.found covering.index.ordered]
    have collect : ∀ (es : List (IndexEntry J)) (found : List RecordAddress),
        visitAll (E := DbmsError J) (fun found _ address => .ok (.next (found ++ [address]))) es found =
          .ok (found ++ es.map Prod.snd) := by
      intro es
      induction es with
      | nil => exact fun found => congrArg Except.ok (List.append_nil found).symm
      | cons e rest ih =>
          intro found
          refine (ih (found ++ [e.2])).trans (congrArg Except.ok ?_)
          rw [List.append_assoc]
          rfl
    exact collect _ []
  · have each : ∀ address ∈ (entries.filter fun e => scan.holdsKey e.1).map Prod.snd,
        data.readAt address = .ok (rowAt data address) := by
      intro address member
      obtain ⟨e, chosen, rfl⟩ := List.mem_map.mp member
      obtain ⟨x, listed, rfl⟩ := covering.entry (List.mem_filter.mp chosen).1
      rw [rowAt_eq stored listed]
      exact TableData.readAt_eq stored.addresses listed
    rw [mapM_eq_map each, List.map_map]
    rfl

end Covering

end Covering

/-! ## The pipeline -/

/-- The part of each row that a source gives is enough for the clauses. -/
structure Suffices (query : SelectQuery J F) (rows : List (Row J)) (f : Row J → Row J) : Prop where
  distinct : ∀ c ∈ query.distinctBy, ∀ row, findColumn c (f row) = findColumn c row
  selection : ∀ chosen ⊆ rows, query.applyColumnSelection (chosen.map f) = query.applyColumnSelection chosen

section Pipeline
variable {db : Database J F} {query : SelectQuery J F} {table : TableDef J} {data : TableData J}

omit [LinearOrder J] in
theorem Suffices.id (rows : List (Row J)) : Suffices query rows id where
  distinct _ _ _ := rfl
  selection chosen _ := by rw [List.map_id]

omit [LinearOrder J] in
/-- An index that covers the query has enough of each row. -/
theorem Suffices.covered {columns : List String} (covers : query.covers table columns = true) {rows : List (Row J)}
    (records : ∀ row ∈ rows, RowOf table.columns row) : Suffices query rows (retainColumns columns) := by
  have inside : ∀ c ∈ query.needed table, c ∈ columns := fun c member => by
    simpa using List.all_eq_true.mp covers c member
  refine ⟨fun c member row => findColumn_retain (inside c ?_), fun chosen sub => ?_⟩
  · simp [needed, member]
  · have selected : ∀ c ∈ query.columnNames table, c ∈ columns := fun c member => inside c (by simp [needed, member])
    unfold applyColumnSelection
    unfold columnNames at selected
    cases choice : query.columns with
    | all =>
        rw [choice] at selected
        refine (List.map_congr_left fun row member => ?_).trans (List.map_id chosen)
        refine List.filter_eq_self.mpr fun entry held => ?_
        have column : entry.1 ∈ table.columns := (records row (sub member)).complete.column held
        simpa using selected _ (List.mem_map_of_mem column)
    | columns names =>
        rw [choice] at selected
        change (chosen.map (retainColumns columns)).map (retainColumns names) = chosen.map (retainColumns names)
        rw [List.map_map]
        refine List.map_congr_left fun row _ => ?_
        unfold Function.comp retainColumns
        rw [List.filter_filter]
        refine List.filter_congr fun entry _ => ?_
        by_cases kept : entry.1.name ∈ names
        · simp [kept, selected _ kept]
        · simp [kept]

omit [LinearOrder J] in
theorem cutRows_subset {offset : ℕ} {limit : Option ℕ} {rows : List (Row J)} : cutRows offset limit rows ⊆ rows := by
  unfold cutRows
  split
  · exact List.Subset.trans (List.take_subset _ _) (List.drop_subset _ _)
  · exact List.drop_subset _ _

omit [LinearOrder J] in
theorem cutPage_subset {rows : List (Row J)} : query.cutPage rows ⊆ rows := cutRows_subset

/-- What `select_columns` makes of the rows it reads. -/
theorem selectColumns_of_reads {inTransaction : Bool} {changes : Option (List (Operation J))} {rows : List (Row J)}
    {f : Row J → Row J} (enough : Suffices query rows f)
    (reads : query.readRows db table data inTransaction changes =
      .ok (if query.deferPagination then rows.map f else query.cutPage (rows.map f))) :
    query.selectColumns db table data inTransaction changes =
      .ok (query.applyColumnSelection (query.cutPage
        (sortBy query.selectedOrder (applyDistinct query.distinctBy rows)))) := by
  unfold selectColumns
  rw [reads]
  refine congrArg Except.ok ?_
  cases deferred : query.deferPagination with
  | true =>
      simp only [if_true]
      rw [applyDistinct_map enough.distinct, enough.selection _ applyDistinct_subset, sortBy_applyColumnSelection,
        cutPage_applyColumnSelection]
  | false =>
      unfold Query.deferPagination at deferred
      rw [Bool.or_eq_false_iff, Bool.not_eq_false', Bool.not_eq_false', List.isEmpty_iff, List.isEmpty_iff] at deferred
      have plain : query.selectedOrder = [] := by
        unfold selectedOrder
        cases query.columns <;> simp [deferred.1]
      have whole : ∀ rows : List (Row J), applyDistinct query.distinctBy rows = rows := fun rows => by
        rw [deferred.2]
        rfl
      have unsorted : ∀ rows : List (Row J), sortBy [] rows = rows := fun _ => rfl
      simp only [Bool.false_eq_true, if_false]
      rw [whole, whole, deferred.1, plain, unsorted, unsorted]
      unfold cutPage
      rw [cutRows_map]
      exact enough.selection _ cutPage_subset

end Pipeline

/-! ## What a query returns -/

/-- A table as a query sees it, with the changes of the transaction that asks: its primary
key has an index, and no two rows that can be seen have one primary key. -/
structure Content (table : TableDef J) (data : TableData J) (inTransaction : Bool)
    (changes : Option (List (Operation J))) : Prop where
  stored : Stored table data
  keyIndexed : ⟨[table.primaryKey]⟩ ∈ table.indexes
  typed : ∀ operations, changes = some operations → TypedUpdates table operations
  outside : changes.isSome → inTransaction = true
  keys : changes.isSome → ((overlayReader changes (data.rows.map Prod.snd)).map table.primaryKeyValue).Nodup

section Answer
variable {db : Database J F} {query : SelectQuery J F} {table : TableDef J} {data : TableData J}
variable {changes : Option (List (Operation J))}
variable (stored : Stored table data) (safe : ∀ filter, query.filter = some filter → filter.isFallible = false)

omit stored in
include safe in
/-- A filter that raises no error is a test. -/
theorem filter_test : ∃ test : Row J → Bool,
    (∀ filter, query.filter = some filter → ∀ row, filter.matches db.predicates row = .ok (test row)) ∧
    ∀ row, db.recordMatchesFilter row query.filter = .ok (test row) := by
  cases filtered : query.filter with
  | none => exact ⟨fun _ => true, fun filter same => (by cases same), fun row => rfl⟩
  | some filter =>
      have total : ∀ row, ∃ b, filter.matches db.predicates row = .ok b := fun row =>
        Filter.matches_ok (safe filter filtered)
      choose test evaluates using total
      refine ⟨test, fun other same row => ?_, fun row => recordMatchesFilter_eq (evaluates row)⟩
      obtain rfl := Option.some.inj same
      exact evaluates row

omit stored in
theorem selectMatching_test {test : Row J → Bool} (total : ∀ row, db.recordMatchesFilter row query.filter = .ok (test row))
    (rows : List (Row J)) : db.selectMatching query.filter rows = .ok (rows.filter test) := by
  induction rows with
  | nil => rfl
  | cons row rest ih =>
      rw [Database.selectMatching, total row, ih, List.filter_cons]
      rfl

section Reads
variable {inTransaction : Bool} {test : Row J → Bool}
variable (checks : ∀ row, db.recordMatchesFilter row query.filter = .ok (test row))

omit stored in
include checks in
theorem keyMatches_test (row : Row J) : query.keyMatches db row = .ok (test row) := by
  have check := checks row
  unfold keyMatches
  unfold Database.recordMatchesFilter at check
  cases filtered : query.filter with
  | none =>
      rw [filtered] at check
      exact congrArg Except.ok (Except.ok.inj check)
  | some filter =>
      rw [filtered] at check
      exact Failure.lift_eq_ok.mp check

omit stored in
include checks in
/-- The filter decides by the columns of the index. -/
theorem test_retain {columns : List String} (covers : query.covers table columns = true) (row : Row J) :
    test (retainColumns columns row) = test row := by
  have partial_ := checks (retainColumns columns row)
  have whole := checks row
  cases filtered : query.filter with
  | none =>
      rw [filtered] at partial_ whole
      exact Except.ok.inj (partial_.symm.trans whole)
  | some filter =>
      have inside : ∀ c ∈ filter.columns, c ∈ columns := fun c member => by
        have needed : c ∈ query.needed table := by simp [needed, filtered, member]
        simpa using List.all_eq_true.mp covers c needed
      have same : db.recordMatchesFilter (retainColumns columns row) query.filter =
          db.recordMatchesFilter row query.filter := by
        rw [filtered, Database.recordMatchesFilter, Database.recordMatchesFilter, Filter.matches_retain inside]
      exact Except.ok.inj (partial_.symm.trans (same.trans whole))

omit stored [LinearOrder J] in
theorem stopAfter_pos (some_ : query.limit ≠ some 0) {n : ℕ} (stops : query.stopAfter = some n) : 0 < n := by
  unfold stopAfter at stops
  split at stops
  · obtain ⟨limit, cut, rfl⟩ := Option.map_eq_some_iff.mp stops
    have positive : limit ≠ 0 := fun zero => some_ (by rw [cut, zero])
    omega
  · cases stops

include stored checks in
/-- An index that covers the query: the rows come from its keys. -/
theorem covering_reads {scan : IndexScan J} (chosen : query.coveringScan table inTransaction = some scan)
    (total : ∀ filter, query.filter = some filter → ∀ row, filter.matches db.predicates row = .ok (test row)) :
    ∃ rows, query.readOrder db table data inTransaction changes = .ok rows ∧
      rows.Perm ((data.rows.map Prod.snd).filter test) ∧ Suffices query rows (retainColumns scan.columns) ∧
      query.indexedRows db table data inTransaction changes =
        .ok (some (if query.limit = some 0 then [] else
          cutRows 0 query.stopAfter (rows.map (retainColumns scan.columns)))) := by
  obtain ⟨entries, covering⟩ := coveringScan_covering stored chosen total
  obtain ⟨read, found⟩ := covering.addresses_read stored
  refine ⟨_, ?_, covering.rows_perm stored, Suffices.covered covering.covers fun row member => ?_, ?_⟩
  · unfold readOrder
    rw [chosen]
    dsimp only
    rw [read]
    dsimp only [Failure.lift, bind, Except.bind]
    rw [found]
    exact selectMatching_test checks _
  · obtain ⟨x, listed, rfl⟩ := List.mem_map.mp
      (List.mem_filter.mp ((covering.rows_perm stored).mem_iff.mp member)).1
    exact stored.rows x listed
  · unfold indexedRows tryCoveringSelect
    rw [chosen]
    dsimp only
    by_cases none_ : query.limit = some 0
    · rw [if_pos none_, if_pos none_]
      rfl
    · have visited : visitAll (query.visitKey db (layout table scan.columns))
          (entries.filter fun e => scan.holdsKey e.1) [] = _ :=
        visitAll_visitKey (fun e _ => keyMatches_test checks _) fun n stops => stopAfter_pos none_ stops
      rw [if_neg none_, if_neg none_, IndexReader.forEachEntry_eq covering.found covering.index.ordered, visited]
      have values : ((entries.filter fun e => scan.holdsKey e.1).map fun e =>
            keyValues (layout table scan.columns) e.1).filter test =
          (((entries.filter fun e => scan.holdsKey e.1).map fun e => rowAt data e.2).filter test).map
            (retainColumns scan.columns) := by
        have own : ((entries.filter fun e => scan.holdsKey e.1).map fun e => keyValues (layout table scan.columns) e.1) =
            ((entries.filter fun e => scan.holdsKey e.1).map fun e => rowAt data e.2).map (retainColumns scan.columns) := by
          rw [List.map_map]
          exact List.map_congr_left fun e member => covering.values stored (List.mem_filter.mp member).1
        rw [own, List.filter_map]
        refine congrArg _ (List.filter_congr fun row _ => ?_)
        exact test_retain checks covering.covers row
      rw [values]
      cases query.stopAfter <;> rfl

end Reads

section Sources
variable {inTransaction : Bool}

omit stored in
/-- The page of the rows an index gives. -/
theorem readRows_indexed {rows : List (Row J)}
    (indexed : query.indexedRows db table data inTransaction changes = .ok (some rows)) :
    query.readRows db table data inTransaction changes =
      .ok (if query.deferPagination then rows else query.cutPage rows) := by
  unfold readRows
  rw [indexed]
  have taken : ∀ offset limit, db.takePage none offset limit rows =
      .ok (cutRows offset limit (rows.filter fun _ => true)) := takePage_eq fun _ _ => rfl
  refine (taken _ _).trans (congrArg Except.ok ?_)
  rw [List.filter_true]
  cases query.deferPagination <;> rfl

omit stored in
theorem readRows_scanned {test : Row J → Bool} (checks : ∀ row, db.recordMatchesFilter row query.filter = .ok (test row))
    (none_ : query.indexedRows db table data inTransaction changes = .ok none) :
    query.readRows db table data inTransaction changes =
      .ok (if query.deferPagination then (overlayReader changes (data.rows.map Prod.snd)).filter test
        else query.cutPage ((overlayReader changes (data.rows.map Prod.snd)).filter test)) := by
  unfold readRows
  rw [none_]
  refine (takePage_eq (fun row _ => checks row) _ _).trans (congrArg Except.ok ?_)
  cases query.deferPagination <;> rfl

omit stored [LinearOrder J] in
/-- Stopping early leaves the page as it is. -/
theorem cut_stopAfter (rows : List (Row J)) :
    (if query.deferPagination then cutRows 0 query.stopAfter rows else query.cutPage (cutRows 0 query.stopAfter rows)) =
      if query.deferPagination then rows else query.cutPage rows := by
  unfold Query.deferPagination stopAfter cutPage
  cases unsorted : query.orderBy.isEmpty <;> cases whole : query.distinctBy.isEmpty
  · rfl
  · rfl
  · rfl
  · exact cutRows_cutRows _ _

omit stored in
theorem readOrder_indexed (chosen : query.coveringScan table inTransaction = none) {rows : List (Row J)}
    (indexed : query.indexedRows db table data inTransaction changes = .ok (some rows)) :
    query.readOrder db table data inTransaction changes = .ok rows := by
  unfold readOrder
  rw [chosen]
  dsimp only
  rw [indexed]
  rfl

omit stored in
theorem readOrder_scanned (chosen : query.coveringScan table inTransaction = none)
    (indexed : query.indexedRows db table data inTransaction changes = .ok none) :
    query.readOrder db table data inTransaction changes =
      db.selectMatching query.filter (overlayReader changes (data.rows.map Prod.snd)) := by
  unfold readOrder
  rw [chosen]
  dsimp only
  rw [indexed]
  rfl

omit stored in
include safe in
/-- Every query returns what its clauses make of the rows that match, sorted by the
columns it selects. -/
theorem selectColumns_eq (content : Content table data inTransaction changes) :
    ∃ matching rows, db.selectMatching query.filter (overlayReader changes (data.rows.map Prod.snd)) = .ok matching ∧
      query.readOrder db table data inTransaction changes = .ok rows ∧ rows.Perm matching ∧
      query.selectColumns db table data inTransaction changes =
        .ok (query.applyColumnSelection (query.cutPage
          (sortBy query.selectedOrder (applyDistinct query.distinctBy rows)))) := by
  obtain ⟨test, total, checks⟩ : ∃ test : Row J → Bool,
      (∀ filter, query.filter = some filter → ∀ row, filter.matches db.predicates row = .ok (test row)) ∧
      ∀ row, db.recordMatchesFilter row query.filter = .ok (test row) := filter_test safe
  cases chosen : query.coveringScan table inTransaction with
  | some scan =>
      -- only outside a transaction
      obtain rfl : changes = none := Option.not_isSome_iff_eq_none.mp fun changed => by
        simp [coveringScan, content.outside changed] at chosen
      obtain ⟨rows, read, perm, enough, indexed⟩ := covering_reads content.stored checks chosen total
      refine ⟨_, rows, selectMatching_test checks _, read, perm, ?_⟩
      by_cases none_ : query.limit = some 0
      · rw [if_pos none_] at indexed
        have nothing : Suffices query [] (retainColumns scan.columns) :=
          ⟨enough.distinct, fun chosen sub => enough.selection chosen fun row member => absurd (sub member) List.not_mem_nil⟩
        rw [selectColumns_of_reads nothing (readRows_indexed indexed)]
        have empty : ∀ rows : List (Row J), query.cutPage rows = [] := fun rows => by
          unfold cutPage
          rw [none_]
          rfl
        rw [empty, empty]
      · rw [if_neg none_] at indexed
        refine selectColumns_of_reads enough ((readRows_indexed indexed).trans (congrArg Except.ok ?_))
        exact cut_stopAfter _
  | none =>
      have uncovered : query.tryCoveringSelect db table data inTransaction = .ok none := by
        unfold tryCoveringSelect
        rw [chosen]
      cases filtered : query.filter with
      | none =>
          have indexed : query.indexedRows db table data inTransaction changes = .ok none := by
            unfold indexedRows
            rw [uncovered, filtered]
            rfl
          rw [← filtered]
          refine ⟨_, _, selectMatching_test checks _, ?_, .refl _,
            selectColumns_of_reads (.id _) ((readRows_scanned checks indexed).trans ?_)⟩
          · rw [readOrder_scanned chosen indexed, selectMatching_test checks]
          · rw [List.map_id]
      | some filter =>
          obtain ⟨matching, scan, answer, run, agrees⟩ :=
            tryIndexSelect_spec db content.stored content.keyIndexed content.typed (safe filter filtered)
          have whole : matching = (overlayReader changes (data.rows.map Prod.snd)).filter test := by
            have same := selectMatching_test checks (overlayReader changes (data.rows.map Prod.snd))
            rw [filtered] at same
            exact Except.ok.inj (scan.symm.trans same)
          have indexed : query.indexedRows db table data inTransaction changes = .ok answer := by
            unfold indexedRows
            rw [uncovered, filtered]
            exact run
          refine ⟨matching, ?_⟩
          cases answer with
          | none =>
              refine ⟨matching, scan, ?_, .refl _, selectColumns_of_reads (.id _) ((readRows_scanned checks indexed).trans ?_)⟩
              · rw [readOrder_scanned chosen indexed, filtered]
                exact scan
              · rw [List.map_id, whole]
          | some found =>
              obtain ⟨visited, perm, rfl⟩ := agrees found rfl
              refine ⟨_, scan, readOrder_indexed chosen indexed, ?_, selectColumns_of_reads (.id _) ((readRows_indexed indexed).trans ?_)⟩
              · refine (returnedRows_perm_iff perm).mpr fun changed => ?_
                rw [whole]
                exact (content.keys changed).sublist (List.filter_sublist.map _)
              · rw [List.map_id]

omit stored [LinearOrder J] in
theorem applyColumnSelection_perm {rows rows' : List (Row J)} (perm : rows.Perm rows') :
    (query.applyColumnSelection rows).Perm (query.applyColumnSelection rows') := by
  unfold applyColumnSelection
  cases query.columns with
  | all => exact perm
  | columns names => exact perm.map _

omit stored in
include safe in
/-- Without a page, the rows of an index and those of a scan are the same rows, each once,
with the same values in the columns that are selected. -/
theorem select_columns_rows (content : Content table data inTransaction changes) (unlimited : query.limit = none)
    (whole : query.offset = none) :
    ∃ matching rows result, db.selectMatching query.filter (overlayReader changes (data.rows.map Prod.snd)) = .ok matching ∧
      rows.Perm matching ∧ query.selectColumns db table data inTransaction changes = .ok result ∧
      result.Perm (query.applyColumnSelection (applyDistinct query.distinctBy rows)) ∧
      (query.distinctBy = [] → result.Perm (query.applyColumnSelection matching)) := by
  obtain ⟨matching, rows, scan, _, perm, run⟩ := selectColumns_eq (J := J) safe content
  have page : ∀ rows : List (Row J), query.cutPage rows = rows := fun rows => by
    unfold cutPage
    rw [unlimited, whole]
    rfl
  rw [page] at run
  have sorted : (sortBy query.selectedOrder (applyDistinct query.distinctBy rows)).Perm
      (applyDistinct query.distinctBy rows) := sorted_perm
  refine ⟨matching, rows, _, scan, perm, run, applyColumnSelection_perm sorted, fun plain => ?_⟩
  have kept : applyDistinct query.distinctBy rows = rows := by
    rw [plain]
    rfl
  rw [kept] at sorted ⊢
  exact applyColumnSelection_perm (sorted.trans perm)

end Sources

end Answer

end SelectQuery

/-! ## The last item first -/

namespace Items
open SelectQuery

/-- The item with the greatest label, with some of its columns. -/
def last (names : List String) : SelectQuery ℕ Empty :=
  ⟨⟨none, [], [("label", .descending)], none, some 1⟩, .columns names⟩

theorem pair_content : Content table pair false none :=
  ⟨pair_stored, List.mem_singleton.mpr rfl, fun _ same => (by cases same), fun no => (by cases no), fun no => (by cases no)⟩

theorem ids_of_pair : ∃ rows result : List (Row ℕ), rows.Perm [item 1 "a", item 2 "b"] ∧
    (⟨.all, .columns ["id"]⟩ : SelectQuery ℕ Empty).selectColumns db table pair false none = .ok result ∧
    result.Perm [[(id, .uint32 1)], [(id, .uint32 2)]] := by
  have safe : ∀ filter, (⟨.all, .columns ["id"]⟩ : SelectQuery ℕ Empty).filter = some filter → filter.isFallible = false :=
    fun _ same => (by cases same)
  obtain ⟨matching, rows, result, scan, perm, run, _, same⟩ : ∃ matching rows result : List (Row ℕ),
      db.selectMatching none (overlayReader none (pair.rows.map Prod.snd)) = .ok matching ∧ rows.Perm matching ∧
      (⟨.all, .columns ["id"]⟩ : SelectQuery ℕ Empty).selectColumns db table pair false none = .ok result ∧ _ ∧ _ :=
    select_columns_rows safe pair_content rfl rfl
  obtain rfl : [item 1 "a", item 2 "b"] = matching := Except.ok.inj scan
  exact ⟨rows, result, perm, run, same rfl⟩

end Items

end WasmDbms
