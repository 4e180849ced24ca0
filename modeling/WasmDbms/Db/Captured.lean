import WasmDbms.Db.Context

/-!
# Captured rows

The filters of the rows a staged update or deletion has captured: what they select, and
what the check of them at commit tells.
-/
namespace WasmDbms
open Result

variable {J F : Type} [LinearOrder J]

section Filters
variable {P : Predicates J F} {row : Row J}

theorem matches_and {left right : Filter J F} {b c : Bool} (first : left.matches P row = .ok b)
    (second : right.matches P row = .ok c) : (Filter.and left right).matches P row = .ok (b && c) := by
  rw [Filter.matches, first]
  cases b
  · rfl
  · exact second

theorem matches_or {left right : Filter J F} {b c : Bool} (first : left.matches P row = .ok b)
    (second : right.matches P row = .ok c) : (Filter.or left right).matches P row = .ok (b || c) := by
  rw [Filter.matches, first]
  cases b
  · exact second
  · rfl

/-- A row holds each of these values in its column. -/
def holdsAll (values row : Row J) : Bool := values.all fun e => anyColumn e.1.name (fun v => v = e.2) row

theorem matches_conjunction {values : Row J} {filter : Filter J F} {b : Bool}
    (first : filter.matches P row = .ok b) :
    (values.foldl (fun filter entry => .and filter (.eq entry.1.name entry.2)) filter).matches P row =
      .ok (b && holdsAll values row) := by
  induction values generalizing filter b with
  | nil => rw [List.foldl_nil, first, holdsAll, List.all_nil, Bool.and_true]
  | cons entry rest ih =>
      rw [List.foldl_cons, ih (matches_and first rfl), holdsAll, holdsAll, List.all_cons, Bool.and_assoc]

theorem matches_disjunction {filters : List (Filter J F)} {filter : Filter J F} {b : Bool}
    {test : Filter J F → Bool} (first : filter.matches P row = .ok b)
    (rest : ∀ f ∈ filters, f.matches P row = .ok (test f)) :
    (filters.foldl Filter.or filter).matches P row = .ok (b || filters.any test) := by
  induction filters generalizing filter b with
  | nil => rw [List.foldl_nil, first, List.any_nil, Bool.or_false]
  | cons f filters ih =>
      rw [List.forall_mem_cons] at rest
      rw [List.foldl_cons, ih (matches_or first rest.1) rest.2, List.any_cons, Bool.or_assoc]

theorem anyColumn_eq {name : String} {value : Value J} :
    anyColumn name (fun v => v = value) row = true ↔ ∃ entry ∈ row, entry.1.name = name ∧ entry.2 = value := by
  simp [anyColumn]

end Filters

section Records
variable {table : TableDef J}

omit [LinearOrder J] in
theorem columnValues_columns {row : Row J} : (table.columnValues row).map Prod.fst = table.columns := by
  simp [TableDef.columnValues, Function.comp_def]

/-- A record is known by its values. -/
theorem eq_of_holdsAll {values row : Row J} (columns : values.map Prod.fst = table.columns)
    (record : RowOf table.columns row) (holds : holdsAll values row = true) : row = values := by
  have nodup : (row.map fun e => e.1.name).Nodup := by
    have names := table.columnNames
    rwa [← record.names, List.map_map] at names
  apply List.ext_getElem?
  intro i
  have position : (row.map Prod.fst)[i]? = (values.map Prod.fst)[i]? := by rw [record.names, columns]
  rw [List.getElem?_map, List.getElem?_map] at position
  cases there : values[i]? with
  | none =>
      rw [there] at position
      cases here : row[i]? with
      | none => rfl
      | some entry =>
          rw [here] at position
          cases position
  | some value =>
      rw [there] at position
      obtain ⟨entry, here, same⟩ := Option.map_eq_some_iff.mp position
      have held := List.all_eq_true.mp holds value (List.mem_of_getElem? there)
      obtain ⟨entry', member, name, equal⟩ := anyColumn_eq.mp held
      have one : entry' = entry := by
        refine List.inj_on_of_nodup_map nodup member (List.mem_of_getElem? here) ?_
        rw [name, same]
      rw [here, ← one]
      exact congrArg some (Prod.ext (one ▸ same) equal)

omit [LinearOrder J] in
/-- Without foreign keys a typed record has all columns. -/
theorem recordValues_eq (plain : ∀ c ∈ table.columns, c.foreignKey = none) {row : Row J} :
    table.recordValues row = table.columnValues row := by
  unfold TableDef.recordValues TableDef.columnValues
  rw [List.filter_eq_self.mpr]
  intro c member
  rw [plain c member]
  rfl

/-- The filter of a captured row selects the record with its values. -/
theorem capturedRowFilter_matches {P : Predicates J F} {values row : Row J} {key : Value J}
    (nodup : (values.map fun e => e.1.name).Nodup) (keyed : findColumn table.primaryKey values = some key) :
    (table.capturedRowFilter key values : Filter J F).matches P row = .ok (holdsAll values row) := by
  obtain ⟨entry, found, value⟩ := Option.map_eq_some_iff.mp keyed
  have member := List.mem_of_find?_eq_some found
  have name : entry.1.name = table.primaryKey := by simpa using List.find?_some found
  unfold TableDef.capturedRowFilter
  rw [matches_conjunction (b := anyColumn table.primaryKey (fun v => v = key) row) rfl]
  refine congrArg Except.ok (Bool.eq_iff_iff.mpr ?_)
  rw [Bool.and_eq_true, holdsAll, holdsAll, List.all_eq_true, List.all_eq_true]
  constructor
  · rintro ⟨first, rest⟩ e listed
    by_cases same : e.1.name = table.primaryKey
    · obtain rfl : e = entry := List.inj_on_of_nodup_map nodup listed member (same.trans name.symm)
      rw [same, value]
      exact first
    · exact rest e (List.mem_filter.mpr ⟨listed, by simpa using same⟩)
  · intro each
    refine ⟨?_, fun e listed => each e (List.mem_of_mem_filter listed)⟩
    have here := each entry member
    rwa [name, value] at here

omit [LinearOrder J] in
theorem recordValues_names {row : Row J} : ((table.recordValues row).map fun e => e.1.name).Nodup := by
  have columns : (table.recordValues row).map (fun e => e.1.name) =
      (table.columns.filter fun c => c.foreignKey.isNone).map ColumnDef.name := by
    rw [TableDef.recordValues, List.map_map]
    rfl
  rw [columns]
  exact table.columnNames.sublist (List.filter_sublist.map _)

end Records

section Selection
variable {db : Database J F} {table : TableDef J}

theorem recordMatchesFilter_eq {row : Row J} {filter : Filter J F} {b : Bool}
    (run : filter.matches db.predicates row = .ok b) : db.recordMatchesFilter row (some filter) = .ok b := by
  unfold Database.recordMatchesFilter
  dsimp only
  rw [run]
  rfl

theorem selectMatching_none {rows : List (Row J)} : db.selectMatching none rows = .ok rows := by
  induction rows with
  | nil => rfl
  | cons row rest ih =>
      rw [Database.selectMatching, ih]
      rfl

/-- The rows a filter selects when it raises no error. -/
theorem selectMatching_eq {filter : Filter J F} {test : Row J → Bool} {rows : List (Row J)}
    (total : ∀ row ∈ rows, filter.matches db.predicates row = .ok (test row)) :
    db.selectMatching (some filter) rows = .ok (rows.filter test) := by
  induction rows with
  | nil => rfl
  | cons row rest ih =>
      rw [List.forall_mem_cons] at total
      rw [Database.selectMatching, recordMatchesFilter_eq total.1, ih total.2, List.filter_cons]
      rfl

variable {filters : List (Filter J F)} {s : DbState J} {test : Filter J F → Row J → Bool}
variable (total : ∀ filter ∈ filters, ∀ row ∈ s.view table.name,
  filter.matches db.predicates row = .ok (test filter row))
include total

/-- Each captured row is found exactly once, or the commit stops with a conflict. -/
theorem validatedTransactionFilter_cases :
    (∃ filter, db.validatedTransactionFilter table filters s = .ok filter ∧
      (filter = filters.head?.map fun first => filters.tail.foldl Filter.or first) ∧
      ∀ filter ∈ filters, ((s.view table.name).filter (test filter)).length = 1) ∨
    (db.validatedTransactionFilter table filters s = .error (Database.conflict table) ∧
      ∃ filter ∈ filters, ((s.view table.name).filter (test filter)).length ≠ 1) := by
  let check (filter : Filter J F) : Except (Failure J) PUnit := do
    let rows ← db.select s.view table (some filter)
    if rows.length ≠ 1 then throw (Database.conflict table)
  have checked : ∀ filter ∈ filters, check filter =
      if ((s.view table.name).filter (test filter)).length ≠ 1 then .error (Database.conflict table) else .ok () := by
    intro filter member
    have found : db.select s.view table (some filter) = .ok _ := selectMatching_eq (total filter member)
    change (db.select s.view table (some filter) >>= _) = _
    rw [found]
    rfl
  have loop : (∀ filter ∈ filters, ((s.view table.name).filter (test filter)).length = 1) ∧
      filters.forM check = .ok () ∨ filters.forM check = .error (Database.conflict table) ∧
        ∃ filter ∈ filters, ((s.view table.name).filter (test filter)).length ≠ 1 := by
    clear total
    induction filters with
    | nil => exact .inl ⟨nofun, rfl⟩
    | cons filter rest ih =>
        rw [List.forall_mem_cons] at checked
        have step : (filter :: rest).forM check = (check filter >>= fun _ => rest.forM check) := rfl
        rw [step, checked.1, List.forall_mem_cons]
        by_cases once : ((s.view table.name).filter (test filter)).length = 1
        · rw [if_neg (not_not_intro once)]
          rcases ih checked.2 with ⟨others, runs⟩ | ⟨fails, missed, member, notOnce⟩
          · exact .inl ⟨⟨once, others⟩, runs⟩
          · exact .inr ⟨fails, missed, List.mem_cons_of_mem _ member, notOnce⟩
        · rw [if_pos once]
          exact .inr ⟨rfl, filter, List.mem_cons_self, once⟩
  have unfolded : db.validatedTransactionFilter table filters s = (filters.forM check >>= fun _ =>
      pure (filters.head?.map fun first => filters.tail.foldl Filter.or first)) := by
    cases filters <;> rfl
  rw [unfolded]
  rcases loop with ⟨once, runs⟩ | ⟨fails, missed⟩
  · exact .inl ⟨_, by rw [runs]; rfl, rfl, once⟩
  · exact .inr ⟨by rw [fails]; rfl, missed⟩

end Selection

namespace Database
variable (db : Database J F)

/-- The filters of captured rows. -/
def capturedFilters (t : TableDef J) (pairs : List (Value J × Row J)) : List (Filter J F) :=
  pairs.map fun pair => t.capturedRowFilter pair.1 pair.2

/-- The versions of the rows are found, each once, and the records that are changed are
among them. -/
def FindsCaptured (t : TableDef J) (filters : List (Filter J F)) (rows : List (Row J)) (s : DbState J) : Prop :=
  (∀ row ∈ rows, ∃! x, x ∈ (s t.name).rows ∧ x.2 = t.columnValues row) ∧
    ∃ filter, db.validatedTransactionFilter t filters s = .ok filter ∧
      ∀ whole, filter = some whole → ∃ records, db.collectMatchingRecords t (some whole) s = .ok records ∧
        ∀ x ∈ records, ∃ row ∈ rows, x.2 = t.columnValues row

end Database

/-- Whether a filter selects a row; an error counts as no. -/
def Filter.holds (P : Predicates J F) (filter : Filter J F) (row : Row J) : Bool :=
  match filter.matches P row with
  | .ok b => b
  | .error _ => false

/-- The captured rows beside their primary keys and typed values. -/
def Captures (t : TableDef J) : List (Row J) → List (Value J × Row J) → Prop :=
  List.Forall₂ fun row pair =>
    findColumn t.primaryKey (t.recordValues row) = some pair.1 ∧ pair.2 = t.recordValues row

section Captured
variable {db : Database J F} {t : TableDef J} {rows : List (Row J)} {pairs : List (Value J × Row J)}

/-- The rows a staged update or deletion captures. -/
theorem existingRowsForFilter_ok {tx : Transaction J F} {s : DbState J} {filter : Option (Filter J F)}
    (run : db.existingRowsForFilter tx s t filter = .ok pairs) :
    ∃ rows, db.selectInside tx s t filter = .ok rows ∧ Captures t rows pairs := by
  obtain ⟨rows, selected, run⟩ := bind_eq_ok.mp run
  refine ⟨rows, selected, (mapM_forall₂ run).imp fun row pair found => ?_⟩
  split at found
  next key keyed =>
    cases found
    exact ⟨keyed, rfl⟩
  next => cases found

omit [LinearOrder J] in
theorem Captures.filter_of_row (captured : Captures t rows pairs) {row : Row J} (member : row ∈ rows) :
    ∃ key, findColumn t.primaryKey (t.recordValues row) = some key ∧
      t.capturedRowFilter key (t.recordValues row) ∈ (Database.capturedFilters t pairs : List (Filter J F)) := by
  obtain ⟨i, inside, rfl⟩ := List.getElem_of_mem member
  have inside' : i < pairs.length := captured.length_eq ▸ inside
  obtain ⟨keyed, same⟩ := captured.get inside inside'
  refine ⟨_, keyed, List.mem_map.mpr ⟨pairs[i], List.getElem_mem inside', ?_⟩⟩
  exact congrArg (t.capturedRowFilter _) same

omit [LinearOrder J] in
theorem Captures.row_of_filter (captured : Captures t rows pairs) {filter : Filter J F}
    (member : filter ∈ Database.capturedFilters t pairs) : ∃ row ∈ rows, ∃ key,
      findColumn t.primaryKey (t.recordValues row) = some key ∧
        filter = t.capturedRowFilter key (t.recordValues row) := by
  obtain ⟨pair, pairMember, rfl⟩ := List.mem_map.mp member
  obtain ⟨i, inside', rfl⟩ := List.getElem_of_mem pairMember
  have inside : i < rows.length := captured.length_eq.symm ▸ inside'
  obtain ⟨keyed, same⟩ := captured.get inside inside'
  exact ⟨rows[i], List.getElem_mem inside, _, keyed, congrArg (t.capturedRowFilter _) same⟩

/-- The filter of a captured row can be evaluated on every row. -/
theorem capturedRowFilter_holds {P : Predicates J F} {row : Row J} {key : Value J}
    (keyed : findColumn t.primaryKey (t.recordValues row) = some key) {found : Row J} :
    (t.capturedRowFilter key (t.recordValues row)).matches P found =
        .ok ((t.capturedRowFilter key (t.recordValues row)).holds P found) ∧
      (t.capturedRowFilter key (t.recordValues row)).holds P found = holdsAll (t.recordValues row) found := by
  have run : (t.capturedRowFilter key (t.recordValues row)).matches P found = _ :=
    capturedRowFilter_matches recordValues_names keyed
  unfold Filter.holds
  rw [run]
  exact ⟨rfl, rfl⟩

theorem Captures.total {P : Predicates J F} (captured : Captures t rows pairs) {filter : Filter J F}
    (member : filter ∈ Database.capturedFilters t pairs) {found : Row J} :
    filter.matches P found = .ok (filter.holds P found) := by
  obtain ⟨row, _, key, keyed, rfl⟩ := captured.row_of_filter member
  exact (capturedRowFilter_holds keyed).1

/-- The stored records that hold the captured values of a row have all its values. -/
def Recognized (t : TableDef J) (rows : List (Row J)) (s : DbState J) : Prop :=
  ∀ row ∈ rows, ∀ x ∈ (s t.name).rows, holdsAll (t.recordValues row) x.2 = true ↔ x.2 = t.columnValues row

/-- Without foreign keys all values of a row are captured. -/
theorem recognized_of_plain {s : DbState J} (typed : s.Typed db.schema) (listed : t ∈ db.schema.tables)
    (plain : ∀ c ∈ t.columns, c.foreignKey = none) : Recognized t rows s := by
  intro row _ x there
  rw [recordValues_eq plain]
  constructor
  · exact eq_of_holdsAll columnValues_columns (typed t listed x there)
  · intro same
    rw [same]
    exact List.all_eq_true.mpr fun e member => anyColumn_eq.mpr ⟨e, member, rfl, rfl⟩

variable {s : DbState J} (recognized : Recognized t rows s)
include recognized

/-- A version that is found once is one stored record. -/
theorem existsUnique_of_found {row : Row J} (member : row ∈ rows) {key : Value J}
    (keyed : findColumn t.primaryKey (t.recordValues row) = some key) :
    ((s.view t.name).filter
      ((t.capturedRowFilter key (t.recordValues row)).holds db.predicates)).length = 1 →
    ∃! x, x ∈ (s t.name).rows ∧ x.2 = t.columnValues row := by
  intro once
  have versions : (s.view t.name).filter ((t.capturedRowFilter key (t.recordValues row)).holds db.predicates) =
      ((s t.name).rows.filter fun x => decide (x.2 = t.columnValues row)).map Prod.snd := by
    rw [DbState.view, List.filter_map]
    refine congrArg (List.map Prod.snd) (List.filter_congr fun x there => Bool.eq_iff_iff.mpr ?_)
    rw [decide_eq_true_eq, ← recognized row member x there]
    exact Bool.eq_iff_iff.mp (capturedRowFilter_holds keyed).2
  rw [versions, List.length_map, List.length_eq_one_iff] at once
  obtain ⟨x, only⟩ := once
  have mem : ∀ y, y ∈ (s t.name).rows ∧ y.2 = t.columnValues row ↔ y = x := by
    intro y
    have inside : y ∈ [x] ↔ y = x := List.mem_singleton
    rw [← inside, ← only, List.mem_filter, decide_eq_true_eq]
  exact ⟨x, (mem x).mpr rfl, fun y found => (mem y).mp found⟩

/-- The combined filter of the captured rows collects the records with their values. -/
theorem Captures.collects (captured : Captures t rows pairs) {first : Filter J F} {rest : List (Filter J F)}
    (filters : Database.capturedFilters t pairs = first :: rest) :
    ∃ records, db.collectMatchingRecords t (some (rest.foldl Filter.or first)) s = .ok records ∧
      ∀ x, x ∈ records ↔ x ∈ (s t.name).rows ∧ ∃ row ∈ rows, x.2 = t.columnValues row := by
  have total : ∀ filter ∈ first :: rest, ∀ found,
      filter.matches db.predicates found = .ok (filter.holds db.predicates found) := fun filter member found =>
    captured.total (filters ▸ member)
  rw [List.forall_mem_cons] at total
  have matched : ∀ values, db.recordMatchesFilter values (some (rest.foldl Filter.or first)) =
      .ok ((first :: rest).any fun filter => filter.holds db.predicates values) := fun values =>
    recordMatchesFilter_eq (matches_disjunction (total.1 values) fun f member => total.2 f member values)
  have safe : db.Evaluates (some (rest.foldl Filter.or first))
      (db.access t (some (rest.foldl Filter.or first)) (s t.name).rows) := fun x _ => ⟨_, matched x.2⟩
  have run := Database.collect_eq safe
  refine ⟨_, run, fun x => ?_⟩
  rw [Database.mem_collect run, Database.Selects, matched]
  refine and_congr_right fun there => ?_
  rw [Except.ok.injEq, List.any_eq_true]
  constructor
  · rintro ⟨filter, listed, holds⟩
    obtain ⟨row, member, key, keyed, rfl⟩ := captured.row_of_filter (filters ▸ listed)
    rw [(capturedRowFilter_holds keyed).2] at holds
    exact ⟨row, member, (recognized row member x there).mp holds⟩
  · rintro ⟨row, member, same⟩
    obtain ⟨key, keyed, filtered⟩ := captured.filter_of_row (F := F) member
    refine ⟨_, filters ▸ filtered, ?_⟩
    rw [(capturedRowFilter_holds keyed).2]
    exact (recognized row member x there).mpr same

/-- A captured row that is not found once as it was makes the commit fail with a
conflict. -/
theorem findsCaptured_or_conflict (captured : Captures t rows pairs) :
    db.FindsCaptured t (Database.capturedFilters t pairs) rows s ∨
      db.validatedTransactionFilter t (Database.capturedFilters t pairs) s = .error (Database.conflict t) := by
  have total : ∀ filter ∈ Database.capturedFilters t pairs, ∀ found ∈ s.view t.name,
      filter.matches db.predicates found = .ok (filter.holds db.predicates found) := fun _ member _ _ =>
    captured.total member
  rcases validatedTransactionFilter_cases total with ⟨filter, valid, whole, once⟩ | fails
  · refine .inl ⟨?_, filter, valid, ?_⟩
    · intro row member
      obtain ⟨key, keyed, filtered⟩ := captured.filter_of_row (F := F) member
      exact existsUnique_of_found recognized member keyed (once _ filtered)
    · rintro combined rfl
      obtain ⟨first, head, rfl⟩ := Option.map_eq_some_iff.mp whole.symm
      obtain ⟨records, collected, members⟩ := captured.collects recognized (List.cons_head?_tail head).symm
      exact ⟨records, collected, fun x member => ((members x).mp member).2⟩
  · exact .inr fails.1

end Captured
end WasmDbms
