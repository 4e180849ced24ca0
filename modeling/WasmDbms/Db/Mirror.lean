import WasmDbms.Db.Captured
import WasmDbms.Db.OverlayRows

/-!
# A transaction and its commit

The commit of a transaction that runs alone makes of the stored rows what the overlay
shows, one operation after the other, as long as the sanitizers leave the values as
they are and no foreign key carries a change to other rows.
-/
namespace WasmDbms
open Result

variable {J F : Type} [LinearOrder J]

section Values
variable {table : TableDef J} {row : Row J}

omit [LinearOrder J] in
/-- A record holds in a column the value of that name, when the column accepts it. -/
theorem recordValue_of_accepts (names : (row.map fun entry => entry.1.name).Nodup) {c : ColumnDef}
    {entry : ColumnDef × Value J} (member : entry ∈ row) (name : entry.1.name = c.name)
    (accepted : c.accepts entry.2 = true) : TableDef.recordValue c row = entry.2 := by
  unfold TableDef.recordValue
  have all : ∀ e ∈ row.filter fun e => e.1.name == c.name && c.accepts e.2, e = entry := by
    intro e listed
    obtain ⟨there, test⟩ := List.mem_filter.mp listed
    obtain ⟨same, _⟩ := Bool.and_eq_true_iff.mp test
    exact List.inj_on_of_nodup_map names there member ((beq_iff_eq.mp same).trans name.symm)
  have inside : entry ∈ row.filter fun e => e.1.name == c.name && c.accepts e.2 :=
    List.mem_filter.mpr ⟨member, Bool.and_eq_true_iff.mpr ⟨beq_iff_eq.mpr name, accepted⟩⟩
  cases last : (row.filter fun e => e.1.name == c.name && c.accepts e.2).getLast? with
  | none =>
      rw [List.getLast?_eq_none_iff.mp last] at inside
      cases inside
  | some e =>
      rw [all e (List.mem_of_getLast? last)]
      rfl

omit [LinearOrder J] in
theorem Complete.recordValue_eq (complete : Complete table row) {entry : ColumnDef × Value J} (member : entry ∈ row) :
    TableDef.recordValue entry.1 row = entry.2 :=
  recordValue_of_accepts complete.names member rfl (accepts_iff.mpr (complete.typed entry member))

omit [LinearOrder J] in
/-- The values of all columns are those of the row, in the order of the table. -/
theorem Complete.perm_columnValues (complete : Complete table row) : row.Perm (table.columnValues row) := by
  have here : row = (row.map Prod.fst).map fun column => (column, TableDef.recordValue column row) := by
    rw [List.map_map]
    conv_lhs => rw [← List.map_id row]
    apply List.map_congr_left
    intro entry member
    exact Prod.ext rfl (complete.recordValue_eq member).symm
  conv_lhs => rw [here]
  exact complete.columns.map _

omit [LinearOrder J] in
theorem Complete.columnValues_row (complete : Complete table row) :
    RowOf table.columns (table.columnValues row) :=
  ⟨columnValues_columns, fun entry member => complete.typed entry (complete.perm_columnValues.symm.subset member)⟩

omit [LinearOrder J] in
theorem columnValues_eq (record : RowOf table.columns row) : table.columnValues row = row := by
  have complete := record.complete
  rw [TableDef.columnValues, ← record.names, List.map_map]
  conv_rhs => rw [← List.map_id row]
  apply List.map_congr_left
  intro entry member
  exact Prod.ext rfl (complete.recordValue_eq member)

omit [LinearOrder J] in
theorem Complete.findColumn_columnValues (complete : Complete table row) (name : String) :
    findColumn name (table.columnValues row) = findColumn name row :=
  (findColumn_perm complete.names complete.perm_columnValues name).symm

omit [LinearOrder J] in
/-- What `from_values` makes of a row. -/
theorem fromValues_eq {record : Row J} (run : table.fromValues row = .ok record) : record = table.columnValues row := by
  have pairs := mapM_forall₂ run
  unfold TableDef.columnValues
  clear run
  generalize table.columns = columns at pairs
  induction pairs with
  | nil => rfl
  | cons first _ ih =>
      rw [List.map_cons, ← ih]
      refine congrArg (· :: _) ?_
      unfold TableDef.fieldOf at first
      unfold TableDef.recordValue
      split at first
      next entry last =>
        cases first
        rw [last]
        rfl
      next absent =>
        split at first
        next =>
          cases first
          rw [absent]
          rfl
        next => cases first

variable {patch : Row J}

omit [LinearOrder J] in
/-- A typed record that is patched is one. -/
theorem RowOf.patched (record : RowOf table.columns row) (patches : Patches table patch) :
    RowOf table.columns (patchValues patch row) := by
  refine ⟨?_, (record.complete.patched patches).typed⟩
  rw [patchValues_eq record.complete.names patches.names, List.map_map]
  exact record.names

variable (complete : Complete table row) (patches : Patches table patch)
include complete patches

omit [LinearOrder J] in
/-- A patch sets columns in whatever order they stand. -/
theorem Complete.columnValues_patch :
    table.columnValues (patchValues patch row) = patchValues patch (table.columnValues row) := by
  have record := complete.columnValues_row
  have patched := record.patched patches
  have perm : (patchValues patch row).Perm (patchValues patch (table.columnValues row)) := by
    rw [patchValues_eq complete.names patches.names, patchValues_eq record.complete.names patches.names]
    exact complete.perm_columnValues.map _
  have whole := complete.patched patches
  have same := whole.perm_columnValues.symm.trans perm
  -- both have the columns in the order of the table
  rw [← columnValues_eq patched]
  apply List.map_congr_left
  intro column listed
  obtain ⟨entry, member, rfl⟩ := List.mem_map.mp (whole.columns.symm.subset listed)
  rw [whole.recordValue_eq member, patched.complete.recordValue_eq (perm.subset member)]

end Values

/-- Tables with typed records at distinct addresses, with distinct primary keys. -/
structure DbState.Clean (schema : DatabaseSchema J) (s : DbState J) : Prop where
  typed : s.Typed schema
  addresses : ∀ t ∈ schema.tables, ((s t.name).rows.map Prod.fst).Nodup
  keys : ∀ t ∈ schema.tables, ((s t.name).rows.map fun x => findColumn t.primaryKey x.2).Nodup

/-- The stored records are those a view shows. -/
structure Mirrors (schema : DatabaseSchema J) (view : View J) (s : DbState J) : Prop where
  complete : ∀ t ∈ schema.tables, ∀ row ∈ view t.name, Complete t row
  rows : ∀ t ∈ schema.tables, (s.view t.name).Perm ((view t.name).map t.columnValues)

section Mirrors
variable {schema : DatabaseSchema J} {view : View J} {s : DbState J} {t : TableDef J}

omit [LinearOrder J] in
/-- What is stored is shown. -/
theorem DbState.Typed.mirrors (typed : s.Typed schema) : Mirrors schema s.view s := by
  have record : ∀ t ∈ schema.tables, ∀ row ∈ s.view t.name, RowOf t.columns row := by
    intro t listed row member
    obtain ⟨x, there, rfl⟩ := List.mem_map.mp member
    exact typed t listed x there
  refine ⟨fun t listed row member => (record t listed row member).complete, fun t listed => ?_⟩
  have same : (s.view t.name).map t.columnValues = s.view t.name := by
    conv_rhs => rw [← List.map_id (s.view t.name)]
    exact List.map_congr_left fun row member => columnValues_eq (record t listed row member)
  rw [same]

section Shown
variable (mirrors : Mirrors schema view s) (listed : t ∈ schema.tables)
include mirrors listed

omit [LinearOrder J] in
/-- A row that is shown is stored. -/
theorem Mirrors.stored {row : Row J} (member : row ∈ view t.name) :
    ∃ x ∈ (s t.name).rows, x.2 = t.columnValues row := by
  have there := (mirrors.rows t listed).symm.subset (List.mem_map_of_mem member)
  obtain ⟨x, stored, same⟩ := List.mem_map.mp there
  exact ⟨x, stored, same⟩

omit [LinearOrder J] in
/-- A stored record is shown. -/
theorem Mirrors.shown {x : RecordAddress × Row J} (stored : x ∈ (s t.name).rows) :
    ∃ row ∈ view t.name, x.2 = t.columnValues row := by
  have there := (mirrors.rows t listed).subset (List.mem_map_of_mem stored)
  obtain ⟨row, member, same⟩ := List.mem_map.mp there
  exact ⟨row, member, same.symm⟩

end Shown

section Keys
variable (clean : s.Clean schema) (listed : t ∈ schema.tables)
include clean listed

omit [LinearOrder J] in
/-- A stored record is known by its primary key. -/
theorem DbState.Clean.eq_of_key {x y : RecordAddress × Row J} (here : x ∈ (s t.name).rows)
    (there : y ∈ (s t.name).rows) (keys : findColumn t.primaryKey x.2 = findColumn t.primaryKey y.2) : x = y :=
  List.inj_on_of_nodup_map (clean.keys t listed) here there keys

omit [LinearOrder J] in
theorem DbState.Clean.nodup : (s t.name).rows.Nodup := .of_map _ (clean.addresses t listed)

end Keys

omit [LinearOrder J] in
/-- The primary key of the typed record of a row. -/
theorem Complete.key_of_recordValues {row : Row J} (complete : Complete t row) {key : Value J}
    (keyed : findColumn t.primaryKey (t.recordValues row) = some key) : findColumn t.primaryKey row = some key := by
  obtain ⟨entry, member, name, rfl⟩ := mem_of_findColumn keyed
  have inside : entry ∈ t.columnValues row := by
    obtain ⟨c, column, rfl⟩ := List.mem_map.mp member
    exact List.mem_map_of_mem (List.mem_of_mem_filter column)
  rw [← complete.findColumn_columnValues, ← name]
  exact findColumn_eq complete.columnValues_row.complete.names inside

section Captured
variable {rows : List (Row J)} {pairs : List (Value J × Row J)}
variable (clean : s.Clean schema) (mirrors : Mirrors schema view s) (listed : t ∈ schema.tables)
variable (shown : ∀ row ∈ rows, row ∈ view t.name) (captured : Captures t rows pairs)
include clean mirrors listed shown captured

/-- A captured row that is shown is recognized by its primary key. -/
theorem Mirrors.recognized : Recognized t rows s := by
  intro row member x there
  have complete := mirrors.complete t listed row (shown row member)
  constructor
  · intro holds
    obtain ⟨y, stored, same⟩ := mirrors.stored listed (shown row member)
    obtain ⟨key, keyed, _⟩ := captured.filter_of_row (F := Empty) member
    obtain ⟨entry, inside, name, value⟩ := mem_of_findColumn keyed
    obtain ⟨e, here, eName, eValue⟩ := anyColumn_eq.mp (List.all_eq_true.mp holds entry inside)
    have record := (clean.typed t listed x there).complete
    have keyX : findColumn t.primaryKey x.2 = some key := by
      rw [← name, ← eName, findColumn_eq record.names here, eValue, value]
    have keyY : findColumn t.primaryKey y.2 = some key := by
      rw [same, complete.findColumn_columnValues]
      exact complete.key_of_recordValues keyed
    rw [clean.eq_of_key listed there stored (keyX.trans keyY.symm)]
    exact same
  · intro same
    rw [same]
    refine List.all_eq_true.mpr fun e inside => anyColumn_eq.mpr ⟨e, ?_, rfl, rfl⟩
    obtain ⟨c, column, rfl⟩ := List.mem_map.mp inside
    exact List.mem_map_of_mem (List.mem_of_mem_filter column)

/-- The filter of a captured row finds one stored record. -/
theorem Mirrors.finds_once (db : Database J F) {filter : Filter J F}
    (member : filter ∈ Database.capturedFilters t pairs) :
    ∃ row, (s.view t.name).filter (filter.holds db.predicates) = [row] := by
  obtain ⟨row, here, key, keyed, rfl⟩ := captured.row_of_filter member
  obtain ⟨y, stored, same⟩ := mirrors.stored listed (shown row here)
  have recognized := mirrors.recognized clean listed shown captured row here
  have versions : (s t.name).rows.filter (fun x => holdsAll (t.recordValues row) x.2) = [y] := by
    apply List.perm_singleton.mp
    rw [List.perm_ext_iff_of_nodup ((clean.nodup listed).filter _) (List.nodup_singleton y)]
    intro x
    rw [List.mem_filter, List.mem_singleton]
    constructor
    · rintro ⟨there, holds⟩
      refine clean.eq_of_key listed there stored ?_
      rw [(recognized x there).mp holds, same]
    · rintro rfl
      exact ⟨stored, (recognized x stored).mpr same⟩
  refine ⟨y.2, ?_⟩
  rw [DbState.view, List.filter_map]
  have test : ((t.capturedRowFilter key (t.recordValues row)).holds db.predicates) ∘ Prod.snd =
      fun x : RecordAddress × Row J => holdsAll (t.recordValues row) x.2 :=
    funext fun x => (capturedRowFilter_holds keyed).2
  rw [test, versions]
  rfl

omit [LinearOrder J] in
/-- The stored records with the values of captured rows are those with their keys. -/
theorem Mirrors.captured_iff {x : RecordAddress × Row J} (there : x ∈ (s t.name).rows) :
    (∃ row ∈ rows, x.2 = t.columnValues row) ↔ ∃ key ∈ pairs.map Prod.fst, findColumn t.primaryKey x.2 = some key := by
  constructor
  · rintro ⟨row, member, same⟩
    have complete := mirrors.complete t listed row (shown row member)
    obtain ⟨i, inside, rfl⟩ := List.getElem_of_mem member
    have inside' : i < pairs.length := captured.length_eq ▸ inside
    obtain ⟨keyed, _⟩ := captured.get inside inside'
    refine ⟨_, List.mem_map_of_mem (List.getElem_mem inside'), ?_⟩
    rw [same, complete.findColumn_columnValues]
    exact complete.key_of_recordValues keyed
  · rintro ⟨key, named, keyX⟩
    obtain ⟨pair, pairMember, rfl⟩ := List.mem_map.mp named
    obtain ⟨i, inside', rfl⟩ := List.getElem_of_mem pairMember
    have inside : i < rows.length := captured.length_eq.symm ▸ inside'
    obtain ⟨keyed, _⟩ := captured.get inside inside'
    have row := shown _ (List.getElem_mem inside)
    have complete := mirrors.complete t listed _ row
    obtain ⟨y, stored, same⟩ := mirrors.stored listed row
    have keyY : findColumn t.primaryKey y.2 = some pairs[i].1 := by
      rw [same, complete.findColumn_columnValues]
      exact complete.key_of_recordValues keyed
    obtain rfl := clean.eq_of_key listed there stored (keyX.trans keyY.symm)
    exact ⟨_, List.getElem_mem inside, same⟩

/-- The check of the captured rows passes, and the combined filter collects the stored
records with their keys. -/
theorem Mirrors.validated (db : Database J F) :
    ∃ whole, db.validatedTransactionFilter t (Database.capturedFilters t pairs) s = .ok whole ∧
      (whole = none → pairs = []) ∧ ∀ filter, whole = some filter →
        ∃ records, db.collectMatchingRecords t (some filter) s = .ok records ∧
          ∀ x, x ∈ records ↔ x ∈ (s t.name).rows ∧
            ∃ key ∈ pairs.map Prod.fst, findColumn t.primaryKey x.2 = some key := by
  have total : ∀ filter ∈ Database.capturedFilters t pairs, ∀ found ∈ s.view t.name,
      filter.matches db.predicates found = .ok (filter.holds db.predicates found) := fun _ member _ _ =>
    captured.total member
  rcases validatedTransactionFilter_cases total with ⟨whole, valid, same, _⟩ | ⟨_, filter, member, notOnce⟩
  · refine ⟨whole, valid, ?_, ?_⟩
    · rintro rfl
      have empty := List.head?_eq_none_iff.mp (Option.map_eq_none_iff.mp same.symm)
      exact List.map_eq_nil_iff.mp empty
    · rintro combined rfl
      obtain ⟨first, head, rfl⟩ := Option.map_eq_some_iff.mp same.symm
      obtain ⟨records, collected, members⟩ :=
        captured.collects (mirrors.recognized clean listed shown captured) (List.cons_head?_tail head).symm
      refine ⟨records, collected, fun x => ?_⟩
      rw [members]
      exact and_congr_right fun there => mirrors.captured_iff clean listed shown captured there
  · obtain ⟨row, only⟩ := mirrors.finds_once clean listed shown captured db member
    exact absurd (by rw [only]; rfl) notOnce

end Captured
end Mirrors
end WasmDbms
