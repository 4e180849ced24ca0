import WasmDbms.Db.EagerRelations

/-!
# The batches of the eager relations

The values that are collected for a relation are those of its foreign keys that are not null,
each once for its column. The query for them finds the rows that have them, and the batch
holds the typed record of each, unless the column is itself a foreign key.
-/
namespace WasmDbms
open Result

variable {J F : Type}

/-! ## The values to fetch -/

/-- The foreign key values of a row for a relation, with their columns. -/
def rowWants (relation : String) (row : Row J) : Set (String × Value J) :=
  {x | ∃ entry ∈ row, ∃ fk, entry.1.foreignKey = some fk ∧ fk.foreignTable = relation ∧ fk.localColumn = x.1 ∧
    entry.2 = x.2 ∧ entry.2.isNull = false}

/-- The collected values: each column once, with at least one value. -/
structure Collected (fkColumns : FkColumns J) (pairs : Set (String × Value J)) : Prop where
  names : (fkColumns.map Prod.fst).Nodup
  filled : ∀ entry ∈ fkColumns, entry.2 ≠ []
  mem : ∀ column value, (∃ values, (column, values) ∈ fkColumns ∧ value ∈ values) ↔ (column, value) ∈ pairs

section Collect
variable [LinearOrder J] {relation : String} {fkColumns : FkColumns J} {pairs : Set (String × Value J)}

theorem addFkValue_names {column : String} {value : Value J} :
    (addFkValue column value fkColumns).map Prod.fst =
      if column ∈ fkColumns.map Prod.fst then fkColumns.map Prod.fst else fkColumns.map Prod.fst ++ [column] := by
  induction fkColumns with
  | nil => rfl
  | cons entry rest ih =>
      rw [addFkValue, List.map_cons]
      by_cases here : entry.1 = column
      · have own : column ∈ entry.1 :: rest.map Prod.fst := here ▸ List.mem_cons_self
        rw [if_pos here, if_pos own]
        rfl
      · rw [if_neg here, List.map_cons, ih]
        have other : column ∈ entry.1 :: rest.map Prod.fst ↔ column ∈ rest.map Prod.fst := by
          rw [List.mem_cons, or_iff_right (Ne.symm here)]
        by_cases later : column ∈ rest.map Prod.fst
        · rw [if_pos later, if_pos (other.mpr later)]
        · rw [if_neg later, if_neg (fun there => later (other.mp there)), List.cons_append]

/-- The entries after a value was added: those of other columns, and one of its column. -/
theorem mem_addFkValue {column : String} {value : Value J} (names : (fkColumns.map Prod.fst).Nodup)
    {entry : String × List (Value J)} :
    entry ∈ addFkValue column value fkColumns ↔ (entry ∈ fkColumns ∧ entry.1 ≠ column) ∨
      (entry.1 = column ∧ ∃ old, ((column, old) ∈ fkColumns ∨ column ∉ fkColumns.map Prod.fst ∧ old = []) ∧
        entry.2 = if value ∈ old then old else value :: old) := by
  induction fkColumns with
  | nil =>
      rw [addFkValue, List.mem_singleton]
      constructor
      · rintro rfl
        exact .inr ⟨rfl, [], .inr ⟨List.not_mem_nil, rfl⟩, rfl⟩
      · rintro (⟨no, _⟩ | ⟨same, old, (no | ⟨_, rfl⟩), values⟩)
        · cases no
        · cases no
        · exact Prod.ext same values
  | cons first rest ih =>
      rw [List.map_cons, List.nodup_cons] at names
      rw [addFkValue]
      by_cases here : first.1 = column
      · subst here
        rw [if_pos rfl, List.mem_cons]
        constructor
        · rintro (rfl | later)
          · exact .inr ⟨rfl, first.2, .inl List.mem_cons_self, rfl⟩
          · refine .inl ⟨List.mem_cons_of_mem _ later, fun same => names.1 ?_⟩
            exact same ▸ List.mem_map_of_mem later
        · rintro (⟨there, other⟩ | ⟨same, old, (known | ⟨absent, _⟩), values⟩)
          · refine .inr ((List.mem_cons.mp there).resolve_left ?_)
            rintro rfl
            exact other rfl
          · rcases List.mem_cons.mp known with own | later
            · left
              exact Prod.ext same (by rw [values, ← own])
            · exact absurd (List.mem_map_of_mem later) names.1
          · exact absurd List.mem_cons_self absent
      · rw [if_neg here, List.mem_cons, ih names.2]
        have inRest : ∀ old : List (Value J), ((column, old) ∈ first :: rest ∨ column ∉ (first :: rest).map Prod.fst ∧ old = []) ↔
            ((column, old) ∈ rest ∨ column ∉ rest.map Prod.fst ∧ old = []) := by
          intro old
          rw [List.mem_cons, List.map_cons, List.mem_cons, not_or]
          have apart : (column, old) ≠ first := fun same => here (same ▸ rfl)
          rw [or_iff_right apart, and_iff_right (Ne.symm here)]
        simp only [inRest]
        rw [List.mem_cons]
        constructor
        · rintro (rfl | ⟨there, other⟩ | found)
          · exact .inl ⟨.inl rfl, here⟩
          · exact .inl ⟨.inr there, other⟩
          · exact .inr found
        · rintro (⟨rfl | there, other⟩ | found)
          · exact .inl rfl
          · exact .inr (.inl ⟨there, other⟩)
          · exact .inr (.inr found)

theorem Collected.add (collected : Collected fkColumns pairs) (column : String) (value : Value J) :
    Collected (addFkValue column value fkColumns) (insert (column, value) pairs) := by
  have names := collected.names
  refine ⟨?_, ?_, ?_⟩
  · rw [addFkValue_names]
    split
    next => exact names
    next absent =>
      rw [List.nodup_append]
      refine ⟨names, List.nodup_singleton _, fun a listed b same => ?_⟩
      rw [List.mem_singleton.mp same]
      rintro rfl
      exact absent listed
  · intro entry member
    rcases (mem_addFkValue names).mp member with ⟨there, _⟩ | ⟨_, old, _, values⟩
    · exact collected.filled entry there
    · rw [values]
      split
      next held => exact List.ne_nil_of_mem held
      next => exact List.cons_ne_nil _ _
  · intro c v
    rw [Set.mem_insert_iff, Prod.mk.injEq, ← collected.mem]
    constructor
    · rintro ⟨values, member, held⟩
      rcases (mem_addFkValue names).mp member with ⟨there, _⟩ | ⟨rfl, old, known, rfl⟩
      · exact .inr ⟨values, there, held⟩
      · by_cases here : v = value
        · exact .inl ⟨rfl, here⟩
        · have inOld : v ∈ old := by
            split at held
            next => exact held
            next => exact (List.mem_cons.mp held).resolve_left here
          rcases known with known | ⟨_, rfl⟩
          · exact .inr ⟨old, known, inOld⟩
          · cases inOld
    · rintro (⟨rfl, rfl⟩ | ⟨values, there, held⟩)
      · by_cases known : c ∈ fkColumns.map Prod.fst
        · obtain ⟨⟨_, old⟩, listed, rfl⟩ := List.mem_map.mp known
          refine ⟨if v ∈ old then old else v :: old,
            (mem_addFkValue names).mpr (.inr ⟨rfl, old, .inl listed, rfl⟩), ?_⟩
          split
          next held => exact held
          next => exact List.mem_cons_self
        · exact ⟨_, (mem_addFkValue names).mpr (.inr ⟨rfl, [], .inr ⟨known, rfl⟩, rfl⟩), List.mem_cons_self⟩
      · by_cases here : c = column
        · subst here
          refine ⟨if value ∈ values then values else value :: values,
            (mem_addFkValue names).mpr (.inr ⟨rfl, values, .inl there, rfl⟩), ?_⟩
          split
          next => exact held
          next => exact List.mem_cons_of_mem _ held
        · exact ⟨values, (mem_addFkValue names).mpr (.inl ⟨there, here⟩), held⟩

omit [LinearOrder J] in
theorem rowWants_cons {entry : ColumnDef × Value J} {rest : Row J} :
    rowWants relation (entry :: rest) = rowWants relation [entry] ∪ rowWants relation rest := by
  ext x
  constructor
  · rintro ⟨e, member, own⟩
    rcases List.mem_cons.mp member with rfl | later
    · exact .inl ⟨e, List.mem_singleton_self e, own⟩
    · exact .inr ⟨e, later, own⟩
  · rintro (⟨e, member, own⟩ | ⟨e, later, own⟩)
    · exact ⟨e, List.mem_cons.mpr (.inl (List.mem_singleton.mp member)), own⟩
    · exact ⟨e, List.mem_cons_of_mem _ later, own⟩

/-- One column adds its value. -/
theorem Collected.column (flag : Bool) (relation : String) (collected : Collected fkColumns pairs)
    (entry : ColumnDef × Value J) :
    Collected (collectColumn relation (fkColumns, flag) entry).1 (pairs ∪ rowWants relation [entry]) ∧
      ((collectColumn relation (fkColumns, flag) entry).2 = true ↔
        flag = true ∨ ∃ fk, entry.1.foreignKey = some fk ∧ fk.foreignTable = relation) := by
  have nothing : (∀ fk, entry.1.foreignKey = some fk → fk.foreignTable = relation → entry.2.isNull = true) →
      pairs ∪ rowWants relation [entry] = pairs := by
    intro without
    rw [Set.union_eq_left]
    rintro x ⟨_, member, fk, key, table, _, _, value⟩
    obtain rfl := List.mem_singleton.mp member
    rw [without fk key table] at value
    cases value
  cases key : entry.1.foreignKey with
  | none =>
      have same : collectColumn relation (fkColumns, flag) entry = (fkColumns, flag) := by
        rw [collectColumn, key]
      rw [same, nothing fun fk other => (by rw [key] at other; cases other)]
      exact ⟨collected, ⟨.inl, fun found => found.resolve_right fun ⟨_, no, _⟩ => (by cases no)⟩⟩
  | some fk =>
      have step : collectColumn relation (fkColumns, flag) entry =
          if fk.foreignTable ≠ relation then (fkColumns, flag)
          else if entry.2.isNull then (fkColumns, true) else (addFkValue fk.localColumn entry.2 fkColumns, true) := by
        rw [collectColumn, key]
      rw [step]
      by_cases here : fk.foreignTable = relation
      · have found : flag = true ∨ ∃ fk', some fk = some fk' ∧ fk'.foreignTable = relation := .inr ⟨fk, rfl, here⟩
        rw [if_neg (not_not.mpr here)]
        cases null : entry.2.isNull with
        | true =>
            rw [if_pos rfl, nothing fun _ _ _ => null]
            exact ⟨collected, ⟨fun _ => found, fun _ => rfl⟩⟩
        | false =>
            rw [if_neg Bool.false_ne_true]
            have own : pairs ∪ rowWants relation [entry] = insert (fk.localColumn, entry.2) pairs := by
              rw [Set.union_comm, Set.insert_eq]
              refine congrArg (· ∪ pairs) (Set.ext fun x => ?_)
              constructor
              · rintro ⟨_, member, fk', key', _, column, value, _⟩
                obtain rfl := List.mem_singleton.mp member
                rw [key] at key'
                cases key'
                exact Prod.ext column.symm value.symm
              · rintro rfl
                exact ⟨entry, List.mem_cons_self, fk, key, here, rfl, rfl, null⟩
            rw [own]
            exact ⟨collected.add _ _, ⟨fun _ => found, fun _ => rfl⟩⟩
      · rw [if_pos here, nothing fun fk' key' table => ?_]
        · refine ⟨collected, ⟨.inl, fun found => found.resolve_right ?_⟩⟩
          rintro ⟨fk', same, table⟩
          cases same
          exact here table
        · rw [key] at key'
          cases key'
          exact absurd table here

theorem Collected.row (row : Row J) (flag : Bool) (relation : String) (collected : Collected fkColumns pairs) :
    Collected (row.foldl (collectColumn relation) (fkColumns, flag)).1 (pairs ∪ rowWants relation row) ∧
      ((row.foldl (collectColumn relation) (fkColumns, flag)).2 = true ↔
        flag = true ∨ ∃ entry ∈ row, ∃ fk, entry.1.foreignKey = some fk ∧ fk.foreignTable = relation) := by
  induction row generalizing fkColumns flag pairs with
  | nil =>
      have none_ : pairs ∪ rowWants relation ([] : Row J) = pairs := by
        ext x
        exact ⟨fun member => member.resolve_right fun ⟨_, no, _⟩ => (by cases no), .inl⟩
      rw [none_]
      exact ⟨collected, ⟨.inl, fun found => found.resolve_right fun ⟨_, no, _⟩ => (by cases no)⟩⟩
  | cons entry rest ih =>
      obtain ⟨first, flagged⟩ := collected.column flag relation entry
      obtain ⟨later, found⟩ := ih _ first
      rw [List.foldl_cons, rowWants_cons, ← Set.union_assoc, List.exists_mem_cons_iff, ← or_assoc, ← flagged]
      exact ⟨later, found⟩

/-- The rows with the parts they have so far. -/
def whole (parts : Row J → TableColumns J) (row : Row J) : TableColumns J := (.this, row) :: parts row

omit [LinearOrder J] in
theorem thisColumns_whole {parts : Row J → TableColumns J} {row : Row J} : thisColumns (whole parts row) = some row := rfl

/-- The table has a foreign key to the relation. -/
def TableDef.Declares (table : TableDef J) (relation : String) : Prop :=
  ∃ column ∈ table.columns, ∃ fk, column.foreignKey = some fk ∧ fk.foreignTable = relation

omit [LinearOrder J] in
theorem Complete.declares {table : TableDef J} {row : Row J} (complete : Complete table row) :
    (∃ entry ∈ row, ∃ fk, entry.1.foreignKey = some fk ∧ fk.foreignTable = relation) ↔ table.Declares relation := by
  constructor
  · rintro ⟨entry, member, key⟩
    exact ⟨entry.1, complete.column member, key⟩
  · rintro ⟨column, listed, key⟩
    obtain ⟨entry, member, rfl⟩ := List.mem_map.mp (complete.columns.symm.subset listed)
    exact ⟨entry, member, key⟩

/-- The values of all rows are collected, if the table has a foreign key to the relation. -/
theorem collectFkValues_ok {table : TableDef J} {rows : List (Row J)} (parts : Row J → TableColumns J)
    (complete : ∀ row ∈ rows, Complete table row) (declared : table.Declares relation ∨ rows = []) :
    ∃ fkColumns, collectFkValues table relation (rows.map (whole parts)) = .ok fkColumns ∧
      Collected fkColumns {x | ∃ row ∈ rows, x ∈ rowWants relation row} := by
  have loop : ∀ (rest : List (Row J)) (fkColumns : FkColumns J) (pairs : Set (String × Value J)),
      (∀ row ∈ rest, row ∈ rows) → Collected fkColumns pairs →
      ∃ final, (rest.map (whole parts)).foldlM (collectRecord table relation) fkColumns = .ok final ∧
        Collected final (pairs ∪ {x | ∃ row ∈ rest, x ∈ rowWants relation row}) := by
    intro rest
    induction rest with
    | nil =>
        intro fkColumns pairs _ collected
        refine ⟨fkColumns, rfl, ?_⟩
        have none_ : pairs ∪ {x | ∃ row ∈ ([] : List (Row J)), x ∈ rowWants relation row} = pairs := by
          ext x
          exact ⟨fun member => member.resolve_right fun ⟨_, no, _⟩ => (by cases no), .inl⟩
        rw [none_]
        exact collected
    | cons row rest ih =>
        intro fkColumns pairs inside collected
        obtain ⟨here, later⟩ := List.forall_mem_cons.mp inside
        obtain ⟨next, flagged⟩ := collected.row row false relation
        have found := flagged.mpr (.inr ((complete row here).declares.mpr
          (declared.resolve_right (List.ne_nil_of_mem here))))
        have step : collectRecord table relation fkColumns (whole parts row) =
            .ok (row.foldl (collectColumn relation) (fkColumns, false)).1 := by
          unfold collectRecord
          rw [thisColumns_whole]
          exact if_pos found
        obtain ⟨final, run, all⟩ := ih _ _ later next
        refine ⟨final, ?_, ?_⟩
        · rw [List.map_cons, List.foldlM_cons, step]
          exact run
        · have both : pairs ∪ {x | ∃ r ∈ row :: rest, x ∈ rowWants relation r} =
              pairs ∪ rowWants relation row ∪ {x | ∃ r ∈ rest, x ∈ rowWants relation r} := by
            ext x
            rw [Set.union_assoc]
            exact or_congr_right (List.exists_mem_cons_iff ..)
          rw [both]
          exact all
  obtain ⟨final, run, all⟩ := loop rows [] ∅ (fun _ member => member)
    ⟨List.nodup_nil, fun _ no => absurd no List.not_mem_nil, fun _ _ => ⟨fun ⟨_, no, _⟩ => (by cases no), False.elim⟩⟩
  rw [Set.empty_union] at all
  exact ⟨final, run, all⟩

/-- A relation without a foreign key is refused as soon as there is a row. -/
theorem collectFkValues_undeclared {table : TableDef J} {rows : List (Row J)} (parts : Row J → TableColumns J)
    (complete : ∀ row ∈ rows, Complete table row) (undeclared : ¬ table.Declares relation) (some_ : rows ≠ []) :
    ∃ e, collectFkValues table relation (rows.map (whole parts)) = .error e := by
  cases rows with
  | nil => exact absurd rfl some_
  | cons row rest =>
      have start : Collected ([] : FkColumns J) ∅ := ⟨List.nodup_nil, fun _ no => absurd no List.not_mem_nil,
        fun _ _ => ⟨fun ⟨_, no, _⟩ => (by cases no), False.elim⟩⟩
      obtain ⟨_, flagged⟩ := start.row row false relation
      have missing : ¬ (row.foldl (collectColumn relation) (([] : FkColumns J), false)).2 = true := by
        rw [flagged, (complete row List.mem_cons_self).declares]
        exact fun found => found.elim Bool.false_ne_true undeclared
      have step : ∃ e, collectRecord table relation [] (whole parts row) = .error e := by
        unfold collectRecord
        rw [thisColumns_whole]
        exact ⟨_, if_neg missing⟩
      obtain ⟨e, step⟩ := step
      refine ⟨e, ?_⟩
      rw [collectFkValues, List.map_cons, List.foldlM_cons, step]
      rfl

end Collect

/-! ## The rows that are fetched -/

/-- The columns of a row that are no foreign keys. -/
def ownColumns (row : Row J) : Row J := row.filter fun entry => entry.1.foreignKey.isNone

section Fetch
variable {table : TableDef J} {row : Row J}

theorem recordValue_eq (complete : Complete table row) {entry : ColumnDef × Value J} (member : entry ∈ row) :
    recordValue entry.1 row = entry.2 := by
  have accepted : entry.1.accepts entry.2 = true := by
    rcases complete.typed entry member with kind | ⟨null, nullable⟩
    · simp [ColumnDef.accepts, kind]
    · simp [ColumnDef.accepts, null, nullable, Value.isNull]
  have own : ∀ e ∈ row.filter fun e => e.1.name == entry.1.name && entry.1.accepts e.2, e = entry := by
    intro e kept
    obtain ⟨there, named⟩ := List.mem_filter.mp kept
    have same : e.1.name = entry.1.name := beq_iff_eq.mp (Bool.and_eq_true_iff.mp named).1
    exact List.inj_on_of_nodup_map complete.names there member same
  have kept : entry ∈ row.filter fun e => e.1.name == entry.1.name && entry.1.accepts e.2 :=
    List.mem_filter.mpr ⟨member, by rw [accepted, beq_self_eq_true, Bool.and_true]⟩
  unfold recordValue
  rw [List.getLast?_eq_some_getLast (List.ne_nil_of_mem kept), own _ (List.getLast_mem _)]
  rfl

/-- The typed record of a row has its values, without those of the foreign keys. -/
theorem toValues_perm (complete : Complete table row) : (toValues table row).Perm (ownColumns row) := by
  have columns := (complete.columns.filter fun column => column.foreignKey.isNone).symm.map
    fun column => (column, recordValue column row)
  refine columns.trans (.of_eq ?_)
  rw [List.filter_map, List.map_map]
  refine (List.map_congr_left fun entry kept => ?_).trans (List.map_id _)
  exact Prod.ext rfl (recordValue_eq complete (List.mem_of_mem_filter kept))

theorem ownColumns_names (complete : Complete table row) : ((ownColumns row).map fun entry => entry.1.name).Nodup :=
  complete.names.sublist (List.filter_sublist.map _)

/-- A column is in the typed record if it is no foreign key. -/
theorem findColumn_toValues (complete : Complete table row) {column : ColumnDef} (listed : column ∈ table.columns) :
    findColumn column.name (toValues table row) =
      if column.foreignKey.isNone then findColumn column.name row else none := by
  have perm := toValues_perm complete
  have names := (perm.map fun entry => entry.1.name).nodup_iff.mpr (ownColumns_names complete)
  have own : ∀ entry ∈ row, entry.1.name = column.name → entry.1 = column := fun entry member same =>
    List.inj_on_of_nodup_map table.columnNames (complete.column member) listed same
  rw [findColumn_perm names perm]
  obtain ⟨entry, member, rfl⟩ := List.mem_map.mp (complete.columns.symm.subset listed)
  cases plain : entry.1.foreignKey.isNone with
  | true =>
      rw [if_pos rfl, findColumn_eq complete.names member]
      exact findColumn_eq (ownColumns_names complete) (List.mem_filter.mpr ⟨member, plain⟩)
  | false =>
      rw [if_neg Bool.false_ne_true]
      refine findColumn_none fun named => ?_
      obtain ⟨other, kept, same⟩ := List.mem_map.mp named
      obtain ⟨there, none_⟩ := List.mem_filter.mp kept
      rw [own other there same, plain] at none_
      cases none_

end Fetch

section Batch
variable [LinearOrder J] {db : Database J F} {s : DbState J} {tx : Option (Transaction J F)}

/-- The tables as the queries see them. Each foreign key that is not null has the value of a
row it refers to. -/
structure Loads (db : Database J F) (s : DbState J) (tx : Option (Transaction J F)) : Prop where
  content : ∀ t ∈ db.schema.tables, SelectQuery.Content t (s t.name) tx.isSome (changesOf tx t)
  changes : ∀ t ∈ db.schema.tables, ∀ operations, changesOf tx t = some operations → Changes t operations
  references : ∀ t ∈ db.schema.tables, ∀ row ∈ visibleRows tx s t, ∀ entry ∈ row, ∀ fk,
    entry.1.foreignKey = some fk → entry.2.isNull = false →
      ∃ t' ∈ db.schema.tables, t'.name = fk.foreignTable ∧
        ∃ target ∈ visibleRows tx s t', findColumn fk.foreignColumn target = some entry.2

theorem Loads.complete (loads : Loads db s tx) {t : TableDef J} (listed : t ∈ db.schema.tables) :
    ∀ row ∈ visibleRows tx s t, Complete t row :=
  overlayReader_complete (loads.content t listed).stored (loads.changes t listed)

/-- The query for some values of a column. -/
theorem Loads.fetched (loads : Loads db s tx) {t : TableDef J} (listed : t ∈ db.schema.tables) (column : String)
    (values : List (Value J)) :
    ∃ rows, (inQuery column values).selectColumns db t (s t.name) tx.isSome (changesOf tx t) = .ok rows ∧
      ∀ row, row ∈ rows ↔ row ∈ visibleRows tx s t ∧ ∃ v ∈ values, findColumn column row = some v := by
  have safe : ∀ filter, (inQuery column values : SelectQuery J F).filter = some filter → filter.isFallible = false := by
    rintro _ ⟨⟩
    rfl
  obtain ⟨matching, rows, selected, _, perm, run⟩ :=
    @SelectQuery.selectColumns_eq J F _ db _ _ _ _ safe _ (loads.content t listed)
  have total : ∀ row, db.recordMatchesFilter row (inQuery column values : SelectQuery J F).filter =
      .ok (anyColumn column (fun v => v ∈ values) row) := fun _ => rfl
  rw [SelectQuery.selectMatching_test total] at selected
  cases selected
  have whole : (inQuery column values : SelectQuery J F).applyColumnSelection
      ((inQuery column values : SelectQuery J F).cutPage (SelectQuery.sortBy
        (inQuery column values : SelectQuery J F).selectedOrder (applyDistinct [] rows))) = rows := rfl
  refine ⟨rows, run.trans (congrArg Except.ok whole), fun row => ?_⟩
  rw [perm.mem_iff, List.mem_filter]
  refine and_congr_right fun visible => ?_
  rw [anyColumn_find (loads.complete listed row visible).names, Option.any_eq_true]
  constructor
  · rintro ⟨v, found, inside⟩
    exact ⟨v, of_decide_eq_true inside, found⟩
  · rintro ⟨v, inside, found⟩
    exact ⟨v, found, decide_eq_true inside⟩

theorem FkBatch.mem_of_get {batch : FkBatch J} {key : Value J} {record : Row J} (found : batch.get key = some record) :
    (key, record) ∈ batch := by
  obtain ⟨entry, hit, rfl⟩ := Option.map_eq_some_iff.mp found
  have same : entry.1 = key := by simpa using List.find?_some hit
  rw [← same]
  exact List.mem_reverse.mp (List.mem_of_find?_eq_some hit)

theorem FkBatch.get_isSome {batch : FkBatch J} {key : Value J} {record : Row J} (listed : (key, record) ∈ batch) :
    (batch.get key).isSome = true := by
  rw [FkBatch.get, Option.isSome_map, List.find?_isSome]
  exact ⟨_, List.mem_reverse.mpr listed, decide_eq_true rfl⟩

/-- What a batch holds: for each wanted value that a row has, the typed record of such a row. -/
structure FkBatch.Of (batch : FkBatch J) (entity : TableDef J) (column : String) (values : List (Value J))
    (visible : List (Row J)) : Prop where
  sound : ∀ value record, batch.get value = some record → value ∈ values ∧
    ∃ target ∈ visible, findColumn column target = some value ∧ record = toValues entity target
  found : ∀ value ∈ values, (∃ target ∈ visible, findColumn column target = some value) →
    (batch.get value).isSome = true

variable {table : TableDef J} {column : ColumnDef} {fk : ForeignKeyDef} {entity : TableDef J}

omit [LinearOrder J] in
/-- A table has one foreign key in a column. -/
theorem foreignKeyTo_eq {schema : DatabaseSchema J} (listed : table ∈ schema.tables) (here : column ∈ table.columns)
    (key : column.foreignKey = some fk) : table.foreignKeyTo fk.foreignTable fk.localColumn = some fk := by
  have own : ∀ other ∈ table.columns.filterMap ColumnDef.foreignKey, other.localColumn = fk.localColumn → other = fk := by
    intro other member same
    obtain ⟨c, there, found⟩ := List.mem_filterMap.mp member
    rw [schema.local_ table listed c there other found, schema.local_ table listed column here fk key] at same
    rw [List.inj_on_of_nodup_map table.columnNames there here same, key] at found
    exact (Option.some.inj found).symm
  unfold TableDef.foreignKeyTo
  cases search : (table.columns.filterMap ColumnDef.foreignKey).find? fun other =>
      other.foreignTable == fk.foreignTable && other.localColumn == fk.localColumn with
  | none =>
      have absent := List.find?_eq_none.mp search fk (List.mem_filterMap.mpr ⟨column, here, key⟩)
      simp at absent
  | some other =>
      have same : other.localColumn = fk.localColumn := by
        have hit := List.find?_some search
        exact beq_iff_eq.mp (Bool.and_eq_true_iff.mp hit).2
      rw [own other (List.mem_of_find?_eq_some search) same]

section Fetches
variable (loads : Loads db s tx) (listed : table ∈ db.schema.tables) (here : column ∈ table.columns)
  (key : column.foreignKey = some fk) (target : entity ∈ db.schema.tables) (named : entity.name = fk.foreignTable)
include loads listed here key target named

/-- The batch of a foreign key: its rows, and their entries. -/
theorem fetchBatch_eq (values : List (Value J)) :
    ∃ rows : List (Row J), (∀ row, row ∈ rows ↔ row ∈ visibleRows tx s entity ∧
        ∃ v ∈ values, findColumn fk.foreignColumn row = some v) ∧
      db.fetchBatch s tx table fk.foreignTable fk.localColumn values =
        Failure.lift (rows.mapM (batchEntry entity fk.foreignColumn)) := by
  obtain ⟨rows, run, mem⟩ := loads.fetched target fk.foreignColumn values
  refine ⟨rows, mem, ?_⟩
  have known : db.schema.table fk.foreignTable = .ok entity := named ▸ db.schema.table_eq target
  unfold Database.fetchBatch
  rw [foreignKeyTo_eq listed here key]
  dsimp only
  rw [known]
  dsimp only [Failure.lift, bind, Except.bind]
  rw [run]

theorem fetchBatch_ok (plain : ∀ c ∈ entity.columns, c.name = fk.foreignColumn → c.foreignKey = none)
    (values : List (Value J)) :
    ∃ batch, db.fetchBatch s tx table fk.foreignTable fk.localColumn values = .ok batch ∧
      batch.Of entity fk.foreignColumn values (visibleRows tx s entity) := by
  obtain ⟨rows, mem, run⟩ := fetchBatch_eq loads listed here key target named values
  obtain ⟨c, there, name⟩ := db.schema.foreign table listed column here fk key entity target named
  have entry : ∀ row ∈ rows, ∀ v, findColumn fk.foreignColumn row = some v →
      batchEntry entity fk.foreignColumn row = .ok (v, toValues entity row) := by
    intro row member v found
    have complete := loads.complete target row ((mem row).mp member).1
    have kept := findColumn_toValues complete there
    rw [plain c there name, name] at kept
    unfold batchEntry
    rw [kept, Option.isNone_none, if_pos rfl, found]
  have each : ∀ row ∈ rows, ∃ e, batchEntry entity fk.foreignColumn row = .ok e := by
    intro row member
    obtain ⟨_, v, _, found⟩ := (mem row).mp member
    exact ⟨_, entry row member v found⟩
  obtain ⟨batch, made⟩ := mapM_ok each
  refine ⟨batch, by rw [run, made]; rfl, ?_, ?_⟩
  · intro value record found
    obtain ⟨row, member, same⟩ := (mem_mapM made).mp (FkBatch.mem_of_get found)
    obtain ⟨visible, v, inside, has⟩ := (mem row).mp member
    rw [entry row member v has] at same
    cases same
    exact ⟨inside, row, visible, has, rfl⟩
  · rintro value inside ⟨row, visible, has⟩
    have member := (mem row).mpr ⟨visible, value, inside, has⟩
    exact FkBatch.get_isSome ((mem_mapM made).mpr ⟨row, member, entry row member value has⟩)

/-- The typed record of a row has no column for the batch key if it is a foreign key. -/
theorem fetchBatch_fails {c : ColumnDef} (there : c ∈ entity.columns) (name : c.name = fk.foreignColumn)
    (foreign : c.foreignKey ≠ none) {values : List (Value J)} {v : Value J} (inside : v ∈ values) {row : Row J}
    (visible : row ∈ visibleRows tx s entity) (has : findColumn fk.foreignColumn row = some v) :
    ∃ e, db.fetchBatch s tx table fk.foreignTable fk.localColumn values = .error e := by
  obtain ⟨rows, mem, run⟩ := fetchBatch_eq loads listed here key target named values
  rw [run]
  cases made : rows.mapM (batchEntry entity fk.foreignColumn) with
  | error e => exact ⟨.error e, rfl⟩
  | ok batch =>
      obtain ⟨entry, own⟩ := mapM_each made row ((mem row).mpr ⟨visible, v, inside, has⟩)
      have dropped := findColumn_toValues (loads.complete target row visible) there
      rw [name, if_neg fun none_ => foreign (Option.isNone_iff_eq_none.mp none_)] at dropped
      unfold batchEntry at own
      rw [dropped] at own
      cases own

end Fetches

end Batch

end WasmDbms
