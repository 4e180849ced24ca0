import WasmDbms.Db.IndexOverlay

/-!
# What the index overlay shows

The committed primary keys of each index key, with those of the index overlay, beside the
primary keys of the rows that the overlay shows. They agree until a change takes away a
pair that the index has and that was added again, or gives a row another primary key.
-/
namespace WasmDbms

variable {J : Type} [LinearOrder J]

omit [LinearOrder J] in
/-- The primary keys of the rows with this index key. -/
def pksHolding (rows : List (Row J)) (columns : List String) (key : List (Value J)) : Set (Value J) :=
  {pk | ∃ row ∈ rows, indexKey columns row = key ∧ primaryKeyOf row = some pk}

omit [LinearOrder J] in
def holding (rows : List (Row J)) (columns : List String) : Set (List (Value J) × Value J) :=
  {x | x.2 ∈ pksHolding rows columns x.1}

namespace TableOverlay

/-- Each index holds the primary keys that are shown. -/
def Exact (stored : List (Row J)) (overlay : TableOverlay J) : Prop :=
  ∀ index ∈ overlay.indexes, ∀ key,
    pksHolding stored index.columns key \ ↑(overlay.indexOverlay.removedPks index.columns key) ∪
        ↑(overlay.indexOverlay.addedPks index.columns key) =
      pksHolding (overlay.rows stored) index.columns key

/-- The index has the pair, and the overlay adds it again. -/
def Readded (stored : List (Row J)) (overlay : TableOverlay J) (columns : List String) (key : List (Value J))
    (pk : Value J) : Prop :=
  pk ∈ pksHolding stored columns key ∧ pk ∉ overlay.indexOverlay.removedPks columns key ∧
    pk ∈ overlay.indexOverlay.addedPks columns key

end TableOverlay

/-- The change is one the index overlay follows. -/
def Change.Steady (table : TableDef J) (stored : List (Row J)) (overlay : TableOverlay J) : Change J → Prop
  | .insert pk record => ∀ index ∈ overlay.indexes, ∀ row ∈ overlay.rows stored, primaryKeyOf row = some pk →
      indexKey index.columns row = indexKey index.columns record
  | .update pk updates currentRow => RowMap.newKey table pk updates = pk ∧ ∀ index ∈ overlay.indexes,
      indexKey index.columns currentRow = indexKey index.columns (patchValues updates currentRow) ∨
        ¬ overlay.Readded stored index.columns (indexKey index.columns currentRow) pk
  | .delete pk currentRow => ∀ index ∈ overlay.indexes,
      ¬ overlay.Readded stored index.columns (indexKey index.columns currentRow) pk

/-! ## The rows that are shown -/

section Rows
variable {table : TableDef J} {rows : List (Row J)} {columns : List String} {pk : Value J} {row : Row J}

omit [LinearOrder J] in
theorem mem_holding {key : List (Value J)} :
    (key, pk) ∈ holding rows columns ↔ ∃ row ∈ rows, indexKey columns row = key ∧ primaryKeyOf row = some pk := Iff.rfl

omit [LinearOrder J] in
/-- A primary key is that of one row. -/
theorem holding_key (keys : (rows.map primaryKeyOf).Nodup) (shown : row ∈ rows) (own : primaryKeyOf row = some pk)
    {key : List (Value J)} (holds : (key, pk) ∈ holding rows columns) : key = indexKey columns row := by
  obtain ⟨other, member, rfl, same⟩ := holds
  rw [List.inj_on_of_nodup_map keys member shown (same.trans own.symm)]

theorem holding_insert {record : Row J} (whole : ∀ row ∈ rows, Complete table row) (fresh : Complete table record)
    (own : primaryKeyOf record = some pk) :
    holding (overlayRows [.insert pk record] rows) columns =
      insert (indexKey columns record, pk) (holding rows columns \ {x | x.2 = pk}) := by
  rw [overlayRows_insert whole fresh]
  ext ⟨key, p⟩
  rw [Set.mem_insert_iff, Set.mem_sdiff, mem_holding, mem_holding, Prod.mk.injEq]
  constructor
  · rintro ⟨row, member, rfl, same⟩
    rcases List.mem_append.mp member with old | new
    · obtain ⟨there, away⟩ := List.mem_filter.mp old
      refine .inr ⟨⟨row, there, rfl, same⟩, ?_⟩
      rintro rfl
      exact of_decide_eq_true away same
    · obtain rfl := List.mem_singleton.mp new
      exact .inl ⟨rfl, Option.some.inj (same.symm.trans own)⟩
  · rintro (⟨rfl, rfl⟩ | ⟨⟨row, there, rfl, same⟩, away⟩)
    · exact ⟨record, List.mem_append_right _ List.mem_cons_self, rfl, own⟩
    · refine ⟨row, List.mem_append_left _ (List.mem_filter.mpr ⟨there, decide_eq_true fun here => ?_⟩), rfl, same⟩
      exact away (Option.some.inj (same.symm.trans here))

theorem holding_delete (whole : ∀ row ∈ rows, Complete table row) (keys : (rows.map primaryKeyOf).Nodup)
    (shown : row ∈ rows) (own : primaryKeyOf row = some pk) :
    holding (overlayRows [.delete pk] rows) columns = holding rows columns \ {(indexKey columns row, pk)} := by
  have all : overlayRows ([pk].map .delete) rows =
      rows.filter fun row => decide (¬ ∃ k ∈ [pk], primaryKeyOf row = some k) := overlayRows_delete whole
  simp only [List.map_cons, List.map_nil, List.mem_singleton, exists_eq_left] at all
  rw [all]
  ext ⟨key, p⟩
  rw [Set.mem_sdiff, Set.mem_singleton_iff, mem_holding, mem_holding, Prod.mk.injEq]
  constructor
  · rintro ⟨other, member, rfl, same⟩
    obtain ⟨there, away⟩ := List.mem_filter.mp member
    refine ⟨⟨other, there, rfl, same⟩, ?_⟩
    rintro ⟨_, rfl⟩
    exact of_decide_eq_true away same
  · rintro ⟨⟨other, there, rfl, same⟩, away⟩
    refine ⟨other, List.mem_filter.mpr ⟨there, decide_eq_true fun here => away ?_⟩, rfl, same⟩
    obtain rfl := Option.some.inj (same.symm.trans here)
    exact ⟨holding_key keys shown own ⟨other, there, rfl, same⟩, rfl⟩

theorem holding_update {updates : Row J} (whole : ∀ row ∈ rows, Complete table row)
    (keys : (rows.map primaryKeyOf).Nodup) (patches : Patches table updates) (shown : row ∈ rows)
    (own : primaryKeyOf row = some pk) :
    holding (overlayRows [.update pk updates] rows) columns =
      insert (indexKey columns (patchValues updates row), RowMap.newKey table pk updates)
        (holding rows columns \ {(indexKey columns row, pk)}) := by
  have moved := primaryKeyOf_patch (whole row shown) patches own
  rw [overlayRows_update_one whole patches]
  ext ⟨key, p⟩
  rw [Set.mem_insert_iff, Set.mem_sdiff, Set.mem_singleton_iff, mem_holding, mem_holding, Prod.mk.injEq, Prod.mk.injEq]
  constructor
  · rintro ⟨_, member, rfl, same⟩
    obtain ⟨other, there, rfl⟩ := List.mem_map.mp member
    by_cases here : primaryKeyOf other = some pk
    · obtain rfl := List.inj_on_of_nodup_map keys there shown (here.trans own.symm)
      rw [if_pos here] at same ⊢
      exact .inl ⟨rfl, Option.some.inj (same.symm.trans moved)⟩
    · rw [if_neg here] at same ⊢
      refine .inr ⟨⟨other, there, rfl, same⟩, ?_⟩
      rintro ⟨_, rfl⟩
      exact here same
  · rintro (⟨rfl, rfl⟩ | ⟨⟨other, there, rfl, same⟩, away⟩)
    · exact ⟨_, List.mem_map.mpr ⟨row, shown, if_pos own⟩, rfl, moved⟩
    · have apart : primaryKeyOf other ≠ some pk := by
        intro here
        obtain rfl := Option.some.inj (same.symm.trans here)
        exact away ⟨holding_key keys shown own ⟨other, there, rfl, same⟩, rfl⟩
      exact ⟨other, List.mem_map.mpr ⟨other, there, if_neg apart⟩, rfl, same⟩

omit [LinearOrder J] in
/-- The values an update leaves in the columns of an index. -/
theorem computeUpdatedIndexedValues_eq {updates : Row J} (whole : Complete table row) (patches : Patches table updates) :
    TableOverlay.computeUpdatedIndexedValues columns row updates = indexKey columns (patchValues updates row) := by
  apply List.map_congr_left
  intro name _
  rw [whole.findColumn_patch patches]
  cases old : findColumn name row with
  | some value => cases findColumn name updates <;> rfl
  | none =>
      cases given : findColumn name updates with
      | none => rfl
      | some value =>
          obtain ⟨entry, listed, rfl, rfl⟩ := mem_of_findColumn given
          obtain ⟨own, there, same⟩ := List.mem_map.mp (whole.columns.symm.subset (patches.columns entry listed))
          rw [← same, findColumn_eq whole.names there] at old
          cases old

omit [LinearOrder J] in
/-- An update of other columns leaves the index key. -/
theorem indexKey_unaffected {updates : Row J} (whole : Complete table row) (patches : Patches table updates)
    (unaffected : TableOverlay.affectsIndex columns updates = false) :
    indexKey columns row = indexKey columns (patchValues updates row) := by
  apply List.map_congr_left
  intro name listed
  have absent : findColumn name updates = none := by
    refine findColumn_none fun named => ?_
    obtain ⟨entry, member, rfl⟩ := List.mem_map.mp named
    rw [TableOverlay.affectsIndex, List.any_eq_false] at unaffected
    exact unaffected _ listed (List.any_eq_true.mpr ⟨entry, member, beq_self_eq_true _⟩)
  rw [whole.findColumn_patch patches, absent]
  cases findColumn name row <;> rfl

end Rows

/-! ## One change -/

namespace TableOverlay
variable {table : TableDef J} {stored : List (Row J)} {overlay : TableOverlay J} {change : Change J}

theorem exact_iff : overlay.Exact stored ↔ ∀ index ∈ overlay.indexes,
    (overlay.indexOverlay.column index.columns).delta.shown (holding stored index.columns) =
      holding (overlay.rows stored) index.columns := by
  refine forall₂_congr fun index _ => ?_
  simp only [IndexOverlay.addedPks_eq, IndexOverlay.removedPks_eq]
  constructor
  · intro exact_
    ext ⟨key, pk⟩
    exact Set.ext_iff.mp (exact_ key) pk
  · intro same key
    ext pk
    exact Set.ext_iff.mp same (key, pk)

theorem readded_iff {columns : List String} {key : List (Value J)} {pk : Value J} :
    overlay.Readded stored columns key pk ↔
      (overlay.indexOverlay.column columns).delta.Doubled (holding stored columns) (key, pk) := by
  rw [Readded, IndexOverlay.addedPks_eq, IndexOverlay.removedPks_eq]
  rfl

/-- The overlay of a table whose rows are told apart by their primary keys. -/
structure Keyed (table : TableDef J) (stored : List (Row J)) (overlay : TableOverlay J) : Prop where
  indexes : overlay.indexes = table.indexes
  changes : Changes table overlay.operations
  keys : ((overlay.rows stored).map primaryKeyOf).Nodup

omit [LinearOrder J] in
theorem extractIndexedValues_eq {columns : List String} {row : Row J} :
    extractIndexedValues columns row = indexKey columns row := rfl

theorem stage_indexes : (overlay.stage change).indexes = overlay.indexes := by
  cases change <;> rfl

theorem stage_operations : (overlay.stage change).operations = overlay.operations ++ [change.operation] := by
  cases change <;> rfl

theorem Keyed.names (keyed : Keyed table stored overlay) : (overlay.indexes.map IndexDef.columns).Nodup :=
  keyed.indexes ▸ table.indexNames

variable (complete : ∀ row ∈ stored, Complete table row)
include complete

theorem Keyed.rows (keyed : Keyed table stored overlay) :
    (overlay.stage change).rows stored = overlayRows [change.operation] (overlay.rows stored) := by
  rw [TableOverlay.rows, stage_operations]
  exact overlayRows_append complete keyed.changes

theorem Keyed.whole (keyed : Keyed table stored overlay) : ∀ row ∈ overlay.rows stored, Complete table row :=
  fun _ member => overlayRows_complete complete keyed.changes member

/-- The primary keys stay distinct where no update changes one. -/
theorem Keyed.stage (keyed : Keyed table stored overlay) (visible : change.Visible table (overlay.rows stored))
    (steady : change.Steady table stored overlay) : Keyed table stored (overlay.stage change) := by
  have whole := keyed.whole complete
  have shows := represents_ofRows.mpr keyed.keys
  refine ⟨stage_indexes.trans keyed.indexes, ?_, ?_⟩
  · rw [stage_operations]
    refine List.forall_mem_append.mpr ⟨keyed.changes, List.forall_mem_singleton.mpr ?_⟩
    cases change with
    | insert pk record => exact visible
    | update pk updates currentRow => exact visible.1
    | delete pk currentRow => trivial
  · rw [keyed.rows complete]
    cases change with
    | insert pk record => exact (shows.insert whole visible.1 visible.2).keys
    | update pk updates currentRow =>
        refine (shows.update whole visible.1 ?_).keys
        rintro ⟨moves, _⟩
        exact moves steady.1
    | delete pk currentRow =>
        have all : overlayRows ([pk].map .delete) (overlay.rows stored) =
            (overlay.rows stored).filter fun row => decide (¬ ∃ k ∈ [pk], primaryKeyOf row = some k) :=
          overlayRows_delete whole
        change ((overlayRows ([pk].map .delete) (overlay.rows stored)).map primaryKeyOf).Nodup
        rw [all]
        exact keyed.keys.sublist (List.filter_sublist.map _)

/-- An insertion adds its pair to each index. -/
theorem exact_insert_iff (keyed : Keyed table stored overlay) (exact_ : overlay.Exact stored) {pk : Value J}
    {record : Row J} (visible : (Change.insert pk record).Visible table (overlay.rows stored)) :
    (overlay.stage (.insert pk record)).Exact stored ↔ (Change.insert pk record).Steady table stored overlay := by
  rw [exact_iff]
  refine forall₂_congr fun index listed => ?_
  have before := exact_iff.mp exact_ index listed
  have column : (overlay.stage (.insert pk record)).indexOverlay.column index.columns =
      (overlay.indexOverlay.column index.columns).insert (extractIndexedValues index.columns record) pk := by
    refine IndexOverlay.foldl_column (g := fun index o => o.insert (extractIndexedValues index.columns record) pk) ?_ ?_
      keyed.names listed
    · exact fun _ _ => IndexOverlay.column_insert
    · exact fun _ _ _ => IndexOverlay.column_insert_of_ne
  rw [column, IndexColumnOverlay.delta_insert, Delta.shown_put, before, keyed.rows complete, Change.operation,
    holding_insert (keyed.whole complete) visible.1 visible.2]
  rw [extractIndexedValues_eq]
  constructor
  · intro same row shown own
    have there : (indexKey index.columns row, pk) ∈ holding (overlay.rows stored) index.columns := ⟨row, shown, rfl, own⟩
    have kept := same ▸ Set.mem_insert_of_mem (indexKey index.columns record, pk) there
    rcases kept with new | ⟨_, away⟩
    · exact congrArg Prod.fst new
    · exact absurd rfl away
  · intro steady
    ext ⟨key, p⟩
    rw [Set.mem_insert_iff, Set.mem_insert_iff, Set.mem_sdiff]
    refine ⟨?_, fun member => member.imp_right And.left⟩
    rintro (new | there)
    · exact .inl new
    · by_cases here : p = pk
      · subst here
        obtain ⟨row, shown, rfl, own⟩ := there
        exact .inl (by rw [steady row shown own])
      · exact .inr ⟨there, here⟩

theorem exact_delete_iff (keyed : Keyed table stored overlay) (exact_ : overlay.Exact stored) {pk : Value J}
    {currentRow : Row J} (visible : (Change.delete pk currentRow).Visible table (overlay.rows stored)) :
    (overlay.stage (.delete pk currentRow)).Exact stored ↔ (Change.delete pk currentRow).Steady table stored overlay := by
  rw [exact_iff]
  refine forall₂_congr fun index listed => ?_
  have before := exact_iff.mp exact_ index listed
  have column : (overlay.stage (.delete pk currentRow)).indexOverlay.column index.columns =
      (overlay.indexOverlay.column index.columns).delete (extractIndexedValues index.columns currentRow) pk := by
    refine IndexOverlay.foldl_column (g := fun index o => o.delete (extractIndexedValues index.columns currentRow) pk)
      ?_ ?_ keyed.names listed
    · exact fun _ _ => IndexOverlay.column_insert
    · exact fun _ _ _ => IndexOverlay.column_insert_of_ne
  rw [column, IndexColumnOverlay.delta_delete, keyed.rows complete, Change.operation,
    holding_delete (keyed.whole complete) keyed.keys visible.1 visible.2, ← before, readded_iff]
  exact Delta.shown_take_iff

omit complete in
/-- The overlay of an index after an update. -/
theorem column_update (keyed : Keyed table stored overlay) {pk : Value J} {updates currentRow : Row J} {index : IndexDef}
    (listed : index ∈ overlay.indexes) :
    (overlay.stage (.update pk updates currentRow)).indexOverlay.column index.columns =
      if affectsIndex index.columns updates then
        ((overlay.indexOverlay.column index.columns).delete (extractIndexedValues index.columns currentRow) pk).insert
          (computeUpdatedIndexedValues index.columns currentRow updates) pk
      else overlay.indexOverlay.column index.columns := by
  refine IndexOverlay.foldl_column (g := fun index o => if affectsIndex index.columns updates then
      (o.delete (extractIndexedValues index.columns currentRow) pk).insert
        (computeUpdatedIndexedValues index.columns currentRow updates) pk else o) ?_ ?_ keyed.names listed
  · intro o index
    split
    · exact IndexOverlay.column_insert
    · rfl
  · intro o index columns apart
    split
    · exact IndexOverlay.column_insert_of_ne apart
    · rfl

theorem exact_update_iff (keyed : Keyed table stored overlay) (exact_ : overlay.Exact stored) {pk : Value J}
    {updates currentRow : Row J} (visible : (Change.update pk updates currentRow).Visible table (overlay.rows stored)) :
    (overlay.stage (.update pk updates currentRow)).Exact stored ↔
      (Change.update pk updates currentRow).Steady table stored overlay := by
  obtain ⟨patches, shown, own⟩ := visible
  have whole := keyed.whole complete
  have each : ∀ index ∈ overlay.indexes,
      (((overlay.stage (.update pk updates currentRow)).indexOverlay.column index.columns).delta.shown
          (holding stored index.columns) =
        holding ((overlay.stage (.update pk updates currentRow)).rows stored) index.columns ↔
      RowMap.newKey table pk updates = pk ∧
        (indexKey index.columns currentRow = indexKey index.columns (patchValues updates currentRow) ∨
          ¬ overlay.Readded stored index.columns (indexKey index.columns currentRow) pk)) := by
    intro index listed
    have before := exact_iff.mp exact_ index listed
    rw [column_update keyed listed, keyed.rows complete, Change.operation,
      holding_update whole keyed.keys patches shown own, readded_iff, ← before]
    split
    next affects =>
      rw [IndexColumnOverlay.delta_insert, IndexColumnOverlay.delta_delete, extractIndexedValues_eq,
        computeUpdatedIndexedValues_eq (whole _ shown) patches, Delta.shown_replaced_iff, Prod.mk.injEq, Prod.mk.injEq,
        and_iff_right rfl, and_iff_left rfl]
      intro there
      rw [before] at there
      rw [holding_key keyed.keys shown own there]
    next unaffected =>
      have same := indexKey_unaffected (whole _ shown) patches (Bool.not_eq_true _ ▸ unaffected)
      have there : (indexKey index.columns currentRow, pk) ∈
          (overlay.indexOverlay.column index.columns).delta.shown (holding stored index.columns) := by
        rw [before]
        exact ⟨currentRow, shown, rfl, own⟩
      rw [← same, eq_insert_sdiff_iff there, Prod.mk.injEq, and_iff_right rfl, or_iff_left_of_imp fun _ => rfl,
        and_iff_left rfl]
  rw [exact_iff, stage_indexes]
  obtain ⟨first, listed⟩ : ∃ index, index ∈ overlay.indexes := by
    rw [keyed.indexes]
    exact List.exists_mem_of_ne_nil _ table.keyIndex
  constructor
  · intro same
    exact ⟨((each first listed).mp (same first listed)).1, fun index there => ((each index there).mp (same index there)).2⟩
  · rintro ⟨kept, steady⟩ index there
    exact (each index there).mpr ⟨kept, steady index there⟩

/-- A change keeps the index overlay exact if and only if it is steady. -/
theorem exact_stage_iff (keyed : Keyed table stored overlay) (exact_ : overlay.Exact stored)
    (visible : change.Visible table (overlay.rows stored)) :
    (overlay.stage change).Exact stored ↔ change.Steady table stored overlay := by
  cases change with
  | insert pk record => exact exact_insert_iff complete keyed exact_ visible
  | update pk updates currentRow => exact exact_update_iff complete keyed exact_ visible
  | delete pk currentRow => exact exact_delete_iff complete keyed exact_ visible

/-! ## A run of changes -/

omit complete in
theorem run_append {changes : List (Change J)} : overlay.run (changes ++ [change]) = (overlay.run changes).stage change :=
  List.foldl_concat ..

theorem keyed_new (distinct : (stored.map primaryKeyOf).Nodup) :
    Keyed table stored (.new table.indexes) := by
  refine ⟨rfl, fun _ no => absurd no List.not_mem_nil, ?_⟩
  rw [TableOverlay.rows, TableOverlay.new, overlayRows_nil complete]
  exact distinct

theorem exact_new : (TableOverlay.new table.indexes).Exact stored := by
  intro index _ key
  rw [TableOverlay.rows, TableOverlay.new, overlayRows_nil complete]
  have added : (∅ : IndexOverlay J).addedPks index.columns key = ∅ := rfl
  have removed : (∅ : IndexOverlay J).removedPks index.columns key = ∅ := rfl
  rw [added, removed, Finset.coe_empty, Set.sdiff_empty, Set.union_empty]

theorem tracked_run (distinct : (stored.map primaryKeyOf).Nodup) {changes : List (Change J)}
    (visible : ∀ before change, before ++ [change] <+: changes →
      change.Visible table (((new table.indexes).run before).rows stored))
    (steady : ∀ before change, before ++ [change] <+: changes →
      change.Steady table stored ((new table.indexes).run before)) :
    Keyed table stored ((new table.indexes).run changes) ∧ ((new table.indexes).run changes).Exact stored := by
  induction changes using List.reverseRecOn with
  | nil => exact ⟨keyed_new complete distinct, exact_new complete⟩
  | append_singleton before change ih =>
      obtain ⟨keyed, exact_⟩ := ih (fun b c begins => visible b c (begins.trans (List.prefix_append _ _)))
        fun b c begins => steady b c (begins.trans (List.prefix_append _ _))
      have seen := visible before change (List.prefix_refl _)
      have steps := steady before change (List.prefix_refl _)
      rw [run_append]
      exact ⟨keyed.stage complete seen steps, (exact_stage_iff complete keyed exact_ seen).mpr steps⟩

/-- The overlay is exact all along a run if and only if every change is steady. -/
theorem exact_run_iff (distinct : (stored.map primaryKeyOf).Nodup) {changes : List (Change J)}
    (visible : ∀ before change, before ++ [change] <+: changes →
      change.Visible table (((new table.indexes).run before).rows stored)) :
    (∀ before, before <+: changes → ((new table.indexes).run before).Exact stored) ↔
      ∀ before change, before ++ [change] <+: changes → change.Steady table stored ((new table.indexes).run before) := by
  constructor
  · intro exact_
    induction changes using List.reverseRecOn with
    | nil =>
        intro before change begins
        exact absurd (List.prefix_nil.mp begins) (List.append_ne_nil_of_right_ne_nil _ (List.cons_ne_nil _ _))
    | append_singleton earlier last ih =>
        have steady := ih (fun b c begins => visible b c (begins.trans (List.prefix_append _ _)))
          fun b begins => exact_ b (begins.trans (List.prefix_append _ _))
        intro before change begins
        rcases List.prefix_concat_iff.mp begins with same | within
        · obtain ⟨rfl, rfl⟩ := List.append_singleton_inj.mp same
          obtain ⟨keyed, before_⟩ := tracked_run complete distinct
            (fun b c begins => visible b c (begins.trans (List.prefix_append _ _))) steady
          refine (exact_stage_iff complete keyed before_ (visible before change begins)).mp ?_
          rw [← run_append]
          exact exact_ _ begins
        · exact steady before change within
  · intro steady before begins
    exact (tracked_run complete distinct (fun b c first => visible b c (first.trans begins))
      fun b c first => steady b c (first.trans begins)).2

/-- The range lookups agree with the lookups of the keys of the range, unless a lookup panics. -/
def RangesAgree (overlay : TableOverlay J) : Prop :=
  ∀ columns start end_,
    ((∃ pks, overlay.indexOverlay.addedPksInRange columns start end_ = some pks ∧
        ∀ pk, pk ∈ pks ↔ ∃ key, InRange start end_ key ∧ pk ∈ overlay.indexOverlay.addedPks columns key) ↔
      ¬ ((overlay.indexOverlay.column columns).added.entries ≠ [] ∧ Reversed start end_)) ∧
    ((∃ pks, overlay.indexOverlay.removedPksInRange columns start end_ = some pks ∧
        ∀ pk, pk ∈ pks ↔ ∃ key, InRange start end_ key ∧ pk ∈ overlay.indexOverlay.removedPks columns key) ↔
      ¬ ((overlay.indexOverlay.column columns).removed.entries ≠ [] ∧ Reversed start end_))

omit complete in
theorem rangesAgree : overlay.RangesAgree := by
  intro columns start end_
  unfold IndexOverlay.addedPksInRange IndexOverlay.removedPksInRange
  simp only [IndexOverlay.pksInRangeFromMap_eq, IndexOverlay.addedPks_eq, IndexOverlay.removedPks_eq]
  exact ⟨PkMap.range_iff, PkMap.range_iff⟩

/-- All along a run the committed primary keys of each index key, less the removed ones and
with the added ones, are those of the rows that are shown, if and only if every change is
steady; the range lookups agree with the keys in any case. -/
theorem indexOverlay_exact_iff (distinct : (stored.map primaryKeyOf).Nodup) {changes : List (Change J)}
    (visible : ∀ before change, before ++ [change] <+: changes →
      change.Visible table (((new table.indexes).run before).rows stored)) :
    ((∀ before, before <+: changes → ((new table.indexes).run before).Exact stored) ↔
      ∀ before change, before ++ [change] <+: changes → change.Steady table stored ((new table.indexes).run before)) ∧
    ∀ before, before <+: changes → ((new table.indexes).run before).RangesAgree :=
  ⟨exact_run_iff complete distinct visible, fun _ _ => rangesAgree⟩

end TableOverlay

/-! ## A run, change by change -/

theorem forall_changes_nil {α : Type} {P : List α → α → Prop} : ∀ before x, before ++ [x] <+: [] → P before x :=
  fun _ _ begins => absurd (List.prefix_nil.mp begins) (List.append_ne_nil_of_right_ne_nil _ (List.cons_ne_nil _ _))

theorem forall_changes_cons {α : Type} {P : List α → α → Prop} {first : α} {rest : List α} (now : P [] first)
    (later : ∀ before x, before ++ [x] <+: rest → P (first :: before) x) :
    ∀ before x, before ++ [x] <+: first :: rest → P before x := by
  intro before x begins
  cases before with
  | nil =>
      obtain ⟨rfl, _⟩ := List.cons_prefix_cons.mp begins
      exact now
  | cons head tail =>
      obtain ⟨rfl, within⟩ := List.cons_prefix_cons.mp begins
      exact later tail x within

namespace Items

theorem item_complete (key : UInt32) (text : String) : Complete table (item key text) := by
  refine RowOf.complete ⟨rfl, fun entry listed => ?_⟩
  rcases List.mem_cons.mp listed with rfl | listed
  · exact .inl rfl
  · rw [List.mem_singleton.mp listed]
    exact .inl rfl

/-- The second item is deleted, and another one inserted. -/
def replaced : List (Change ℕ) := [.delete (.uint32 2) (item 2 "b"), .insert (.uint32 3) (item 3 "c")]

/-- The index overlay follows a deletion and an insertion. -/
theorem replaced_exact : ((TableOverlay.new table.indexes).run replaced).Exact (pair.rows.map Prod.snd) := by
  refine (TableOverlay.indexOverlay_exact_iff pair_complete (by decide) ?_).1.mpr ?_ replaced (List.prefix_refl _)
  · refine forall_changes_cons ⟨by decide, rfl⟩ (forall_changes_cons ⟨item_complete 3 "c", rfl⟩ forall_changes_nil)
  · refine forall_changes_cons ?_ (forall_changes_cons ?_ forall_changes_nil)
    · rintro index _ ⟨_, _, waits⟩
      exact absurd waits (Finset.notMem_empty _)
    · intro index _ row shown own
      obtain rfl := List.mem_singleton.mp shown
      cases own

/-- The first item is deleted, inserted again and deleted again. -/
def reinserted : List (Change ℕ) :=
  [.delete (.uint32 1) (item 1 "a"), .insert (.uint32 1) (item 1 "a"), .delete (.uint32 1) (item 1 "a")]

/-- The index overlay shows an item that is gone. -/
theorem reinserted_inexact :
    (∀ before change, before ++ [change] <+: reinserted →
      change.Visible table (((TableOverlay.new table.indexes).run before).rows (pair.rows.map Prod.snd))) ∧
    ¬ ((TableOverlay.new table.indexes).run reinserted).Exact (pair.rows.map Prod.snd) := by
  constructor
  · refine forall_changes_cons ⟨by decide, rfl⟩ (forall_changes_cons ⟨item_complete 1 "a", rfl⟩
      (forall_changes_cons ⟨by decide, rfl⟩ forall_changes_nil))
  · intro exact_
    have same := exact_ ⟨["id"]⟩ List.mem_cons_self [.uint32 1]
    have there : Value.uint32 1 ∈ pksHolding (pair.rows.map Prod.snd) ["id"] [.uint32 1] :=
      ⟨item 1 "a", List.mem_cons_self, rfl, rfl⟩
    have kept : Value.uint32 1 ∉ ((TableOverlay.new table.indexes).run reinserted).indexOverlay.removedPks ["id"]
        [.uint32 1] := by decide
    obtain ⟨row, shown, _, own⟩ := (Set.ext_iff.mp same (.uint32 1)).mp (.inl ⟨there, kept⟩)
    obtain rfl := List.mem_singleton.mp shown
    cases own

end Items
end WasmDbms
