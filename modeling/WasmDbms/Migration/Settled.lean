import WasmDbms.Migration.Drift
import WasmDbms.Migration.Outcome

/-!
# Where a migration leads

A migration that returns `Ok` edits the stored snapshots by its plan. They are the
compiled ones afterwards, and drift is over, exactly when the plan reproduces each
compiled table from the stored one.
-/
namespace WasmDbms
open Result

section Columns
variable {V : Type} {renamedFrom : String → List String} {stored cols : List (ColumnSnapshot V)}
  {entries : List (ColumnSnapshot V × Option (ColumnSnapshot V))}

theorem filter_isSome_map (entries : List (ColumnSnapshot V × Option (ColumnSnapshot V))) :
    (entries.filter fun e => e.2.isSome).map Prod.snd = (entries.filterMap Prod.snd).map some := by
  induction entries with
  | nil => rfl
  | cons e entries ih =>
      obtain ⟨col, source⟩ := e
      cases source with
      | none => exact ih
      | some c => exact congrArg (some c :: ·) ih

/-- Kept columns, and new ones behind them, are the compiled ones exactly when the kept
ones are in the stored order, each stands for one column only, and has its default. -/
theorem carried_append_iff (distinct : (stored.map ColumnSnapshot.name).Nodup) (once : (entries.map fun e => e.1.name).Nodup)
    (within : ∀ e ∈ entries, ∀ s, e.2 = some s → s ∈ stored) :
    (stored.filter (survives entries)).map (carried entries) ++ (entries.filter fun e => e.2.isNone).map Prod.fst =
        entries.map Prod.fst ↔
      entries.filterMap Prod.snd = stored.filter (survives entries) ∧
        (entries.Pairwise fun a b => b.2.isSome → a.2.isSome) ∧ ∀ e ∈ entries, ∀ c, e.2 = some c → c.default = e.1.default := by
  have entry : ∀ c ∈ stored.filter (survives entries), ∃ e ∈ entries, e.2 = some c ∧
      carried entries c = { e.1 with default := c.default } := by
    intro c listed
    obtain ⟨listed, kept⟩ := List.mem_filter.mp listed
    obtain ⟨before, e, later, rfl, source, _, same⟩ := first_entry distinct within listed kept
    exact ⟨e, List.mem_append_right _ List.mem_cons_self, source, same⟩
  have equal : ∀ e ∈ entries, ∀ e' ∈ entries, e.1.name = e'.1.name → e = e' := fun e here e' there same =>
    List.inj_on_of_nodup_map once here there same
  have unsourced : (entries.filter fun e => !e.2.isSome) = entries.filter fun e => e.2.isNone :=
    List.filter_congr fun e _ => by rw [Option.not_isSome]
  obtain ⟨kept, isKept⟩ : ∃ kept, kept = stored.filter (survives entries) := ⟨_, rfl⟩
  rw [← isKept] at entry ⊢
  constructor
  · intro same
    have le : kept.length ≤ entries.length := by
      have lengths := congrArg List.length same
      rw [List.length_append, List.length_map, List.length_map, List.length_map] at lengths
      omega
    -- The columns in front stand for kept ones, in turn.
    have front : ∀ i (inside : i < kept.length), entries[i].2 = some kept[i] ∧ kept[i].default = entries[i].1.default := by
      intro i inside
      have here : carried entries kept[i] = entries[i].1 := by
        have at_ := List.getElem_of_eq same (i := i) (by rw [List.length_append, List.length_map]; omega)
        rwa [List.getElem_append_left (by rwa [List.length_map]), List.getElem_map, List.getElem_map] at at_
      obtain ⟨e, member, source, becomes⟩ := entry kept[i] (List.getElem_mem inside)
      rw [becomes] at here
      have named : e.1.name = entries[i].1.name := by rw [← here]
      refine ⟨?_, by rw [← here]⟩
      rw [← equal e member entries[i] (List.getElem_mem _) named]
      exact source
    have sources : (entries.take kept.length).map Prod.snd = kept.map some := by
      refine List.ext_getElem (by rw [List.length_map, List.length_map, List.length_take]; omega) fun i _ inside => ?_
      rw [List.getElem_map, List.getElem_map, List.getElem_take]
      exact (front i (by rwa [List.length_map] at inside)).1
    -- The others are new.
    have back : ∀ e ∈ entries.drop kept.length, e.2 = none := by
      intro e later
      have rest := congrArg (List.drop kept.length) same
      rw [List.drop_left' (List.length_map _), ← List.map_drop] at rest
      have member : e.1 ∈ (entries.filter fun e => e.2.isNone).map Prod.fst := by
        rw [rest]
        exact List.mem_map_of_mem later
      obtain ⟨e', new, named⟩ := List.mem_map.mp member
      obtain ⟨listed, none_⟩ := List.mem_filter.mp new
      rw [equal e (List.mem_of_mem_drop later) e' listed (by rw [named])]
      exact Option.isNone_iff_eq_none.mp none_
    have frontOf : ∀ e ∈ entries.take kept.length, ∃ c, e.2 = some c ∧ c.default = e.1.default := by
      intro e member
      obtain ⟨i, inside, rfl⟩ := List.getElem_of_mem member
      rw [List.length_take] at inside
      rw [List.getElem_take]
      exact ⟨_, front i (lt_of_lt_of_le inside (min_le_left _ _))⟩
    rw [← List.take_append_drop kept.length entries]
    refine ⟨?_, List.pairwise_append.mpr ⟨?_, ?_, ?_⟩, fun e member c source => ?_⟩
    · rw [List.filterMap_append, List.filterMap_eq_nil_iff.mpr back, List.append_nil]
      calc (entries.take kept.length).filterMap Prod.snd
          = ((entries.take kept.length).map Prod.snd).filterMap id := by rw [List.filterMap_map]; rfl
        _ = kept := by
            rw [sources, List.filterMap_map]
            exact List.filterMap_some
    · refine List.pairwise_of_forall_mem_list fun a first b _ _ => ?_
      obtain ⟨c, source, _⟩ := frontOf a first
      rw [source]
      rfl
    · refine List.pairwise_of_forall_mem_list fun a _ b last held => ?_
      rw [back b last] at held
      cases held
    · intro a first b _ _
      obtain ⟨c, source, _⟩ := frontOf a first
      rw [source]
      rfl
    · rcases List.mem_append.mp member with first | last
      · obtain ⟨c', source', same⟩ := frontOf e first
        rw [source'] at source
        cases source
        exact same
      · rw [back e last] at source
        cases source
  · rintro ⟨inOrder, newLast, defaults⟩
    have split := StableSort.filter_append_iff.mpr newLast
    rw [unsourced] at split
    have sourced := filter_isSome_map entries
    rw [inOrder] at sourced
    have keptOnce : ((entries.filter fun e => e.2.isSome).map Prod.snd).Nodup := by
      rw [sourced, isKept]
      exact (List.Nodup.of_map _ (distinct.sublist (List.filter_sublist.map _))).map (Option.some_injective _)
    have becomes : kept.map (carried entries) = (entries.filter fun e => e.2.isSome).map Prod.fst := by
      refine List.map_injective_iff.mpr (Option.some_injective _) ?_
      calc (kept.map (carried entries)).map some = (kept.map some).map (Option.map (carried entries)) := by
            rw [List.map_map, List.map_map]
            rfl
        _ = (entries.filter fun e => e.2.isSome).map fun e => e.2.map (carried entries) := by
            rw [← sourced, List.map_map]
            rfl
        _ = ((entries.filter fun e => e.2.isSome).map Prod.fst).map some := by
            rw [List.map_map]
            refine List.map_congr_left fun e member => ?_
            obtain ⟨listed, source⟩ := List.mem_filter.mp member
            obtain ⟨c, source⟩ := Option.isSome_iff_exists.mp source
            have inside : c ∈ kept := by
              rw [← inOrder]
              exact List.mem_filterMap.mpr ⟨e, listed, source⟩
            obtain ⟨e', member', source', same⟩ := entry c inside
            have own := List.inj_on_of_nodup_map keptOnce member (List.mem_filter.mpr ⟨member', by rw [source']; rfl⟩)
              (source.trans source'.symm)
            rw [source, Option.map_some, same, ← own, defaults e listed c source]
            rfl
    rw [becomes, ← List.map_append, split]

end Columns

variable {D J : Type}

/-- The plan for a table leads from its stored snapshot to the compiled one: version,
primary key and alignment are the same; the kept columns are in the stored order, stand
for one column each and have its default, and the new ones are behind them; the kept
indexes are those of the compiled ones that were stored, with their columns in the same
order, and the new ones are behind them, each once. -/
structure Reproduces (schema : CompiledSchema D J) (old new : TableSchemaSnapshot (StoredValue D J)) : Prop where
  version : old.version = new.version
  primaryKey : old.primaryKey = new.primaryKey
  alignment : old.alignment = new.alignment
  inOrder : (tableSources schema old new).filterMap Prod.snd = old.columns.filter (survives (tableSources schema old new))
  newLast : (tableSources schema old new).Pairwise fun a b => b.2.isSome → a.2.isSome
  defaults : ∀ e ∈ tableSources schema old new, ∀ c, e.2 = some c → c.default = e.1.default
  indexes : new.indexes.filter (hasIndex old.indexes) = old.indexes.filter (hasIndex new.indexes)
  newIndexesLast : new.indexes.Pairwise fun a b => hasIndex old.indexes b = true → hasIndex old.indexes a = true
  newIndexesOnce : (new.indexes.filter fun i => !hasIndex old.indexes i).Nodup

section Table
variable {schema : CompiledSchema D J} {old new : TableSchemaSnapshot (StoredValue D J)}

theorem foldl_edit_eq_iff (distinct : (old.columns.map ColumnSnapshot.name).Nodup)
    (once : (new.columns.map ColumnSnapshot.name).Nodup) (named : old.name = new.name) :
    (orderOps (tableOps new.name (tableSources schema old new) old.columns old.indexes new.indexes)).foldl MigrationOp.edit old =
      new ↔ Reproduces schema old new := by
  have columns := carried_append_iff distinct (sources_names (schema.renamedFrom new.name) old.columns [] once)
    fun e member => sources_within member
  rw [sources_fst] at columns
  have indexes := addIndexes_eq_iff old.indexes new.indexes
  rw [MigrationOp.foldl_edit, tableSources, foldl_editedColumns distinct once, foldl_editedIndexes]
  constructor
  · intro same
    obtain ⟨inOrder, newLast, defaults⟩ := columns.mp (congrArg TableSchemaSnapshot.columns same)
    obtain ⟨kept, newIndexesLast, newIndexesOnce⟩ := indexes.mp (congrArg TableSchemaSnapshot.indexes same)
    exact ⟨by rw [← same], by rw [← same], by rw [← same], inOrder, newLast, defaults, kept, newIndexesLast, newIndexesOnce⟩
  · intro reproduces
    rw [columns.mpr ⟨reproduces.inOrder, reproduces.newLast, reproduces.defaults⟩,
      indexes.mpr ⟨reproduces.indexes, reproduces.newIndexesLast, reproduces.newIndexesOnce⟩, reproduces.version, named,
      reproduces.primaryKey, reproduces.alignment]

theorem diffColumnPair_self (table : String) (c : ColumnSnapshot (StoredValue D J)) : diffColumnPair table c c = [] := by
  have same : (columnFlagDelta c c).isEmpty = true := by
    simp only [columnFlagDelta, changed, ne_eq, not_true_eq_false, if_false]
    rfl
  rw [diffColumnPair.eq_def, if_neg (not_not.mpr rfl), if_pos same]
  rfl

theorem diffCompiledColumns_self {table : String} {stored cols : List (ColumnSnapshot (StoredValue D J))} {consumed : List String}
    (own : ∀ c ∈ cols, (stored.find? fun s => s.name == c.name) = some c) :
    diffCompiledColumns schema table stored cols consumed = .ok ([], consumed ++ cols.map ColumnSnapshot.name) := by
  induction cols generalizing consumed with
  | nil => rw [diffCompiledColumns, List.map_nil, List.append_nil]
  | cons col cols ih =>
      obtain ⟨first, own⟩ := List.forall_mem_cons.mp own
      rw [diffCompiledColumns, first]
      dsimp only
      rw [ih own, diffColumnPair_self, List.append_assoc]
      rfl

/-- Nothing is planned for a table that is as it is compiled. -/
theorem diffTable_self (once : (new.columns.map ColumnSnapshot.name).Nodup) : diffTable schema new new = .ok [] := by
  have own : ∀ c ∈ new.columns, (new.columns.find? fun s => s.name == c.name) = some c := by
    intro c listed
    cases found : new.columns.find? fun s => s.name == c.name with
    | none => exact absurd (BEq.refl c.name) (List.find?_eq_none.mp found c listed)
    | some s =>
        have named := List.find?_some found
        exact congrArg some (List.inj_on_of_nodup_map once (List.mem_of_find?_eq_some found) listed (beq_iff_eq.mp named))
  have kept : (new.columns.filter fun c => !(new.columns.map ColumnSnapshot.name).contains c.name) = [] :=
    List.filter_eq_nil_iff.mpr fun c listed absent => by
      rw [List.contains_iff_mem.mpr (List.mem_map_of_mem listed)] at absent
      cases absent
  have listed : (new.indexes.filter fun i => !hasIndex new.indexes i) = [] :=
    List.filter_eq_nil_iff.mpr fun i member absent => by
      rw [hasIndex_of_mem member] at absent
      cases absent
  have listed' : (new.indexes.filter fun s => !new.indexes.any fun c => indexEq c s) = [] := listed
  rw [diffTable, diffColumns, diffCompiledColumns_self own, diffIndexes, listed']
  show Except.ok ([] ++ List.map _ (new.columns.filter fun c => !([] ++ new.columns.map ColumnSnapshot.name).contains c.name) ++ _) = _
  rw [List.nil_append, List.nil_append, kept]
  rfl

end Table

namespace MigrationEngine
variable {schema : CompiledSchema D J} {tables : Tables D J}

theorem compiled_columns {c : TableSchemaSnapshot (StoredValue D J)} (compiled : c ∈ schema.snapshots) :
    (c.columns.map ColumnSnapshot.name).Nodup := by
  obtain ⟨table, _, rfl⟩ := List.mem_map.mp compiled
  have names : table.schemaSnapshot.columns.map ColumnSnapshot.name = table.fields.map Field.name := List.map_map ..
  rw [names]
  exact table.fieldNames

/-- Nothing is planned for tables that are as they are compiled. -/
theorem pendingMigrations_self (same : (tables.map StoredTable.snapshot).Perm schema.snapshots) :
    pendingMigrations schema tables = .ok [] := by
  have turn : ∀ c ∈ schema.snapshots, diffCompiled schema (tables.map StoredTable.snapshot) c = .ok [] := by
    intro c compiled
    have distinct : ((tables.map StoredTable.snapshot).map TableSchemaSnapshot.name).Nodup :=
      (same.map TableSchemaSnapshot.name).nodup_iff.mpr snapshots_names
    rw [diffCompiled, findByName_of_mem distinct (same.mem_iff.mpr compiled) rfl]
    exact diffTable_self (compiled_columns compiled)
  have turns : ∀ l : List (TableSchemaSnapshot (StoredValue D J)), l ⊆ schema.snapshots →
      ∃ perTable, l.mapM (diffCompiled schema (tables.map StoredTable.snapshot)) = .ok perTable ∧ perTable.flatten = [] := by
    intro l
    induction l with
    | nil => exact fun _ => ⟨[], rfl, rfl⟩
    | cons c l ih =>
        intro subset
        obtain ⟨later, run, none_⟩ := ih (List.subset_of_cons_subset subset)
        refine ⟨[] :: later, ?_, by rw [List.flatten_cons, none_, List.append_nil]⟩
        rw [List.mapM_cons, turn c (subset List.mem_cons_self), run]
        rfl
  obtain ⟨perTable, run, none_⟩ := turns schema.snapshots (List.Subset.refl _)
  have undropped : ((tables.map StoredTable.snapshot).filter fun s => (findByName schema.snapshots s.name).isNone) = [] := by
    refine List.filter_eq_nil_iff.mpr fun s stored absent => ?_
    have missing := findByName_eq_none.mp (Option.isNone_iff_eq_none.mp absent)
    exact missing (List.mem_map_of_mem (same.mem_iff.mp stored))
  rw [pendingMigrations, diff, run]
  show Except.ok (perTable.flatten ++ List.map _ ((tables.map StoredTable.snapshot).filter _)) = _
  rw [none_, undropped]
  rfl

section Steps
variable {engine : MigrationEngine D J} [LinearOrder J]

/-- A migration that returns `Ok` leaves the compiled snapshots exactly when the plan
reproduces each compiled table that is stored. -/
theorem migrate_perm_iff {tables' : Tables D J} {allowDestructive : Bool} (apart : engine.Apart tables)
    (distinct : ∀ t ∈ tables, (t.snapshot.columns.map ColumnSnapshot.name).Nodup)
    (run : engine.migrate schema tables allowDestructive = .ok tables') :
    (tables'.map StoredTable.snapshot).Perm schema.snapshots ↔
      ∀ t ∈ tables, ∀ c ∈ schema.snapshots, t.snapshot.name = c.name → Reproduces schema t.snapshot c := by
  obtain ⟨ops, planned, apart', after⟩ := migrate_snapshots apart run
  have names := apart'.names
  have edited : ∀ t ∈ tables, ∀ c ∈ schema.snapshots, t.snapshot.name = c.name →
      (editAll (orderOps ops) t.snapshot = c ↔ Reproduces schema t.snapshot c) := by
    intro t listed c compiled named
    rw [editAll_pending apart planned compiled (List.mem_map_of_mem listed) named]
    exact foldl_edit_eq_iff (distinct t listed) (compiled_columns compiled) named
  have kept : ∀ t ∈ tables, (t.snapshot.name ∉ dropped (orderOps ops) ↔ ∃ c ∈ schema.snapshots, t.snapshot.name = c.name) := by
    intro t listed
    have same : t.snapshot.name ∈ dropped (orderOps ops) ↔ t.snapshot.name ∈ dropped ops :=
      ((List.mergeSort_perm ops _).filterMap _).mem_iff
    rw [same, mem_dropped_pending planned (List.mem_map_of_mem listed), not_not, List.mem_map]
    exact exists_congr fun c => and_congr_right fun _ => eq_comm
  have member : ∀ t ∈ tables, ∀ c ∈ schema.snapshots, t.snapshot.name = c.name →
      editAll (orderOps ops) t.snapshot ∈ tables'.map StoredTable.snapshot := by
    intro t listed c compiled named
    rw [after]
    refine List.mem_append_left _ (List.mem_map_of_mem (List.mem_filter.mpr ⟨List.mem_map_of_mem listed, ?_⟩))
    exact decide_eq_true ((kept t listed).mpr ⟨c, compiled, named⟩)
  constructor
  · intro same t listed c compiled named
    refine (edited t listed c compiled named).mp ?_
    refine List.inj_on_of_nodup_map snapshots_names (same.mem_iff.mp (member t listed c compiled named)) compiled ?_
    rw [editAll_name, named]
  · intro reproduces
    refine (List.perm_ext_iff_of_nodup (List.Nodup.of_map _ names) (List.Nodup.of_map _ snapshots_names)).mpr fun s => ?_
    constructor
    · intro inside
      rw [after] at inside
      rcases List.mem_append.mp inside with inside | inside
      · obtain ⟨old, keeps, rfl⟩ := List.mem_map.mp inside
        obtain ⟨stored, here⟩ := List.mem_filter.mp keeps
        obtain ⟨t, listed, rfl⟩ := List.mem_map.mp stored
        obtain ⟨c, compiled, named⟩ := (kept t listed).mp (of_decide_eq_true here)
        rw [(edited t listed c compiled named).mpr (reproduces t listed c compiled named)]
        exact compiled
      · obtain ⟨op, inside, created⟩ := List.mem_filterMap.mp inside
        rcases mem_pendingMigrations planned (mem_orderOps.mp inside) with ⟨table, listed, rfl, _⟩ | ⟨t, _, target⟩ | ⟨t, _, rfl⟩
        · cases created
          exact List.mem_map_of_mem listed
        · cases op with
          | createTable => cases target
          | _ => cases created
        · cases created
    · intro compiled
      by_cases stored : ∃ t ∈ tables, t.snapshot.name = s.name
      · obtain ⟨t, listed, named⟩ := stored
        have here := member t listed s compiled named
        rwa [(edited t listed s compiled named).mpr (reproduces t listed s compiled named)] at here
      · rw [after]
        refine List.mem_append_right _ (List.mem_filterMap.mpr ⟨_, mem_orderOps.mpr (createTable_pending planned compiled ?_), rfl⟩)
        exact fun t listed named => stored ⟨t, listed, named⟩

theorem migrate_distinct {tables' : Tables D J} {allowDestructive : Bool} (apart : engine.Apart tables)
    (distinct : ∀ t ∈ tables, (t.snapshot.columns.map ColumnSnapshot.name).Nodup)
    (run : engine.migrate schema tables allowDestructive = .ok tables') :
    engine.Apart tables' ∧ ∀ t ∈ tables', (t.snapshot.columns.map ColumnSnapshot.name).Nodup := by
  obtain ⟨ops, planned, apart', after⟩ := migrate_snapshots apart run
  refine ⟨apart', fun t listed => ?_⟩
  have inside : t.snapshot ∈ tables'.map StoredTable.snapshot := List.mem_map_of_mem listed
  rw [after] at inside
  rcases List.mem_append.mp inside with inside | inside
  · obtain ⟨old, keeps, edited⟩ := List.mem_map.mp inside
    obtain ⟨there, here⟩ := List.mem_filter.mp keeps
    obtain ⟨u, stored, rfl⟩ := List.mem_map.mp there
    have undropped : u.snapshot.name ∉ dropped ops := fun gone =>
      of_decide_eq_true here (((List.mergeSort_perm ops _).filterMap _).mem_iff.mpr gone)
    rw [mem_dropped_pending planned there, not_not] at undropped
    obtain ⟨c, compiled, named⟩ := List.mem_map.mp undropped
    rw [← edited, editAll_pending apart planned compiled there named.symm, MigrationOp.foldl_edit, tableSources]
    dsimp only
    rw [foldl_editedColumns (distinct u stored) (compiled_columns compiled)]
    exact carried_names (distinct u stored) (sources_names _ _ _ (compiled_columns compiled)) fun e member =>
      sources_within member
  · obtain ⟨op, inside, created⟩ := List.mem_filterMap.mp inside
    rcases mem_pendingMigrations planned (mem_orderOps.mp inside) with ⟨table, compiled, rfl, _⟩ | ⟨u, _, target⟩ | ⟨u, _, rfl⟩
    · rw [← Option.some.inj created]
      exact compiled_columns (List.mem_map_of_mem compiled)
    · cases op with
      | createTable => cases target
      | _ => cases created
    · cases created

/-- In every state that registrations, migrations and insertions lead to, the tables have
distinct fingerprints, and each has distinct columns. -/
theorem distinct_of_run (run : Run engine (fun _ _ => True) tables) :
    engine.Apart tables ∧ ∀ t ∈ tables, (t.snapshot.columns.map ColumnSnapshot.name).Nodup := by
  induction run with
  | start => exact ⟨List.nodup_nil, fun _ member => absurd member List.not_mem_nil⟩
  | register _ table registered ih =>
      unfold registerTable at registered
      split at registered
      next =>
        split at registered
        · cases registered
        · cases registered
          exact ih
      next absent =>
        obtain ⟨_, _, registered⟩ := bind_eq_ok.mp registered
        obtain ⟨_, _, registered⟩ := bind_eq_ok.mp registered
        obtain ⟨_, _, registered⟩ := bind_eq_ok.mp registered
        split at registered
        · cases registered
        · cases registered
          refine ⟨ih.1.append absent, List.forall_mem_append.mpr ⟨ih.2, List.forall_mem_singleton.mpr ?_⟩⟩
          have names : table.schemaSnapshot.columns.map ColumnSnapshot.name = table.fields.map Field.name := List.map_map ..
          exact Eq.mpr (congrArg List.Nodup names) table.fieldNames
  | migrate _ schema allowDestructive _ migrated ih => exact migrate_distinct ih.1 ih.2 migrated
  | insert _ table values records indexes _ ih =>
      have kept : ∀ t : StoredTable D J, ∀ u, u = (if engine.fingerprint t.snapshot.name == engine.fingerprint table.name then
          { t with records := records, indexes := indexes, counters := (fillFromLedger table t.counters values).2 } else t) →
            u.snapshot = t.snapshot := by
        rintro t u rfl
        split <;> rfl
      refine ⟨ih.1.of_names ?_, List.forall_mem_map.mpr fun t listed => ?_⟩
      · rw [modifyTable, List.map_map]
        exact List.map_congr_left fun t _ => congrArg TableSchemaSnapshot.name (kept t _ rfl)
      · rw [kept t _ rfl]
        exact ih.2 t listed

end Steps
end MigrationEngine

namespace DbmsContext
open MigrationEngine
variable (digest : Snapshots D J → UInt64)

/-- The stored snapshots are the compiled ones: no drift, nothing to do, and calls are let
through. -/
structure Settled (ctx : DbmsContext D J) (schema : CompiledSchema D J) : Prop where
  upToDate : ctx.UpToDate schema
  noDrift : (ctx.driftCheck digest schema).1 = false
  nothingPending : pendingMigrations schema ctx.tables = .ok []
  accepted : ctx.ensureNoDrift digest schema = some ()

variable [LinearOrder J] {engine : MigrationEngine D J} {ctx : DbmsContext D J} {schema : CompiledSchema D J}
  {allowDestructive : Bool} {tables' : Tables D J}

/-- A migration that returns `Ok` settles the context exactly when its plan reproduces the
compiled snapshot of each table that is stored. -/
theorem migrate_settles_iff (apart : engine.Apart ctx.tables)
    (distinct : ∀ t ∈ ctx.tables, (t.snapshot.columns.map ColumnSnapshot.name).Nodup)
    (run : engine.migrate schema ctx.tables allowDestructive = .ok tables') :
    (ctx.migrate digest engine schema allowDestructive).Settled digest schema ↔
      ∀ t ∈ ctx.tables, ∀ table ∈ schema.tables, t.snapshot.name = table.name →
        Reproduces schema t.snapshot table.schemaSnapshot := by
  have after : ctx.migrate digest engine schema allowDestructive =
      ⟨tables', computeHash digest (tables'.map StoredTable.snapshot), none, false⟩ := by
    rw [DbmsContext.migrate, run]
    rfl
  have perm := migrate_perm_iff apart distinct run
  have reproduces : (∀ t ∈ ctx.tables, ∀ c ∈ schema.snapshots, t.snapshot.name = c.name → Reproduces schema t.snapshot c) ↔
      ∀ t ∈ ctx.tables, ∀ table ∈ schema.tables, t.snapshot.name = table.name →
        Reproduces schema t.snapshot table.schemaSnapshot :=
    forall₂_congr fun t _ => List.forall_mem_map
  rw [after, ← reproduces, ← perm]
  constructor
  · exact fun settled => settled.upToDate
  · intro same
    have hash : computeHash digest (tables'.map StoredTable.snapshot) = computeHash digest schema.snapshots :=
      computeHash_perm same snapshots_names
    have answer : (driftCheck digest ⟨tables', computeHash digest (tables'.map StoredTable.snapshot), none, false⟩ schema).1 =
        false := by
      rw [hash]
      exact bne_self_eq_false _
    refine ⟨same, answer, pendingMigrations_self same, ?_⟩
    rw [ensureNoDrift, answer]
    rfl

end DbmsContext

/-- Every migration that returns `Ok` settles its context. -/
def AlwaysSettles [LinearOrder J] (engine : MigrationEngine D J) : Prop :=
  ∀ (digest : Snapshots D J → UInt64) (ctx : DbmsContext D J) (schema : CompiledSchema D J) (allowDestructive : Bool)
    (tables' : Tables D J), engine.Apart ctx.tables →
      (∀ t ∈ ctx.tables, (t.snapshot.columns.map ColumnSnapshot.name).Nodup) →
        engine.migrate schema ctx.tables allowDestructive = .ok tables' →
          (ctx.migrate digest engine schema allowDestructive).Settled digest schema

/-! ### A default is changed -/

namespace Quotas
open MigrationEngine DbmsContext Invoices OpenHandle

/-- `cap: Uint32` with `#[default = n]`. -/
def cap (n : UInt32) : Field Contacts.Cell := ⟨"cap", .uint32, false, false, false, false, none, some (.uint32 n), []⟩

/-- `note: Nullable<Text>`. -/
def note : Field Contacts.Cell := ⟨"note", .text, true, false, false, false, none, none, []⟩

theorem short_names : ["id", "cap", "owner"].Nodup := by decide

theorem long_names : ["id", "cap", "owner", "note"].Nodup := by decide

def quotas (n : UInt32) : TableType Contacts.Cell :=
  ⟨"quotas", "id", [Contacts.field "id" .uint32, cap n, Contacts.field "owner" .text], [], none, short_names⟩

/-- With a new column at the end. -/
def noted : TableType Contacts.Cell :=
  ⟨"quotas", "id", [Contacts.field "id" .uint32, cap 10, Contacts.field "owner" .text, note], [], none, long_names⟩

def ctx : DbmsContext {bytes : List UInt8 // bytes.length = 16} Unit :=
  ⟨[newTable (quotas 10).schemaSnapshot], computeHash counted [(quotas 10).schemaSnapshot], none, false⟩

theorem ctx_apart : Invoices.engine.Apart ctx.tables := List.nodup_singleton _

theorem ctx_distinct : ∀ t ∈ ctx.tables, (t.snapshot.columns.map ColumnSnapshot.name).Nodup :=
  List.forall_mem_singleton.mpr short_names

theorem no_ops : orderOps ([] : List (MigrationOp Contacts.Cell)) = [] := List.mergeSort_nil

theorem default_ignored : Invoices.engine.migrate (schemaOf (quotas 20)) ctx.tables false = .ok ctx.tables := by
  have pending : pendingMigrations (schemaOf (quotas 20)) ctx.tables = .ok [] := by rfl
  rw [MigrationEngine.migrate, pending]
  show Invoices.engine.applyOps (schemaOf (quotas 20)) ctx.tables (orderOps []) = _
  rw [no_ops]
  rfl

/-- The new default is never stored. -/
theorem default_unsettled : ¬ AlwaysSettles Invoices.engine := by
  intro always
  have settled := always counted ctx (schemaOf (quotas 20)) false ctx.tables ctx_apart ctx_distinct default_ignored
  have same := settled.upToDate
  rw [UpToDate, DbmsContext.stored, DbmsContext.migrate, default_ignored] at same
  have member : (quotas 20).schemaSnapshot ∈ [(quotas 10).schemaSnapshot] := same.mem_iff.mpr List.mem_cons_self
  have defaults := congrArg (fun s : TableSchemaSnapshot Contacts.Cell => s.columns.map ColumnSnapshot.default) (List.mem_singleton.mp member)
  exact absurd defaults (by decide)

theorem note_pending : pendingMigrations (schemaOf noted) ctx.tables =
    .ok [.addColumn "quotas" (TableType.columnSnapshot note)] := by rfl

/-- The table with the new column. -/
def withNote : Tables {bytes : List UInt8 // bytes.length = 16} Unit :=
  [⟨noted.schemaSnapshot, [], [], newCounters (quotas 10).schemaSnapshot.columns⟩]

theorem note_added : Invoices.engine.migrate (schemaOf noted) ctx.tables false = .ok withNote := by
  rw [MigrationEngine.migrate, note_pending]
  show Invoices.engine.applyOps (schemaOf noted) ctx.tables (orderOps [.addColumn "quotas" (TableType.columnSnapshot note)]) = _
  rw [orderOps, List.mergeSort_singleton]
  rfl

theorem note_reproduces : Reproduces (schemaOf noted) (quotas 10).schemaSnapshot noted.schemaSnapshot where
  version := rfl
  primaryKey := rfl
  alignment := rfl
  inOrder := rfl
  newLast := by decide
  defaults := by decide
  indexes := rfl
  newIndexesLast := List.Pairwise.nil
  newIndexesOnce := List.nodup_nil

theorem note_settled : (ctx.migrate counted Invoices.engine (schemaOf noted) false).Settled counted (schemaOf noted) := by
  refine (migrate_settles_iff counted ctx_apart ctx_distinct note_added).mpr ?_
  refine List.forall_mem_singleton.mpr (List.forall_mem_singleton.mpr fun _ => note_reproduces)

end Quotas
end WasmDbms
