import WasmDbms.Migration.Apply

/-!
# What a pass does

The snapshots and counters that the end of a pass would store are its view. Each
operation acts on the view of a pass without reading its records, and what a migration
stores is its plan, applied to the view of the stored tables.
-/
namespace WasmDbms
open Result

/-! ## Removing by swapping -/

section SwapRemove
variable {α : Type}

theorem set_dropLast_perm (init : List α) (last : α) {i : ℕ} (inside : i < (init ++ [last]).length) :
    ((init ++ [last])[i] :: ((init ++ [last]).set i last).dropLast).Perm (init ++ [last]) := by
  rcases Nat.lt_or_ge i init.length with before | after
  · rw [List.set_append_left _ _ before, List.dropLast_concat, List.getElem_append_left before]
    have swapped : (init[i] :: init.set i last).Perm (last :: init) := by
      rw [List.set_eq_take_append_cons_drop, if_pos before]
      calc (init[i] :: (init.take i ++ last :: init.drop (i + 1))).Perm
            (init[i] :: last :: (init.take i ++ init.drop (i + 1))) := List.Perm.cons _ List.perm_middle
        (List.Perm _ (last :: init[i] :: (init.take i ++ init.drop (i + 1)))) := List.Perm.swap _ _ _
        (List.Perm _ (last :: (init.take i ++ init[i] :: init.drop (i + 1)))) := List.Perm.cons _ List.perm_middle.symm
        _ = last :: init := by rw [← List.drop_eq_getElem_cons before, List.take_append_drop]
    exact swapped.trans (List.perm_append_singleton last init).symm
  · rw [List.length_append, List.length_singleton] at inside
    obtain rfl : i = init.length := by omega
    have same : (init ++ [last]).set init.length last = init ++ [last] := by
      rw [List.set_append_right _ _ (le_refl _), Nat.sub_self]
      rfl
    rw [same, List.dropLast_concat, List.getElem_append_right (le_refl _)]
    simp only [Nat.sub_self, List.getElem_cons_zero]
    exact (List.perm_append_singleton last init).symm

theorem swapRemove_perm {l : List α} {i : ℕ} {x : α} (here : l[i]? = some x) :
    (x :: MigrationEngine.swapRemove l i).Perm l := by
  obtain ⟨inside, rfl⟩ := List.getElem?_eq_some_iff.mp here
  rcases List.eq_nil_or_concat l with rfl | ⟨init, last, rfl⟩
  · exact absurd inside (Nat.not_lt_zero i)
  · rw [List.concat_eq_append] at inside
    simp only [List.concat_eq_append, MigrationEngine.swapRemove, List.getLast?_concat]
    exact set_dropLast_perm init last inside

end SwapRemove

/-! ## Snapshots by name -/

section FindByName
variable {V : Type} {snapshots : List (TableSchemaSnapshot V)} {s : TableSchemaSnapshot V} {name : String}

theorem mem_of_findByName (found : findByName snapshots name = some s) : s ∈ snapshots :=
  List.mem_of_find?_eq_some found

theorem name_of_findByName (found : findByName snapshots name = some s) : s.name = name := by
  unfold findByName at found
  have named := List.find?_some found
  exact beq_iff_eq.mp named

theorem findByName_eq_none : findByName snapshots name = none ↔ name ∉ snapshots.map TableSchemaSnapshot.name := by
  unfold findByName
  rw [List.find?_eq_none, List.mem_map]
  constructor
  · rintro none ⟨s, member, named⟩
    exact none s member (beq_iff_eq.mpr named)
  · intro none s member named
    exact none ⟨s, member, beq_iff_eq.mp named⟩

theorem findByName_of_mem (distinct : (snapshots.map TableSchemaSnapshot.name).Nodup) (member : s ∈ snapshots)
    (named : s.name = name) : findByName snapshots name = some s := by
  cases found : findByName snapshots name with
  | none => exact absurd (List.mem_map.mpr ⟨s, member, named⟩) (findByName_eq_none.mp found)
  | some s' =>
      have same := (name_of_findByName found).trans named.symm
      rw [List.inj_on_of_nodup_map distinct (mem_of_findByName found) member same]

/-- With distinct names, the order of the snapshots does not matter. -/
theorem findByName_perm {others : List (TableSchemaSnapshot V)} (same : snapshots.Perm others)
    (distinct : (snapshots.map TableSchemaSnapshot.name).Nodup) (name : String) :
    findByName snapshots name = findByName others name := by
  have distinct' : (others.map TableSchemaSnapshot.name).Nodup := (same.map _).nodup_iff.mp distinct
  cases found : findByName snapshots name with
  | none =>
      refine (findByName_eq_none.mpr fun listed => ?_).symm
      exact findByName_eq_none.mp found ((same.map _).mem_iff.mpr listed)
  | some s =>
      exact (findByName_of_mem distinct' (same.mem_iff.mp (mem_of_findByName found)) (name_of_findByName found)).symm

theorem findByName_append {others : List (TableSchemaSnapshot V)} :
    findByName (snapshots ++ others) name = (findByName snapshots name).or (findByName others name) :=
  List.find?_append

theorem findByName_cons : findByName (s :: snapshots) name = if s.name = name then some s else findByName snapshots name := by
  unfold findByName
  rw [List.find?_cons]
  by_cases same : s.name = name
  · rw [if_pos same, beq_iff_eq.mpr same]
  · rw [if_neg same, beq_eq_false_iff_ne.mpr same]

theorem getD_findByName_name : ((findByName snapshots s.name).getD s).name = s.name := by
  cases found : findByName snapshots s.name with
  | none => rfl
  | some s' => exact name_of_findByName found

end FindByName

namespace MigrationEngine
variable {D J : Type}

/-- The snapshot of a table and its counters. -/
abbrev Kept (D J : Type) := TableSchemaSnapshot (StoredValue D J) × Option (AutoincrementRegistry J)

/-- What the end of the pass would store. -/
def Pass.view (pass : Pass D J) : List (Kept D J) :=
  (pass.tables.map kept).map fun e => ((findByName pass.touched e.1.name).getD e.1, e.2)

variable (engine : MigrationEngine D J)

/-- What an operation does to the view of a pass. -/
def viewOp (view : List (Kept D J)) (op : MigrationOp (StoredValue D J)) : List (Kept D J) :=
  match op with
  | .createTable _ s => view ++ [(s, newCounters s.columns)]
  | .dropTable name => view.filter fun e => engine.fingerprint e.1.name != engine.fingerprint name
  | op => view.map fun e => if op.target = some e.1.name then (op.edit e.1, e.2) else e

/-! ## Passes in order -/

/-- The fingerprints of the stored tables are distinct. -/
def Apart (tables : Tables D J) : Prop := (tables.map fun t => engine.fingerprint t.snapshot.name).Nodup

/-- The waiting snapshots have distinct names, and are those of stored tables. -/
structure Pass.Tidy (pass : Pass D J) : Prop where
  apart : engine.Apart pass.tables
  distinct : (pass.touched.map TableSchemaSnapshot.name).Nodup
  stored : ∀ s ∈ pass.touched, ∃ t ∈ pass.tables, t.snapshot.name = s.name

variable {engine}

theorem Apart.eq {tables : Tables D J} (apart : engine.Apart tables) {t u : StoredTable D J} (listed : t ∈ tables)
    (listed' : u ∈ tables) (same : engine.fingerprint t.snapshot.name = engine.fingerprint u.snapshot.name) : t = u :=
  List.inj_on_of_nodup_map apart listed listed' same

theorem Apart.names {tables : Tables D J} (apart : engine.Apart tables) :
    ((tables.map StoredTable.snapshot).map TableSchemaSnapshot.name).Nodup := by
  rw [List.map_map]
  refine List.Nodup.of_map engine.fingerprint ?_
  rw [List.map_map]
  exact apart

/-- The fingerprints depend on the names only. -/
theorem Apart.of_names {tables tables' : Tables D J} (apart : engine.Apart tables)
    (same : (tables'.map fun t => t.snapshot.name) = tables.map fun t => t.snapshot.name) : engine.Apart tables' := by
  have prints := congrArg (List.map engine.fingerprint) same
  rw [List.map_map, List.map_map] at prints
  unfold Apart at apart ⊢
  refine Eq.mpr (congrArg List.Nodup prints) apart

theorem mem_of_names {tables tables' : Tables D J}
    (same : (tables'.map fun t => t.snapshot.name) = tables.map fun t => t.snapshot.name) {t : StoredTable D J}
    (listed : t ∈ tables) : ∃ t' ∈ tables', t'.snapshot.name = t.snapshot.name := by
  have member : t.snapshot.name ∈ tables.map fun t => t.snapshot.name := List.mem_map_of_mem listed
  rw [← same] at member
  exact List.mem_map.mp member

theorem names_of_kept {tables tables' : Tables D J} (same : tables'.map kept = tables.map kept) :
    (tables'.map fun t => t.snapshot.name) = tables.map fun t => t.snapshot.name := by
  have names := congrArg (List.map fun e => e.1.name) same
  rw [List.map_map, List.map_map] at names
  exact names

/-- A snapshot that is loaded is the one of its table in the view; taking it out leaves
the other waiting snapshots. -/
theorem loadSnapshot_ok {pass : Pass D J} (tidy : pass.Tidy engine) {table : String}
    {s : TableSchemaSnapshot (StoredValue D J)} {touched : List (TableSchemaSnapshot (StoredValue D J))}
    (loaded : loadSnapshotForMutation pass table = .ok (s, touched)) :
    s.name = table ∧ (∃ t ∈ pass.tables, t.snapshot.name = table) ∧
      (∀ t ∈ pass.tables, t.snapshot.name = table → (findByName pass.touched table).getD t.snapshot = s) ∧
      ((s :: touched).Perm pass.touched ∨ findByName pass.touched table = none ∧ touched = pass.touched) := by
  unfold loadSnapshotForMutation at loaded
  split at loaded
  next i position =>
    obtain ⟨inside, named, _⟩ := List.findIdx?_eq_some_iff_getElem.mp position
    rw [List.getElem?_eq_getElem inside] at loaded
    cases loaded
    have named : pass.touched[i].name = table := beq_iff_eq.mp named
    have member : pass.touched[i] ∈ pass.touched := List.getElem_mem inside
    have found := findByName_of_mem tidy.distinct member named
    refine ⟨named, ?_, fun t _ _ => ?_, .inl (swapRemove_perm (List.getElem?_eq_getElem inside))⟩
    · obtain ⟨t, listed, same⟩ := tidy.stored _ member
      exact ⟨t, listed, same.trans named⟩
    · rw [found]
      rfl
  next absent =>
    have none_ : findByName pass.touched table = none := by
      rw [List.findIdx?_eq_none_iff] at absent
      exact List.find?_eq_none.mpr fun x member => by rw [absent x member]; exact Bool.false_ne_true
    split at loaded
    next s' found =>
      cases loaded
      obtain ⟨t, listed, rfl⟩ := List.mem_map.mp (mem_of_findByName found)
      have named := name_of_findByName found
      refine ⟨named, ⟨t, listed, named⟩, fun u listed' named' => ?_, .inr ⟨none_, rfl⟩⟩
      rw [none_, tidy.apart.eq listed' listed (by rw [named, named'])]
      rfl
    next => cases loaded

/-- The effect of an operation on a table, on the view. -/
theorem Edits.view {pass pass' : Pass D J} (tidy : pass.Tidy engine) {table : String}
    {op : MigrationOp (StoredValue D J)} (edits : Edits pass pass' table op) :
    pass'.Tidy engine ∧
      pass'.view = pass.view.map fun e => if table = e.1.name then (op.edit e.1, e.2) else e := by
  obtain ⟨s, touched, loaded, after⟩ := edits.edited
  obtain ⟨named, ⟨t, listed, own⟩, current, rest⟩ := loadSnapshot_ok tidy loaded
  have editedName : (op.edit s).name = table := (MigrationOp.edit_name s op).trans named
  -- The snapshot of the table is no longer among the others.
  have distinct : ((op.edit s :: touched).map TableSchemaSnapshot.name).Nodup := by
    rw [List.map_cons, editedName]
    rcases rest with perm | ⟨absent, rfl⟩
    · have names := (perm.map TableSchemaSnapshot.name).nodup_iff.mpr tidy.distinct
      rwa [List.map_cons, named] at names
    · exact List.nodup_cons.mpr ⟨findByName_eq_none.mp absent, tidy.distinct⟩
  have others : ∀ name, name ≠ table → findByName touched name = findByName pass.touched name := by
    intro name other
    rcases rest with perm | ⟨_, rfl⟩
    · have names := (perm.map TableSchemaSnapshot.name).nodup_iff.mpr tidy.distinct
      rw [← findByName_perm perm names, findByName_cons, if_neg (by rw [named]; exact other.symm)]
    · rfl
  have shuffled : (op.edit s :: touched).Perm pass'.touched := by
    rw [after]
    exact (List.perm_append_singleton _ _).symm
  have found : ∀ name, findByName pass'.touched name =
      if table = name then some (op.edit s) else findByName pass.touched name := by
    intro name
    rw [← findByName_perm shuffled distinct, findByName_cons, editedName]
    by_cases same : table = name
    · rw [if_pos same, if_pos same]
    · rw [if_neg same, if_neg same, others name (Ne.symm same)]
  refine ⟨⟨tidy.apart.of_names (names_of_kept edits.tables), (shuffled.map _).nodup_iff.mp distinct, ?_⟩, ?_⟩
  · intro x member
    have stored : ∃ u ∈ pass.tables, u.snapshot.name = x.name := by
      rcases List.mem_cons.mp (shuffled.mem_iff.mpr member) with rfl | member
      · exact ⟨t, listed, own.trans editedName.symm⟩
      · rcases rest with perm | ⟨_, rfl⟩
        · exact tidy.stored x (perm.mem_iff.mp (List.mem_cons_of_mem _ member))
        · exact tidy.stored x member
    obtain ⟨u, listed', same⟩ := stored
    obtain ⟨u', listed'', same'⟩ := mem_of_names (names_of_kept edits.tables) listed'
    exact ⟨u', listed'', same'.trans same⟩
  · unfold Pass.view
    rw [edits.tables, List.map_map, List.map_map, List.map_map]
    refine List.map_congr_left fun u listed' => ?_
    show ((findByName pass'.touched u.snapshot.name).getD u.snapshot, u.counters) =
      if table = ((findByName pass.touched u.snapshot.name).getD u.snapshot).name then
        (op.edit ((findByName pass.touched u.snapshot.name).getD u.snapshot), u.counters)
      else ((findByName pass.touched u.snapshot.name).getD u.snapshot, u.counters)
    rw [found]
    by_cases same : table = u.snapshot.name
    · have now := current u listed' same.symm
      rw [if_pos same, ← same, now, if_pos named.symm]
      rfl
    · rw [if_neg same, if_neg (by rw [getD_findByName_name]; exact same)]

theorem Pass.view_names (pass : Pass D J) :
    (pass.view.map fun e => e.1.name) = pass.tables.map fun t => t.snapshot.name := by
  unfold Pass.view
  rw [List.map_map, List.map_map]
  refine List.map_congr_left fun t _ => ?_
  exact getD_findByName_name

/-! ## Plans that can be followed -/

/-- The names of the tables a plan creates. -/
def created {V : Type} (ops : List (MigrationOp V)) : List String := ops.filterMap MigrationOp.creates

/-- The names of the tables a plan drops. -/
def dropped {V : Type} (ops : List (MigrationOp V)) : List String := ops.filterMap MigrationOp.drops

/-- The names of the tables a plan edits. -/
def targets {V : Type} (ops : List (MigrationOp V)) : List String := ops.filterMap MigrationOp.target

section Names
variable {V : Type} (ops later : List (MigrationOp V)) (gone : List (TableSchemaSnapshot V))

theorem created_append : created (ops ++ later) = created ops ++ created later := List.filterMap_append
theorem dropped_append : dropped (ops ++ later) = dropped ops ++ dropped later := List.filterMap_append
theorem targets_append : targets (ops ++ later) = targets ops ++ targets later := List.filterMap_append

theorem created_drops : created (gone.map fun s => MigrationOp.dropTable (V := V) s.name) = [] :=
  List.filterMap_eq_nil_iff.mpr (List.forall_mem_map.mpr fun _ _ => rfl)

theorem targets_drops : targets (gone.map fun s => MigrationOp.dropTable (V := V) s.name) = [] :=
  List.filterMap_eq_nil_iff.mpr (List.forall_mem_map.mpr fun _ _ => rfl)

theorem dropped_drops :
    dropped (gone.map fun s => MigrationOp.dropTable (V := V) s.name) = gone.map TableSchemaSnapshot.name := by
  rw [dropped, List.filterMap_map, ← List.filterMap_eq_map]
  rfl

end Names

/-- A plan creates new tables and drops old ones it does not touch. -/
structure Sensible (pass : Pass D J) (ops : List (MigrationOp (StoredValue D J))) : Prop where
  createdOnce : (created ops).Nodup
  fresh : ∀ name ∈ created ops, ∀ t ∈ pass.tables, t.snapshot.name ≠ name
  droppedOnce : (dropped ops).Nodup
  old : ∀ name ∈ dropped ops, ∃ t ∈ pass.tables, t.snapshot.name = name
  idle : ∀ name ∈ dropped ops, (∀ s ∈ pass.touched, s.name ≠ name) ∧ name ∉ targets ops

section Steps
variable {pass pass' : Pass D J} {ops : List (MigrationOp (StoredValue D J))}

theorem find_eq_none {tables : Tables D J} {name : String} (absent : engine.find tables name = none) :
    ∀ t ∈ tables, engine.fingerprint t.snapshot.name ≠ engine.fingerprint name := by
  intro t listed same
  exact List.find?_eq_none.mp absent t listed (beq_iff_eq.mpr same)

/-- A table of a new name is registered at the end, once its snapshot has been checked. -/
theorem registerTableFromSnapshot_ok {tables tables' : Tables D J} {s : TableSchemaSnapshot (StoredValue D J)}
    (fresh : ∀ t ∈ tables, t.snapshot.name ≠ s.name)
    (run : engine.registerTableFromSnapshot tables s = .ok tables') :
    engine.find tables s.name = none ∧ engine.validateCounterTypes s.columns = .ok () ∧ tables' = tables ++ [newTable s] := by
  unfold registerTableFromSnapshot at run
  split at run
  next t found =>
    rw [if_pos (fresh t (List.mem_of_find?_eq_some found))] at run
    cases run
  next absent =>
    obtain ⟨_, _, run⟩ := bind_eq_ok.mp run
    obtain ⟨_, typed, run⟩ := bind_eq_ok.mp run
    obtain ⟨_, _, run⟩ := bind_eq_ok.mp run
    cases run
    exact ⟨absent, typed, rfl⟩

theorem Apart.append {tables : Tables D J} (apart : engine.Apart tables) {t : StoredTable D J}
    (absent : engine.find tables t.snapshot.name = none) : engine.Apart (tables ++ [t]) := by
  unfold Apart at apart ⊢
  rw [List.map_append, List.nodup_append]
  refine ⟨apart, List.nodup_singleton _, ?_⟩
  intro a listed b last
  obtain ⟨u, member, rfl⟩ := List.mem_map.mp listed
  rw [List.map_singleton, List.mem_singleton] at last
  rw [last]
  exact find_eq_none absent u member

/-- A new table comes last, and waits under its own snapshot. -/
theorem createTable_view (tidy : pass.Tidy engine) {s : TableSchemaSnapshot (StoredValue D J)}
    (fresh : ∀ t ∈ pass.tables, t.snapshot.name ≠ s.name) (run : engine.createTable pass s = .ok pass') :
    pass'.Tidy engine ∧ pass'.view = pass.view ++ [(s, newCounters s.columns)] ∧
      engine.validateCounterTypes s.columns = .ok () ∧ pass' = ⟨pass.tables ++ [newTable s], pass.touched ++ [s]⟩ := by
  obtain ⟨tables, registered, run⟩ := bind_eq_ok.mp run
  cases run
  obtain ⟨absent, typed, rfl⟩ := registerTableFromSnapshot_ok fresh (MigrationFailure.lift_eq_ok.mp registered)
  have unnamed : findByName pass.touched s.name = none := by
    rw [findByName_eq_none, List.mem_map]
    rintro ⟨x, waits, same⟩
    obtain ⟨t, listed, named⟩ := tidy.stored x waits
    exact fresh t listed (named.trans same)
  refine ⟨⟨tidy.apart.append absent, ?_, ?_⟩, ?_, typed, rfl⟩
  · show ((pass.touched ++ [s]).map TableSchemaSnapshot.name).Nodup
    rw [List.map_append, List.nodup_append]
    refine ⟨tidy.distinct, List.nodup_singleton _, fun a waits b last => ?_⟩
    rw [List.map_singleton, List.mem_singleton] at last
    rw [last]
    rintro rfl
    exact findByName_eq_none.mp unnamed waits
  · intro x waits
    rcases List.mem_append.mp waits with waits | last
    · obtain ⟨t, listed, named⟩ := tidy.stored x waits
      exact ⟨t, List.mem_append_left _ listed, named⟩
    · obtain rfl := List.mem_singleton.mp last
      exact ⟨newTable x, List.mem_append_right _ (List.mem_singleton_self _), rfl⟩
  · unfold Pass.view
    rw [List.map_append, List.map_append]
    congr 1
    · rw [List.map_map, List.map_map]
      refine List.map_congr_left fun t listed => ?_
      show ((findByName (pass.touched ++ [s]) t.snapshot.name).getD t.snapshot, t.counters) =
        ((findByName pass.touched t.snapshot.name).getD t.snapshot, t.counters)
      rw [findByName_append, findByName_cons, if_neg (fresh t listed).symm]
      cases findByName pass.touched t.snapshot.name <;> rfl
    · show [((findByName (pass.touched ++ [s]) s.name).getD s, newCounters s.columns)] = _
      rw [findByName_append, findByName_cons, if_pos rfl, unnamed]
      rfl

/-- A dropped table leaves; no snapshot waits for it. -/
theorem dropTable_view (tidy : pass.Tidy engine) {name : String} (old : ∃ t ∈ pass.tables, t.snapshot.name = name)
    (idle : ∀ s ∈ pass.touched, s.name ≠ name) :
    (engine.dropTable pass name).Tidy engine ∧
      (engine.dropTable pass name).view = engine.viewOp pass.view (.dropTable name) := by
  obtain ⟨gone, listed, rfl⟩ := old
  refine ⟨⟨tidy.apart.sublist (List.Sublist.map _ List.filter_sublist), tidy.distinct, fun s waits => ?_⟩, ?_⟩
  · obtain ⟨t, member, named⟩ := tidy.stored s waits
    refine ⟨t, List.mem_filter.mpr ⟨member, bne_iff_ne.mpr fun same => ?_⟩, named⟩
    exact idle s waits (named.symm.trans (congrArg (fun u => u.snapshot.name) (tidy.apart.eq member listed same)))
  · show ((engine.unregisterTable pass.tables gone.snapshot.name).map kept).map _ = (pass.view).filter _
    unfold Pass.view unregisterTable
    rw [List.map_map, List.map_map, List.filter_map]
    congr 1
    refine List.filter_congr fun t _ => ?_
    show (engine.fingerprint t.snapshot.name != engine.fingerprint gone.snapshot.name) =
      (engine.fingerprint ((findByName pass.touched t.snapshot.name).getD t.snapshot).name !=
        engine.fingerprint gone.snapshot.name)
    rw [getD_findByName_name]

variable [LinearOrder J] {schema : CompiledSchema D J} {op : MigrationOp (StoredValue D J)}

omit [LinearOrder J] in
/-- What is left of a plan when the pass has not moved away from it. -/
theorem Sensible.tail (sensible : Sensible pass (op :: ops))
    (grows : ∀ t' ∈ pass'.tables, (∃ t ∈ pass.tables, t.snapshot.name = t'.snapshot.name) ∨ op.creates = some t'.snapshot.name)
    (stays : ∀ t ∈ pass.tables, op.drops ≠ some t.snapshot.name → ∃ t' ∈ pass'.tables, t'.snapshot.name = t.snapshot.name)
    (touches : ∀ s' ∈ pass'.touched, (∃ s ∈ pass.touched, s.name = s'.name) ∨ op.creates = some s'.name ∨
      op.target = some s'.name) : Sensible pass' ops := by
  have member : ∀ {name : String} (f : MigrationOp (StoredValue D J) → Option String),
      name ∈ ops.filterMap f → name ∈ (op :: ops).filterMap f := fun f listed =>
    ((List.sublist_cons_self op ops).filterMap f).subset listed
  have apart : ∀ {name : String} (f : MigrationOp (StoredValue D J) → Option String),
      ((op :: ops).filterMap f).Nodup → name ∈ ops.filterMap f → f op ≠ some name := by
    intro name f nodup listed own
    rw [List.filterMap_cons_some own] at nodup
    exact (List.nodup_cons.mp nodup).1 listed
  constructor
  · exact sensible.createdOnce.sublist (List.Sublist.filterMap _ (List.sublist_cons_self op ops))
  · intro name listed t' inside named
    rcases grows t' inside with ⟨t, before, same⟩ | new
    · exact sensible.fresh name (member _ listed) t before (same.trans named)
    · rw [named] at new
      exact apart _ sensible.createdOnce listed new
  · exact sensible.droppedOnce.sublist (List.Sublist.filterMap _ (List.sublist_cons_self op ops))
  · intro name listed
    obtain ⟨t, before, rfl⟩ := sensible.old name (member _ listed)
    exact stays t before (apart _ sensible.droppedOnce listed)
  · intro name listed
    obtain ⟨untouched, untargeted⟩ := sensible.idle name (member _ listed)
    refine ⟨fun s' waits named => ?_, fun targeted => untargeted (member _ targeted)⟩
    rcases touches s' waits with ⟨s, before, same⟩ | new | edited
    · exact untouched s before (same.trans named)
    · obtain ⟨t, before, own⟩ := sensible.old name (member _ listed)
      refine sensible.fresh name ?_ t before own
      rw [named] at new
      exact List.mem_filterMap.mpr ⟨op, List.mem_cons_self, new⟩
    · rw [named] at edited
      exact untargeted (List.mem_filterMap.mpr ⟨op, List.mem_cons_self, edited⟩)

/-- The operation of a plan that is next does to the view what it says. -/
theorem applyOp_view (tidy : pass.Tidy engine) (sensible : Sensible pass (op :: ops))
    (run : engine.applyOp schema pass op = .ok pass') :
    pass'.Tidy engine ∧ Sensible pass' ops ∧ pass'.view = engine.viewOp pass.view op ∧
      ∀ name s, op = .createTable name s → engine.validateCounterTypes s.columns = .ok () := by
  cases target : op.target with
  | some table =>
      have edits := applyOp_edits run target
      obtain ⟨tidy', seen⟩ := edits.view tidy
      obtain ⟨s, touched, loaded, after⟩ := edits.edited
      obtain ⟨named, _, _, rest⟩ := loadSnapshot_ok tidy loaded
      have subset : touched ⊆ pass.touched := by
        rcases rest with perm | ⟨_, rfl⟩
        · exact fun x member => perm.subset (List.mem_cons_of_mem _ member)
        · exact List.Subset.refl _
      refine ⟨tidy', sensible.tail (fun t' listed => .inl ?_) (fun t listed _ => ?_) (fun s' waits => ?_), ?_, ?_⟩
      · exact mem_of_names (names_of_kept edits.tables.symm) listed
      · exact mem_of_names (names_of_kept edits.tables) listed
      · rw [after] at waits
        rcases List.mem_append.mp waits with waits | last
        · exact .inl ⟨s', subset waits, rfl⟩
        · rw [List.mem_singleton.mp last, MigrationOp.edit_name, named]
          exact .inr (.inr target)
      · rw [seen]
        cases op with
        | createTable => cases target
        | dropTable => cases target
        | _ =>
            cases target
            simp only [viewOp, MigrationOp.target, Option.some.injEq]
      · rintro name s rfl
        cases target
  | none =>
      cases op with
      | createTable name s =>
          have fresh : ∀ t ∈ pass.tables, t.snapshot.name ≠ s.name := sensible.fresh s.name List.mem_cons_self
          obtain ⟨tidy', seen, typed, rfl⟩ := createTable_view tidy fresh run
          refine ⟨tidy', sensible.tail (fun t' listed => ?_) (fun t listed _ => ?_) (fun s' waits => ?_), seen, ?_⟩
          · rcases List.mem_append.mp listed with before | last
            · exact .inl ⟨t', before, rfl⟩
            · rw [List.mem_singleton.mp last]
              exact .inr rfl
          · exact ⟨t, List.mem_append_left _ listed, rfl⟩
          · rcases List.mem_append.mp waits with before | last
            · exact .inl ⟨s', before, rfl⟩
            · rw [List.mem_singleton.mp last]
              exact .inr (.inl rfl)
          · rintro name' s' same
            cases same
            exact typed
      | dropTable name =>
          cases run
          have old := sensible.old name List.mem_cons_self
          obtain ⟨untouched, _⟩ := sensible.idle name List.mem_cons_self
          obtain ⟨tidy', seen⟩ := dropTable_view tidy old untouched
          refine ⟨tidy', sensible.tail (fun t' listed => ?_) (fun t listed apart => ?_) (fun s' waits => ?_), seen, ?_⟩
          · exact .inl ⟨t', List.mem_of_mem_filter listed, rfl⟩
          · refine ⟨t, List.mem_filter.mpr ⟨listed, bne_iff_ne.mpr fun same => apart ?_⟩, rfl⟩
            obtain ⟨gone, inside, rfl⟩ := old
            rw [tidy.apart.eq listed inside same]
            rfl
          · exact .inl ⟨s', waits, rfl⟩
          · rintro name' s' same
            cases same
      | _ => cases target

/-- A plan that is carried through does to the view what its operations say. -/
theorem foldlM_applyOp_view (tidy : pass.Tidy engine) (sensible : Sensible pass ops)
    (run : ops.foldlM (engine.applyOp schema) pass = .ok pass') :
    pass'.Tidy engine ∧ pass'.view = ops.foldl engine.viewOp pass.view ∧
      ∀ name s, .createTable name s ∈ ops → engine.validateCounterTypes s.columns = .ok () := by
  induction ops generalizing pass with
  | nil =>
      cases run
      exact ⟨tidy, rfl, fun _ _ member => absurd member List.not_mem_nil⟩
  | cons op ops ih =>
      rw [List.foldlM_cons] at run
      obtain ⟨next, step, run⟩ := bind_eq_ok.mp run
      obtain ⟨tidy', sensible', seen, typed⟩ := applyOp_view tidy sensible step
      obtain ⟨tidy'', after, later⟩ := ih tidy' sensible' run
      refine ⟨tidy'', ?_, fun name s member => ?_⟩
      · rw [after, seen, List.foldl_cons]
      · rcases List.mem_cons.mp member with own | member
        · exact typed name s own.symm
        · exact later name s member

omit [LinearOrder J] in
/-- Storing the snapshot of a table changes that of no other. -/
theorem modifyTable_snapshot {tables : Tables D J} (apart : engine.Apart tables)
    {s : TableSchemaSnapshot (StoredValue D J)} (stored : ∃ t ∈ tables, t.snapshot.name = s.name) :
    (engine.modifyTable tables s.name fun t => { t with snapshot := s }).map kept =
      (tables.map kept).map fun e => if s.name = e.1.name then (s, e.2) else e := by
  obtain ⟨own, listed, named⟩ := stored
  rw [modifyTable, List.map_map, List.map_map]
  refine List.map_congr_left fun t member => ?_
  show kept (if engine.fingerprint t.snapshot.name == engine.fingerprint s.name then _ else t) =
    if s.name = t.snapshot.name then (s, t.counters) else kept t
  by_cases same : s.name = t.snapshot.name
  · rw [if_pos same, same, if_pos (BEq.refl _)]
    rfl
  · rw [if_neg same, if_neg]
    intro equal
    have here := apart.eq member listed ((beq_iff_eq.mp equal).trans (congrArg engine.fingerprint named.symm))
    exact same (named.symm.trans (congrArg (fun u => u.snapshot.name) here.symm))

omit [LinearOrder J] in
theorem modifyTable_names {tables : Tables D J} (apart : engine.Apart tables)
    {s : TableSchemaSnapshot (StoredValue D J)} (stored : ∃ t ∈ tables, t.snapshot.name = s.name) :
    (engine.modifyTable tables s.name fun t => { t with snapshot := s }).map (fun t => t.snapshot.name) =
      tables.map fun t => t.snapshot.name := by
  have named := congrArg (List.map fun e => e.1.name) (modifyTable_snapshot apart stored)
  rw [List.map_map, List.map_map, List.map_map] at named
  refine Eq.trans named (List.map_congr_left fun t _ => ?_)
  show (if s.name = t.snapshot.name then (s, t.counters) else kept t).1.name = t.snapshot.name
  split
  next same => exact same
  next => rfl

omit [LinearOrder J] in
theorem modifyTable_tidy {tables : Tables D J} {s : TableSchemaSnapshot (StoredValue D J)}
    {touched : List (TableSchemaSnapshot (StoredValue D J))} (tidy : Pass.Tidy engine ⟨tables, s :: touched⟩) :
    Pass.Tidy engine ⟨engine.modifyTable tables s.name fun t => { t with snapshot := s }, touched⟩ := by
  obtain ⟨apart, distinct, stored⟩ := tidy
  have names := modifyTable_names apart (stored s List.mem_cons_self)
  refine ⟨apart.of_names names, (List.nodup_cons.mp distinct).2, fun x waits => ?_⟩
  obtain ⟨t, listed, named⟩ := stored x (List.mem_cons_of_mem _ waits)
  obtain ⟨t', listed', same⟩ := mem_of_names names listed
  exact ⟨t', listed', same.trans named⟩

omit [LinearOrder J] in
/-- The end of a pass stores its view. -/
theorem commitSnapshots_view (tidy : pass.Tidy engine) : (engine.commitSnapshots pass).map kept = pass.view := by
  obtain ⟨tables, touched⟩ := pass
  induction touched generalizing tables with
  | nil =>
      unfold Pass.view
      exact (List.map_id _).symm
  | cons s touched ih =>
      have written := modifyTable_snapshot tidy.apart (tidy.stored s List.mem_cons_self)
      have once : s.name ∉ touched.map TableSchemaSnapshot.name := (List.nodup_cons.mp tidy.distinct).1
      refine (ih _ (modifyTable_tidy tidy)).trans ?_
      unfold Pass.view
      dsimp only
      rw [written, List.map_map]
      refine List.map_congr_left fun e _ => ?_
      show ((findByName touched (if s.name = e.1.name then (s, e.2) else e).1.name).getD
        (if s.name = e.1.name then (s, e.2) else e).1, (if s.name = e.1.name then (s, e.2) else e).2) =
        ((findByName (s :: touched) e.1.name).getD e.1, e.2)
      rw [findByName_cons]
      by_cases same : s.name = e.1.name
      · rw [if_pos same, if_pos same, findByName_eq_none.mpr once]
        rfl
      · rw [if_neg same, if_neg same]

end Steps

/-! ## Plans that `diff` makes -/

section Diff
variable {schema : CompiledSchema D J} {stored compiled : List (TableSchemaSnapshot (StoredValue D J))}

/-- All operations are on one table. -/
def OnTable (table : String) (ops : List (MigrationOp (StoredValue D J))) : Prop :=
  ∀ op ∈ ops, op.target = some table

theorem OnTable.append {table : String} {ops later : List (MigrationOp (StoredValue D J))} (first : OnTable table ops)
    (second : OnTable table later) : OnTable table (ops ++ later) := by
  intro op member
  rcases List.mem_append.mp member with here | there
  · exact first op here
  · exact second op there

theorem OnTable.cons {table : String} {op : MigrationOp (StoredValue D J)} {ops : List (MigrationOp (StoredValue D J))}
    (own : op.target = some table) (later : OnTable table ops) : OnTable table (op :: ops) :=
  List.forall_mem_cons.mpr ⟨own, later⟩

theorem diffColumnPair_onTable (table : String) (old new : ColumnSnapshot (StoredValue D J)) :
    OnTable table (diffColumnPair table old new) := by
  unfold diffColumnPair
  refine OnTable.append ?_ ?_
  · split
    · split <;> exact OnTable.cons rfl fun _ member => absurd member List.not_mem_nil
    · exact fun _ member => absurd member List.not_mem_nil
  · split
    · exact fun _ member => absurd member List.not_mem_nil
    · exact OnTable.cons rfl fun _ member => absurd member List.not_mem_nil

theorem diffCompiledColumns_onTable {table : String} {old columns : List (ColumnSnapshot (StoredValue D J))}
    {consumed : List String} {result : List (MigrationOp (StoredValue D J)) × List String}
    (run : diffCompiledColumns schema table old columns consumed = .ok result) : OnTable table result.1 := by
  induction columns generalizing consumed result with
  | nil =>
      cases run
      exact fun _ member => absurd member List.not_mem_nil
  | cons col cols ih =>
      rw [diffCompiledColumns] at run
      split at run
      next source _ =>
        obtain ⟨later, rest, run⟩ := bind_eq_ok.mp run
        cases run
        exact (diffColumnPair_onTable table source col).append (ih rest)
      next =>
        split at run
        next source _ =>
          obtain ⟨later, rest, run⟩ := bind_eq_ok.mp run
          cases run
          exact OnTable.cons rfl ((diffColumnPair_onTable table source col).append (ih rest))
        next =>
          split at run
          next => cases run
          next =>
            obtain ⟨later, rest, run⟩ := bind_eq_ok.mp run
            cases run
            exact OnTable.cons rfl (ih rest)

theorem diffTable_onTable {old new : TableSchemaSnapshot (StoredValue D J)} {ops : List (MigrationOp (StoredValue D J))}
    (run : diffTable schema old new = .ok ops) : OnTable new.name ops := by
  obtain ⟨columns, run, rest⟩ := bind_eq_ok.mp run
  obtain ⟨result, looped, run⟩ := bind_eq_ok.mp run
  cases run
  cases rest
  refine OnTable.append (OnTable.append (diffCompiledColumns_onTable looped) ?_) (OnTable.append ?_ ?_)
  · exact List.forall_mem_map.mpr fun _ _ => rfl
  · exact List.forall_mem_map.mpr fun _ _ => rfl
  · exact List.forall_mem_map.mpr fun _ _ => rfl

theorem OnTable.created_eq {table : String} {ops : List (MigrationOp (StoredValue D J))} (on : OnTable table ops) :
    created ops = [] :=
  List.filterMap_eq_nil_iff.mpr fun op member => MigrationOp.creates_of_target (on op member)

theorem OnTable.dropped_eq {table : String} {ops : List (MigrationOp (StoredValue D J))} (on : OnTable table ops) :
    dropped ops = [] :=
  List.filterMap_eq_nil_iff.mpr fun op member => MigrationOp.drops_of_target (on op member)

/-- The loop of `diff`: it creates the compiled tables that are not stored, drops none,
and edits compiled ones. -/
theorem diffCompiled_flatten {perTable : List (List (MigrationOp (StoredValue D J)))}
    (run : compiled.mapM (diffCompiled schema stored) = .ok perTable) :
    created perTable.flatten = (compiled.filter fun c => (findByName stored c.name).isNone).map TableSchemaSnapshot.name ∧
      dropped perTable.flatten = [] ∧ targets perTable.flatten ⊆ compiled.map TableSchemaSnapshot.name := by
  induction compiled generalizing perTable with
  | nil =>
      cases run
      exact ⟨rfl, rfl, List.Subset.refl _⟩
  | cons c compiled ih =>
      rw [List.mapM_cons] at run
      obtain ⟨ops, first, run⟩ := bind_eq_ok.mp run
      obtain ⟨later, rest, run⟩ := bind_eq_ok.mp run
      cases run
      obtain ⟨creates, drops, edits⟩ := ih rest
      have subset : targets later.flatten ⊆ (c :: compiled).map TableSchemaSnapshot.name :=
        fun name member => List.mem_cons_of_mem _ (edits member)
      rw [List.flatten_cons, created_append, dropped_append, targets_append, creates, drops]
      unfold diffCompiled at first
      split at first
      next absent =>
        cases first
        rw [List.filter_cons_of_pos (by rw [absent]; rfl)]
        exact ⟨rfl, rfl, subset⟩
      next source found =>
        have on := diffTable_onTable first
        rw [List.filter_cons_of_neg (by rw [found]; exact Bool.false_ne_true)]
        refine ⟨?_, ?_, List.append_subset.mpr ⟨fun name member => ?_, subset⟩⟩
        · exact (congrArg (· ++ _) on.created_eq).trans (List.nil_append _)
        · exact (congrArg (· ++ _) on.dropped_eq).trans (List.nil_append _)
        · obtain ⟨op, inside, own⟩ := List.mem_filterMap.mp member
          rw [on op inside] at own
          cases own
          exact List.mem_cons_self

/-- What `diff` makes of the stored tables is sensible. -/
theorem pendingMigrations_sensible {tables : Tables D J} (apart : engine.Apart tables)
    {ops : List (MigrationOp (StoredValue D J))} (run : pendingMigrations schema tables = .ok ops) :
    Sensible ⟨tables, []⟩ ops := by
  obtain ⟨perTable, looped, run⟩ := bind_eq_ok.mp run
  cases run
  obtain ⟨creates, drops, edits⟩ := diffCompiled_flatten looped
  have compiledNames : (schema.snapshots.map TableSchemaSnapshot.name).Nodup := by
    rw [CompiledSchema.snapshots, List.map_map]
    exact schema.names
  constructor
  · rw [created_append, creates, created_drops, List.append_nil]
    exact compiledNames.sublist (List.filter_sublist.map _)
  · intro name member t listed named
    rw [created_append, creates, created_drops, List.append_nil] at member
    obtain ⟨c, inside, rfl⟩ := List.mem_map.mp member
    have absent := findByName_eq_none.mp (Option.isNone_iff_eq_none.mp (List.mem_filter.mp inside).2)
    exact absent (List.mem_map.mpr ⟨t.snapshot, List.mem_map_of_mem listed, named⟩)
  · rw [dropped_append, drops, dropped_drops, List.nil_append]
    exact apart.names.sublist (List.filter_sublist.map _)
  · intro name member
    rw [dropped_append, drops, dropped_drops, List.nil_append] at member
    obtain ⟨gone, inside, rfl⟩ := List.mem_map.mp member
    obtain ⟨t, listed, rfl⟩ := List.mem_map.mp (List.mem_of_mem_filter inside)
    exact ⟨t, listed, rfl⟩
  · intro name member
    refine ⟨fun _ waits => absurd waits List.not_mem_nil, fun targeted => ?_⟩
    rw [dropped_append, drops, dropped_drops, List.nil_append] at member
    rw [targets_append, targets_drops, List.append_nil] at targeted
    obtain ⟨gone, inside, rfl⟩ := List.mem_map.mp member
    exact findByName_eq_none.mp (Option.isNone_iff_eq_none.mp (List.mem_filter.mp inside).2) (edits targeted)

/-- Where the operations of a plan come from: a compiled table that is not stored is
created, a stored one edited, and one that is no longer compiled dropped. -/
theorem mem_pendingMigrations {tables : Tables D J} {ops : List (MigrationOp (StoredValue D J))}
    (run : pendingMigrations schema tables = .ok ops) {op : MigrationOp (StoredValue D J)} (member : op ∈ ops) :
    (∃ table ∈ schema.tables, op = .createTable table.name table.schemaSnapshot ∧
        ∀ t ∈ tables, t.snapshot.name ≠ table.name) ∨
      (∃ t ∈ tables, op.target = some t.snapshot.name) ∨ ∃ t ∈ tables, op = .dropTable t.snapshot.name := by
  obtain ⟨perTable, looped, run⟩ := bind_eq_ok.mp run
  cases run
  rcases List.mem_append.mp member with member | member
  · obtain ⟨own, turn, inside⟩ := List.mem_flatten.mp member
    obtain ⟨c, compiled, made⟩ := (mem_mapM looped).mp turn
    obtain ⟨table, listed, rfl⟩ := List.mem_map.mp compiled
    unfold diffCompiled at made
    split at made
    next absent =>
      cases made
      refine .inl ⟨table, listed, List.mem_singleton.mp inside, fun t stored named => ?_⟩
      exact findByName_eq_none.mp absent (List.mem_map.mpr ⟨_, List.mem_map_of_mem stored, named⟩)
    next source found =>
      obtain ⟨t, stored, rfl⟩ := List.mem_map.mp (mem_of_findByName found)
      refine .inr (.inl ⟨t, stored, ?_⟩)
      rw [diffTable_onTable made op inside, name_of_findByName found]
  · obtain ⟨gone, inside, rfl⟩ := List.mem_map.mp member
    obtain ⟨t, stored, rfl⟩ := List.mem_map.mp (List.mem_of_mem_filter inside)
    exact .inr (.inr ⟨t, stored, rfl⟩)

/-- The order of a plan does not matter for it to be sensible. -/
theorem Sensible.perm {pass : Pass D J} {ops others : List (MigrationOp (StoredValue D J))} (sensible : Sensible pass ops)
    (same : others.Perm ops) : Sensible pass others where
  createdOnce := (same.filterMap _).nodup_iff.mpr sensible.createdOnce
  fresh name member := sensible.fresh name ((same.filterMap _).mem_iff.mp member)
  droppedOnce := (same.filterMap _).nodup_iff.mpr sensible.droppedOnce
  old name member := sensible.old name ((same.filterMap _).mem_iff.mp member)
  idle name member :=
    have idle := sensible.idle name ((same.filterMap _).mem_iff.mp member)
    ⟨idle.1, fun targeted => idle.2 ((same.filterMap _).mem_iff.mp targeted)⟩

variable [LinearOrder J]

/-- What a migration stores of its tables is its plan, applied to what was stored. -/
theorem migrate_kept {tables tables' : Tables D J} {allowDestructive : Bool} (apart : engine.Apart tables)
    (run : engine.migrate schema tables allowDestructive = .ok tables') :
    ∃ ops, pendingMigrations schema tables = .ok ops ∧ engine.Apart tables' ∧
      tables'.map kept = (orderOps ops).foldl engine.viewOp (tables.map kept) ∧
      ∀ name s, .createTable name s ∈ ops → engine.validateCounterTypes s.columns = .ok () := by
  obtain ⟨ops, planned, run⟩ := bind_eq_ok.mp run
  obtain ⟨_, _, run⟩ := bind_eq_ok.mp run
  obtain ⟨pass, applied, run⟩ := map_eq_ok.mp run
  have sensible : Sensible ⟨tables, []⟩ (orderOps ops) :=
    (pendingMigrations_sensible apart planned).perm (List.mergeSort_perm ops _)
  have tidy : Pass.Tidy engine ⟨tables, []⟩ := ⟨apart, List.nodup_nil, fun _ waits => absurd waits List.not_mem_nil⟩
  obtain ⟨tidy', seen, typed⟩ := foldlM_applyOp_view tidy sensible applied
  have committed := commitSnapshots_view tidy'
  have start : Pass.view ⟨tables, []⟩ = tables.map kept := List.map_id _
  rw [start] at seen
  subst run
  refine ⟨ops, planned, tidy'.apart.of_names ?_, committed.trans seen, fun name s member => ?_⟩
  · have names := congrArg (List.map fun e => e.1.name) committed
    rw [pass.view_names, List.map_map] at names
    exact names
  · exact typed name s (mem_orderOps.mpr member)

end Diff
end MigrationEngine
end WasmDbms
