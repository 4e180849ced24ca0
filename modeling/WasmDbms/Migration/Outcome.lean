import WasmDbms.Migration.Pass
import WasmDbms.Migration.TablePlan

/-!
# What a migration stores

The snapshots after a migration are those before it, without the dropped ones, each
edited by the part of the plan that is for its table, and those of the created tables.
-/
namespace WasmDbms
open Result

namespace MigrationEngine
variable {D J : Type}

/-! ## Snapshots and plans -/

/-- What an operation does to the stored snapshots. -/
def snapshotOp (snapshots : List (TableSchemaSnapshot (StoredValue D J))) (op : MigrationOp (StoredValue D J)) :
    List (TableSchemaSnapshot (StoredValue D J)) :=
  match op with
  | .createTable _ s => snapshots ++ [s]
  | .dropTable name => snapshots.filter fun s => s.name != name
  | op => snapshots.map fun s => if op.target = some s.name then op.edit s else s

/-- What a plan makes of a snapshot. -/
def editAll (ops : List (MigrationOp (StoredValue D J))) (s : TableSchemaSnapshot (StoredValue D J)) :
    TableSchemaSnapshot (StoredValue D J) :=
  ops.foldl (fun s op => if op.target = some s.name then op.edit s else s) s

/-- The snapshot of the table an operation creates. -/
def createdSnapshot : MigrationOp (StoredValue D J) → Option (TableSchemaSnapshot (StoredValue D J))
  | .createTable _ s => some s
  | _ => none

section Plans
variable {ops : List (MigrationOp (StoredValue D J))} {s : TableSchemaSnapshot (StoredValue D J)}

@[simp] theorem editAll_name : (editAll ops s).name = s.name := by
  induction ops generalizing s with
  | nil => rfl
  | cons op ops ih =>
      rw [editAll, List.foldl_cons]
      refine ih.trans ?_
      split
      · exact MigrationOp.edit_name s op
      · rfl

/-- A plan edits a snapshot by the operations for its table. -/
theorem editAll_eq_foldl : editAll ops s = (ops.filter fun op => op.target = some s.name).foldl MigrationOp.edit s := by
  induction ops generalizing s with
  | nil => rfl
  | cons op ops ih =>
      rw [editAll, List.foldl_cons]
      by_cases own : op.target = some s.name
      · rw [if_pos own, List.filter_cons, if_pos (decide_eq_true own), List.foldl_cons]
        refine ih.trans ?_
        rw [MigrationOp.edit_name]
      · rw [if_neg own, List.filter_cons, if_neg (by simpa using own)]
        exact ih

theorem editAll_of_untargeted (untargeted : s.name ∉ targets ops) : editAll ops s = s := by
  rw [editAll_eq_foldl, List.filter_eq_nil_iff.mpr, List.foldl_nil]
  intro op member own
  exact untargeted (List.mem_filterMap.mpr ⟨op, member, of_decide_eq_true own⟩)

/-- The operations for a table keep their order. -/
theorem filter_orderOps (p : MigrationOp (StoredValue D J) → Bool) : (orderOps ops).filter p = orderOps (ops.filter p) := by
  rw [orderOps_eq, orderOps_eq, List.filter_flatMap]
  refine List.flatMap_congr fun k _ => ?_
  rw [rankOps, rankOps, List.filter_filter, List.filter_filter]
  exact List.filter_congr fun op _ => Bool.and_comm _ _

theorem snapshotOp_of_target {op : MigrationOp (StoredValue D J)} {table : String} (target : op.target = some table)
    (snapshots : List (TableSchemaSnapshot (StoredValue D J))) :
    snapshotOp snapshots op = snapshots.map fun s => if op.target = some s.name then op.edit s else s := by
  cases op with
  | createTable => cases target
  | dropTable => cases target
  | _ => rfl

/-- A plan that drops and edits none of the tables it creates. -/
theorem foldl_snapshotOp (apart : ∀ name c, .createTable name c ∈ ops → c.name ∉ targets ops ∧ c.name ∉ dropped ops)
    (snapshots : List (TableSchemaSnapshot (StoredValue D J))) :
    ops.foldl snapshotOp snapshots =
      (snapshots.filter fun s => s.name ∉ dropped ops).map (editAll ops) ++ ops.filterMap createdSnapshot := by
  induction ops generalizing snapshots with
  | nil =>
      rw [List.filter_eq_self.mpr fun s _ => decide_eq_true (List.not_mem_nil (a := s.name))]
      exact ((List.append_nil _).trans (List.map_id _)).symm
  | cons op ops ih =>
      have apart' : ∀ name c, .createTable name c ∈ ops → c.name ∉ targets ops ∧ c.name ∉ dropped ops := by
        intro name c member
        obtain ⟨untargeted, kept⟩ := apart name c (List.mem_cons_of_mem _ member)
        have sub := List.sublist_cons_self op ops
        exact ⟨fun inside => untargeted ((sub.filterMap _).subset inside), fun inside => kept ((sub.filterMap _).subset inside)⟩
      rw [List.foldl_cons, ih apart']
      cases target : op.target with
      | some table =>
          have edited := snapshotOp_of_target target snapshots
          have names : dropped (op :: ops) = dropped ops := List.filterMap_cons_none (MigrationOp.drops_of_target target)
          have uncreated : (op :: ops).filterMap createdSnapshot = ops.filterMap createdSnapshot := by
            refine List.filterMap_cons_none ?_
            cases op with
            | createTable => cases target
            | _ => rfl
          rw [edited, names, uncreated, List.filter_map, List.map_map]
          refine congrArg (· ++ _) (congrArg₂ _ rfl (List.filter_congr fun s _ => ?_))
          rw [Function.comp_apply]
          split
          · rw [MigrationOp.edit_name]
          · rfl
      | none =>
          cases op with
          | createTable name c =>
              obtain ⟨untargeted, kept⟩ := apart name c List.mem_cons_self
              have untargeted : c.name ∉ targets ops := untargeted
              have kept : c.name ∉ dropped ops := kept
              show (List.filter _ (snapshots ++ [c])).map (editAll ops) ++ _ = (List.filter _ snapshots).map (editAll ops) ++
                c :: ops.filterMap createdSnapshot
              rw [List.filter_append, List.map_append, List.append_assoc]
              refine congrArg (List.map (editAll ops) (List.filter _ snapshots) ++ ·) ?_
              rw [List.filter_cons, if_pos (decide_eq_true kept), List.filter_nil, List.map_singleton,
                editAll_of_untargeted untargeted]
              rfl
          | dropTable name =>
              show (List.filter _ (snapshots.filter _)).map (editAll ops) ++ _ = (List.filter _ snapshots).map (editAll ops) ++ _
              rw [List.filter_filter]
              refine congrArg (· ++ _) (congrArg _ (List.filter_congr fun s _ => ?_))
              have names : dropped (MigrationOp.dropTable name :: ops) = name :: dropped ops := rfl
              rw [names, Bool.eq_iff_iff, Bool.and_eq_true, decide_eq_true_iff, decide_eq_true_iff, bne_iff_ne, List.mem_cons,
                not_or, and_comm]
          | _ => cases target

end Plans

/-! ## The plan of a migration -/

section Pending
variable {schema : CompiledSchema D J} {stored : List (TableSchemaSnapshot (StoredValue D J))}

theorem filter_onTable {table name : String} {ops : List (MigrationOp (StoredValue D J))} (on : OnTable table ops) :
    (ops.filter fun op => op.target = some name) = if table = name then ops else [] := by
  split
  next same => exact List.filter_eq_self.mpr fun op member => decide_eq_true ((on op member).trans (congrArg some same))
  next other =>
    refine List.filter_eq_nil_iff.mpr fun op member own => other ?_
    exact Option.some.inj ((on op member).symm.trans (of_decide_eq_true own))

/-- The operations for a table that is stored and compiled are those of its own turn. -/
theorem filter_flatten {compiled : List (TableSchemaSnapshot (StoredValue D J))}
    {perTable : List (List (MigrationOp (StoredValue D J)))} (run : compiled.mapM (diffCompiled schema stored) = .ok perTable)
    (distinct : (compiled.map TableSchemaSnapshot.name).Nodup) {c s : TableSchemaSnapshot (StoredValue D J)}
    (listed : c ∈ compiled) (found : findByName stored c.name = some s) :
    (perTable.flatten.filter fun op => op.target = some c.name) =
      tableOps c.name (tableSources schema s c) s.columns s.indexes c.indexes := by
  induction compiled generalizing perTable with
  | nil => cases listed
  | cons first compiled ih =>
      rw [List.mapM_cons] at run
      obtain ⟨ops, turn, run⟩ := bind_eq_ok.mp run
      obtain ⟨later, rest, run⟩ := bind_eq_ok.mp run
      cases run
      obtain ⟨other, distinct⟩ := List.nodup_cons.mp distinct
      rw [List.flatten_cons, List.filter_append]
      rcases List.mem_cons.mp listed with rfl | listed
      · have none_ : (later.flatten.filter fun op => op.target = some c.name) = [] := by
          refine List.filter_eq_nil_iff.mpr fun op member own => other ?_
          have edits := (diffCompiled_flatten rest).2.2
          exact edits (List.mem_filterMap.mpr ⟨op, member, of_decide_eq_true own⟩)
        rw [none_, List.append_nil]
        rw [diffCompiled, found] at turn
        have on := diffTable_onTable turn
        rw [filter_onTable on, if_pos rfl]
        exact diffTable_ok turn
      · rw [ih rest distinct listed]
        have apart : first.name ≠ c.name := fun same => other (same ▸ List.mem_map_of_mem listed)
        unfold diffCompiled at turn
        split at turn
        next =>
          cases turn
          rfl
        next source _ => rw [filter_onTable (diffTable_onTable turn), if_neg apart, List.nil_append]

/-- A compiled table that is not stored is created. -/
theorem createTable_mem {compiled : List (TableSchemaSnapshot (StoredValue D J))}
    {perTable : List (List (MigrationOp (StoredValue D J)))} (run : compiled.mapM (diffCompiled schema stored) = .ok perTable)
    {c : TableSchemaSnapshot (StoredValue D J)} (listed : c ∈ compiled) (absent : findByName stored c.name = none) :
    .createTable c.name c ∈ perTable.flatten := by
  induction compiled generalizing perTable with
  | nil => cases listed
  | cons first compiled ih =>
      rw [List.mapM_cons] at run
      obtain ⟨ops, turn, run⟩ := bind_eq_ok.mp run
      obtain ⟨later, rest, run⟩ := bind_eq_ok.mp run
      cases run
      rw [List.flatten_cons]
      rcases List.mem_cons.mp listed with rfl | listed
      · rw [diffCompiled, absent] at turn
        cases turn
        exact List.mem_append_left _ List.mem_cons_self
      · exact List.mem_append_right _ (ih rest listed)

variable {tables : Tables D J} {ops : List (MigrationOp (StoredValue D J))}

theorem snapshots_names : (schema.snapshots.map TableSchemaSnapshot.name).Nodup := by
  rw [CompiledSchema.snapshots, List.map_map]
  exact schema.names

/-- What the plan of a migration makes of a stored table that is compiled. -/
theorem editAll_pending {engine : MigrationEngine D J} (apart : engine.Apart tables)
    (run : pendingMigrations schema tables = .ok ops) {c s : TableSchemaSnapshot (StoredValue D J)}
    (compiled : c ∈ schema.snapshots) (stored : s ∈ tables.map StoredTable.snapshot) (named : s.name = c.name) :
    editAll (orderOps ops) s =
      (orderOps (tableOps c.name (tableSources schema s c) s.columns s.indexes c.indexes)).foldl MigrationOp.edit s := by
  obtain ⟨perTable, looped, run⟩ := bind_eq_ok.mp run
  cases run
  have found := findByName_of_mem apart.names stored named
  have undropped : ∀ gone : List (TableSchemaSnapshot (StoredValue D J)),
      ((gone.map fun s => MigrationOp.dropTable (V := StoredValue D J) s.name).filter fun op => op.target = some c.name) = [] :=
    fun gone => List.filter_eq_nil_iff.mpr (List.forall_mem_map.mpr fun _ _ own => nomatch of_decide_eq_true own)
  rw [editAll_eq_foldl, filter_orderOps, List.filter_append, named, filter_flatten looped snapshots_names compiled found,
    undropped, List.append_nil]

/-- The created tables are the compiled ones that are not stored. -/
theorem createTable_pending (run : pendingMigrations schema tables = .ok ops) {c : TableSchemaSnapshot (StoredValue D J)}
    (compiled : c ∈ schema.snapshots) (absent : ∀ t ∈ tables, t.snapshot.name ≠ c.name) : .createTable c.name c ∈ ops := by
  obtain ⟨perTable, looped, run⟩ := bind_eq_ok.mp run
  cases run
  refine List.mem_append_left _ (createTable_mem looped compiled (findByName_eq_none.mpr fun member => ?_))
  rw [List.map_map] at member
  obtain ⟨t, listed, named⟩ := List.mem_map.mp member
  exact absent t listed named

/-- The dropped tables are the stored ones that are not compiled. -/
theorem mem_dropped_pending (run : pendingMigrations schema tables = .ok ops) {s : TableSchemaSnapshot (StoredValue D J)}
    (stored : s ∈ tables.map StoredTable.snapshot) :
    s.name ∈ dropped ops ↔ s.name ∉ schema.snapshots.map TableSchemaSnapshot.name := by
  obtain ⟨perTable, looped, run⟩ := bind_eq_ok.mp run
  cases run
  rw [dropped_append, (diffCompiled_flatten looped).2.1, dropped_drops, List.nil_append, List.mem_map]
  constructor
  · rintro ⟨gone, inside, same⟩
    rw [← same]
    exact findByName_eq_none.mp (Option.isNone_iff_eq_none.mp (List.mem_filter.mp inside).2)
  · intro absent
    exact ⟨s, List.mem_filter.mpr ⟨stored, Option.isNone_iff_eq_none.mpr (findByName_eq_none.mpr absent)⟩, rfl⟩

end Pending

/-! ## The pass -/

section Steps
variable {engine : MigrationEngine D J} {schema : CompiledSchema D J} [LinearOrder J] {pass pass' : Pass D J}
  {op : MigrationOp (StoredValue D J)} {ops : List (MigrationOp (StoredValue D J))}

omit [LinearOrder J] in
theorem viewOp_of_target {table : String} (target : op.target = some table) (view : List (Kept D J)) :
    engine.viewOp view op = view.map fun e => if op.target = some e.1.name then (op.edit e.1, e.2) else e := by
  cases op with
  | createTable => cases target
  | dropTable => cases target
  | _ => rfl

/-- The operation of a plan that is next does to the snapshots what it says. -/
theorem applyOp_snapshots (tidy : pass.Tidy engine) (sensible : Sensible pass (op :: ops))
    (run : engine.applyOp schema pass op = .ok pass') :
    pass'.Tidy engine ∧ Sensible pass' ops ∧ pass'.view.map Prod.fst = snapshotOp (pass.view.map Prod.fst) op := by
  obtain ⟨tidy', sensible', seen, _⟩ := applyOp_view tidy sensible run
  refine ⟨tidy', sensible', ?_⟩
  rw [seen]
  cases target : op.target with
  | some table =>
      rw [snapshotOp_of_target target, viewOp_of_target target, List.map_map, List.map_map]
      refine List.map_congr_left fun e _ => ?_
      rw [Function.comp_apply, Function.comp_apply]
      split <;> rfl
  | none =>
      cases op with
      | createTable name s =>
          rw [viewOp, List.map_append]
          rfl
      | dropTable name =>
          rw [viewOp, snapshotOp, List.filter_map]
          refine congrArg _ (List.filter_congr fun e inside => ?_)
          obtain ⟨t, listed, named⟩ : ∃ t ∈ pass.tables, t.snapshot.name = e.1.name := by
            have member : e.1.name ∈ pass.view.map fun e => e.1.name := List.mem_map_of_mem inside
            rw [Pass.view_names] at member
            exact List.mem_map.mp member
          obtain ⟨own, there, rfl⟩ := sensible.old name List.mem_cons_self
          rw [Function.comp_apply, Bool.eq_iff_iff, bne_iff_ne, bne_iff_ne]
          refine not_congr ⟨fun same => ?_, fun same => congrArg _ same⟩
          rw [← named, tidy.apart.eq listed there (named ▸ same)]
      | _ => cases target

theorem foldlM_applyOp_snapshots (tidy : pass.Tidy engine) (sensible : Sensible pass ops)
    (run : ops.foldlM (engine.applyOp schema) pass = .ok pass') :
    pass'.view.map Prod.fst = ops.foldl snapshotOp (pass.view.map Prod.fst) := by
  induction ops generalizing pass with
  | nil =>
      cases run
      rfl
  | cons op ops ih =>
      rw [List.foldlM_cons] at run
      obtain ⟨next, step, run⟩ := bind_eq_ok.mp run
      obtain ⟨tidy', sensible', seen⟩ := applyOp_snapshots tidy sensible step
      rw [ih tidy' sensible' run, seen, List.foldl_cons]

/-- What a migration stores. -/
theorem migrate_snapshots {tables tables' : Tables D J} {allowDestructive : Bool} (apart : engine.Apart tables)
    (run : engine.migrate schema tables allowDestructive = .ok tables') :
    ∃ ops, pendingMigrations schema tables = .ok ops ∧ engine.Apart tables' ∧
      tables'.map StoredTable.snapshot =
        ((tables.map StoredTable.snapshot).filter fun s => s.name ∉ dropped (orderOps ops)).map (editAll (orderOps ops)) ++
          (orderOps ops).filterMap createdSnapshot := by
  obtain ⟨_, _, apart', _⟩ := migrate_kept apart run
  obtain ⟨ops, planned, run⟩ := bind_eq_ok.mp run
  obtain ⟨_, _, run⟩ := bind_eq_ok.mp run
  obtain ⟨pass, applied, rfl⟩ := map_eq_ok.mp run
  have sensible : Sensible ⟨tables, []⟩ (orderOps ops) :=
    (pendingMigrations_sensible apart planned).perm (List.mergeSort_perm ops _)
  have tidy : Pass.Tidy engine ⟨tables, []⟩ := ⟨apart, List.nodup_nil, fun _ waits => absurd waits List.not_mem_nil⟩
  have committed := commitSnapshots_view (foldlM_applyOp_view tidy sensible applied).1
  refine ⟨ops, planned, apart', ?_⟩
  have seen := foldlM_applyOp_snapshots tidy sensible applied
  rw [← committed, List.map_map] at seen
  have start : (Pass.view ⟨tables, []⟩).map Prod.fst = tables.map StoredTable.snapshot := by
    rw [Pass.view, List.map_map, List.map_map]
    rfl
  rw [start, foldl_snapshotOp] at seen
  · exact seen
  · intro name c member
    have member := mem_orderOps.mp member
    have created : c.name ∈ created (orderOps ops) := List.mem_filterMap.mpr ⟨_, mem_orderOps.mpr member, rfl⟩
    have fresh := sensible.fresh c.name created
    refine ⟨fun targeted => ?_, fun gone => ?_⟩
    · obtain ⟨op, inside, target⟩ := List.mem_filterMap.mp targeted
      rcases mem_pendingMigrations planned (mem_orderOps.mp inside) with ⟨_, _, rfl, _⟩ | ⟨t, there, own⟩ | ⟨t, _, rfl⟩
      · cases target
      · rw [own] at target
        exact fresh t there (Option.some.inj target)
      · cases target
    · obtain ⟨t, there, named⟩ := sensible.old c.name gone
      exact fresh t there named

end Steps
end MigrationEngine
end WasmDbms
