import Mathlib.Data.List.Pairwise
import WasmDbms.Lib.Result
import WasmDbms.Migration.Diff

/-!
# The matching of columns

Which stored column becomes which compiled one. A column is matched by its name, or
renamed from a name in its history, or added; stored columns that are left are dropped.
-/
namespace WasmDbms
open Result

/-! ## The effect of a plan on the names of the columns -/

namespace MigrationOp
variable {V : Type}

/-- The name of a column an operation takes away by a renaming. -/
def takes : MigrationOp V → Option String
  | renameColumn _ old _ => some old
  | _ => none

/-- The name of a column an operation gives to the table. -/
def makes : MigrationOp V → Option String
  | renameColumn _ _ new => some new
  | addColumn _ column => some column.name
  | _ => none

/-- The name of a column an operation adds. -/
def adds : MigrationOp V → Option String
  | addColumn _ column => some column.name
  | _ => none

/-- The name of a column an operation drops. -/
def discards : MigrationOp V → Option String
  | dropColumn _ column => some column
  | _ => none

/-- The stored and the new name of a column an operation renames. -/
def renames : MigrationOp V → Option (String × String)
  | renameColumn _ old new => some (old, new)
  | _ => none

end MigrationOp

section Names
variable {V : Type}

/-- The names of the columns of a snapshot. -/
def columnNames (s : TableSchemaSnapshot V) : List String := s.columns.map ColumnSnapshot.name

theorem editColumn_names {column : String} {f : ColumnSnapshot V → ColumnSnapshot V} (same : ∀ c, (f c).name = c.name)
    (columns : List (ColumnSnapshot V)) :
    (editColumn column f columns).map ColumnSnapshot.name = columns.map ColumnSnapshot.name := by
  induction columns with
  | nil => rfl
  | cons c cs ih =>
      rw [editColumn]
      split
      · rw [List.map_cons, List.map_cons, same]
      · rw [List.map_cons, List.map_cons, ih]

theorem withColumn_names {s : TableSchemaSnapshot V} {column : String} {f : ColumnSnapshot V → ColumnSnapshot V}
    (same : ∀ c, (f c).name = c.name) : columnNames (withColumn s column f) = columnNames s :=
  editColumn_names same s.columns

/-- A renaming puts the new name in the place of the old one. -/
theorem rename_names {old new : String} {columns : List (ColumnSnapshot V)}
    (distinct : (columns.map ColumnSnapshot.name).Nodup) (here : old ∈ columns.map ColumnSnapshot.name) :
    ((editColumn old (fun c => { c with name := new }) columns).map ColumnSnapshot.name).Perm
      (new :: (columns.map ColumnSnapshot.name).filter fun name => name != old) := by
  induction columns with
  | nil => cases here
  | cons c cs ih =>
      rw [List.map_cons, List.nodup_cons] at distinct
      rw [editColumn]
      by_cases same : c.name = old
      · rw [if_pos (beq_iff_eq.mpr same), List.map_cons, List.map_cons, List.filter_cons_of_neg (by simp [same])]
        have others : (cs.map ColumnSnapshot.name).filter (fun name => name != old) = cs.map ColumnSnapshot.name := by
          refine List.filter_eq_self.mpr fun name listed => ?_
          rw [bne_iff_ne]
          rintro rfl
          exact distinct.1 (same ▸ listed)
        rw [others]
      · have later : old ∈ cs.map ColumnSnapshot.name := by
          rcases List.mem_cons.mp here with first | later
          · exact absurd first.symm same
          · exact later
        rw [if_neg (by simpa using same), List.map_cons, List.map_cons, List.filter_cons_of_pos (by simpa using same)]
        exact ((ih distinct.2 later).cons _).trans (.swap _ _ _)

theorem orderOps_perm (ops : List (MigrationOp V)) : (orderOps ops).Perm ops := List.mergeSort_perm ops _

/-- A plan that can be carried out on these names: what it renames or drops is there and
what it makes is not, and no two operations are about one name. -/
structure Feasible (names : List String) (ops : List (MigrationOp V)) : Prop where
  distinct : names.Nodup
  takes : (ops.filterMap MigrationOp.takes).Nodup
  makes : (ops.filterMap MigrationOp.makes).Nodup
  here : ∀ name ∈ ops.filterMap MigrationOp.takes, name ∈ names ∧ name ∉ ops.filterMap MigrationOp.discards
  new : ∀ name ∈ ops.filterMap MigrationOp.makes, name ∉ names ∧ name ∉ ops.filterMap MigrationOp.discards

theorem Feasible.perm {names : List String} {ops others : List (MigrationOp V)} (feasible : Feasible names ops)
    (same : others.Perm ops) : Feasible names others where
  distinct := feasible.distinct
  takes := (same.filterMap _).nodup_iff.mpr feasible.takes
  makes := (same.filterMap _).nodup_iff.mpr feasible.makes
  here name member := by
    rw [(same.filterMap MigrationOp.discards).mem_iff]
    exact feasible.here name ((same.filterMap _).mem_iff.mp member)
  new name member := by
    rw [(same.filterMap MigrationOp.discards).mem_iff]
    exact feasible.new name ((same.filterMap _).mem_iff.mp member)

/-- The names an operation leaves: without the one it takes or drops, with the one it makes. -/
def AfterOp (names : List String) (op : MigrationOp V) (names' : List String) : Prop :=
  names'.Nodup ∧ ∀ name, name ∈ names' ↔
    name ∈ names ∧ op.takes ≠ some name ∧ op.discards ≠ some name ∨ op.makes = some name

/-- What an operation of a feasible plan does to the names. -/
theorem Feasible.edit {s : TableSchemaSnapshot V} {op : MigrationOp V} {ops : List (MigrationOp V)}
    (feasible : Feasible (columnNames s) (op :: ops)) : AfterOp (columnNames s) op (columnNames (op.edit s)) := by
  have quiet : ∀ {s' : TableSchemaSnapshot V}, columnNames s' = columnNames s → op.takes = none →
      op.makes = none → op.discards = none → AfterOp (columnNames s) op (columnNames s') := by
    intro s' same takes makes discards
    rw [AfterOp, takes, makes, discards, same]
    exact ⟨feasible.distinct, fun name => by simp⟩
  cases op with
  | createTable | dropTable | dropIndex => exact quiet rfl rfl rfl rfl
  | addIndex table index =>
      refine quiet ?_ rfl rfl rfl
      rw [MigrationOp.edit]
      split <;> rfl
  | alterColumn table column changes => exact quiet (withColumn_names fun _ => rfl) rfl rfl rfl
  | widenColumn table column oldType newType => exact quiet (withColumn_names fun _ => rfl) rfl rfl rfl
  | transformColumn table column oldType newType => exact quiet (withColumn_names fun _ => rfl) rfl rfl rfl
  | addColumn table column =>
      have new := (feasible.new column.name List.mem_cons_self).1
      have names : columnNames (MigrationOp.edit s (.addColumn table column)) = columnNames s ++ [column.name] :=
        List.map_append
      rw [names]
      refine ⟨List.nodup_append.mpr ⟨feasible.distinct, List.nodup_singleton _, ?_⟩, fun name => ?_⟩
      · rintro name listed _ last rfl
        exact new (List.mem_singleton.mp last ▸ listed)
      · simp [MigrationOp.takes, MigrationOp.discards, MigrationOp.makes, @eq_comm _ column.name]
  | dropColumn table column =>
      have names : columnNames (MigrationOp.edit s (.dropColumn table column)) =
          (columnNames s).filter fun name => name != column := by
        rw [columnNames, columnNames, List.filter_map]
        rfl
      rw [names]
      refine ⟨feasible.distinct.filter _, fun name => ?_⟩
      simp [MigrationOp.takes, MigrationOp.discards, MigrationOp.makes, @eq_comm _ column]
  | renameColumn table old new =>
      have here := (feasible.here old List.mem_cons_self).1
      have fresh := (feasible.new new List.mem_cons_self).1
      have names : (columnNames (MigrationOp.edit s (.renameColumn table old new))).Perm
          (new :: (columnNames s).filter fun name => name != old) := rename_names feasible.distinct here
      refine ⟨names.nodup_iff.mpr (List.nodup_cons.mpr ⟨?_, feasible.distinct.filter _⟩), fun name => ?_⟩
      · exact fun listed => fresh (List.mem_of_mem_filter listed)
      · rw [names.mem_iff]
        simp [MigrationOp.takes, MigrationOp.discards, MigrationOp.makes, @eq_comm _ old, @eq_comm _ new, or_comm]

theorem mem_filterMap_cons {f : MigrationOp V → Option String} {op : MigrationOp V} {ops : List (MigrationOp V)}
    {name : String} : name ∈ (op :: ops).filterMap f ↔ f op = some name ∨ name ∈ ops.filterMap f := by
  rw [List.mem_filterMap, List.mem_filterMap]
  simp

theorem nodup_filterMap_cons {f : MigrationOp V → Option String} {op : MigrationOp V} {ops : List (MigrationOp V)}
    (distinct : ((op :: ops).filterMap f).Nodup) :
    (∀ name, f op = some name → name ∉ ops.filterMap f) ∧ (ops.filterMap f).Nodup := by
  cases made : f op with
  | none =>
      rw [List.filterMap_cons_none made] at distinct
      exact ⟨fun _ same => (nomatch same), distinct⟩
  | some name =>
      rw [List.filterMap_cons_some made, List.nodup_cons] at distinct
      refine ⟨fun other same => ?_, distinct.2⟩
      cases same
      exact distinct.1

theorem Feasible.tail {s : TableSchemaSnapshot V} {op : MigrationOp V} {ops : List (MigrationOp V)}
    (feasible : Feasible (columnNames s) (op :: ops)) : Feasible (columnNames (op.edit s)) ops := by
  obtain ⟨distinct, names⟩ := feasible.edit
  obtain ⟨taken, takes⟩ := nodup_filterMap_cons feasible.takes
  obtain ⟨made, makes⟩ := nodup_filterMap_cons feasible.makes
  refine ⟨distinct, takes, makes, fun name member => ?_, fun name member => ?_⟩
  · obtain ⟨here, kept⟩ := feasible.here name (mem_filterMap_cons.mpr (.inr member))
    rw [mem_filterMap_cons, not_or] at kept
    exact ⟨(names name).mpr (.inl ⟨here, fun same => taken name same member, kept.1⟩), kept.2⟩
  · obtain ⟨absent, kept⟩ := feasible.new name (mem_filterMap_cons.mpr (.inr member))
    rw [mem_filterMap_cons, not_or] at kept
    refine ⟨fun listed => ?_, kept.2⟩
    rcases (names name).mp listed with ⟨here, _⟩ | same
    · exact absent here
    · exact made name same member

/-- A feasible plan never doubles a name. -/
theorem Feasible.nodup_foldl {s : TableSchemaSnapshot V} {ops : List (MigrationOp V)}
    (feasible : Feasible (columnNames s) ops) {done : List (MigrationOp V)} (first : done <+: ops) :
    (columnNames (done.foldl MigrationOp.edit s)).Nodup := by
  induction done generalizing s ops with
  | nil => exact feasible.distinct
  | cons op done ih =>
      obtain ⟨later, rfl⟩ := first
      exact ih feasible.tail (List.prefix_append done later)

/-- The names after a feasible plan: those that were neither renamed nor dropped, and those
it has made. -/
theorem Feasible.mem_foldl {s : TableSchemaSnapshot V} {ops : List (MigrationOp V)}
    (feasible : Feasible (columnNames s) ops) (name : String) :
    name ∈ columnNames (ops.foldl MigrationOp.edit s) ↔
      name ∈ columnNames s ∧ name ∉ ops.filterMap MigrationOp.takes ∧ name ∉ ops.filterMap MigrationOp.discards ∨
        name ∈ ops.filterMap MigrationOp.makes := by
  induction ops generalizing s with
  | nil => simp
  | cons op ops ih =>
      obtain ⟨_, names⟩ := feasible.edit
      rw [List.foldl_cons, ih feasible.tail, names, mem_filterMap_cons, mem_filterMap_cons, mem_filterMap_cons]
      have spared : op.makes = some name →
          name ∉ ops.filterMap MigrationOp.takes ∧ name ∉ ops.filterMap MigrationOp.discards := by
        intro made
        obtain ⟨absent, kept⟩ := feasible.new name (mem_filterMap_cons.mpr (.inl made))
        refine ⟨fun taken => absent (feasible.here name (mem_filterMap_cons.mpr (.inr taken))).1, fun dropped => ?_⟩
        exact kept (mem_filterMap_cons.mpr (.inr dropped))
      tauto

end Names
/-! ## The sources of the compiled columns -/

/-- Where a compiled column comes from. -/
inductive ColumnSource where
  | same
  | renamed (old : String)
  | added
  deriving DecidableEq, Repr

/-- The stored column a compiled one stands for. -/
def standsFor : String × ColumnSource → Option String
  | (name, .same) => some name
  | (_, .renamed old) => some old
  | (_, .added) => none

/-- The sources of compiled names in their order: the stored column of the name, or the
first one of the history that no column before has taken. -/
def columnSources (stored : List String) (renamedFrom : String → List String) :
    List String → List String → List (String × ColumnSource)
  | [], _ => []
  | name :: names, taken =>
      if name ∈ stored then (name, .same) :: columnSources stored renamedFrom names (taken ++ [name])
      else match (renamedFrom name).find? fun old => decide (old ∈ stored ∧ old ∉ taken) with
        | some old => (name, .renamed old) :: columnSources stored renamedFrom names (taken ++ [old])
        | none => (name, .added) :: columnSources stored renamedFrom names taken

/-- No column is renamed from a stored column that a later one has the name of. -/
def SparesLater (sources : List (String × ColumnSource)) : Prop :=
  sources.Pairwise fun x y => x.2 ≠ .renamed y.1

instance (sources : List (String × ColumnSource)) : Decidable (SparesLater sources) :=
  inferInstanceAs (Decidable (sources.Pairwise fun x y => x.2 ≠ .renamed y.1))

section Sources
variable {stored : List String} {renamedFrom : String → List String}

theorem columnSources_names (names taken : List String) :
    (columnSources stored renamedFrom names taken).map Prod.fst = names := by
  induction names generalizing taken with
  | nil => rfl
  | cons name names ih =>
      rw [columnSources]
      split
      · rw [List.map_cons, ih]
      · split <;> rw [List.map_cons, ih]

/-- What a source says of its column. -/
def Sourced (stored taken : List String) (x : String × ColumnSource) : Prop :=
  match x.2 with
  | .same => x.1 ∈ stored
  | .renamed old => x.1 ∉ stored ∧ old ∈ stored ∧ old ∉ taken
  | .added => x.1 ∉ stored

theorem Sourced.mono {taken more : List String} {x : String × ColumnSource} (sourced : Sourced stored (taken ++ more) x) :
    Sourced stored taken x := by
  obtain ⟨name, source⟩ := x
  cases source with
  | same => exact sourced
  | renamed old => exact ⟨sourced.1, sourced.2.1, fun earlier => sourced.2.2 (List.mem_append_left _ earlier)⟩
  | added => exact sourced

theorem columnSources_sourced (names taken : List String) :
    ∀ x ∈ columnSources stored renamedFrom names taken, Sourced stored taken x := by
  induction names generalizing taken with
  | nil => exact fun x member => absurd member List.not_mem_nil
  | cons name names ih =>
      rw [columnSources]
      split
      next here =>
        refine List.forall_mem_cons.mpr ⟨here, fun x member => (ih _ x member).mono⟩
      next absent =>
        split
        next old found =>
          have free := List.find?_some found
          rw [decide_eq_true_eq] at free
          exact List.forall_mem_cons.mpr ⟨⟨absent, free⟩, fun x member => (ih _ x member).mono⟩
        next => exact List.forall_mem_cons.mpr ⟨absent, ih taken⟩

/-- A renaming takes a stored column that none before it stands for. -/
theorem columnSources_apart (names taken : List String) :
    (columnSources stored renamedFrom names taken).Pairwise fun x y =>
      ∀ old, y.2 = .renamed old → standsFor x ≠ some old := by
  induction names generalizing taken with
  | nil => exact .nil
  | cons name names ih =>
      rw [columnSources]
      split
      next here =>
        refine List.pairwise_cons.mpr ⟨fun y member old renamed same => ?_, ih _⟩
        have sourced := columnSources_sourced _ _ y member
        rw [Sourced, renamed] at sourced
        cases same
        exact sourced.2.2 (List.mem_append_right _ List.mem_cons_self)
      next absent =>
        split
        next old' found =>
          refine List.pairwise_cons.mpr ⟨fun y member old renamed same => ?_, ih _⟩
          have sourced := columnSources_sourced _ _ y member
          rw [Sourced, renamed] at sourced
          cases same
          exact sourced.2.2 (List.mem_append_right _ List.mem_cons_self)
        next =>
          exact List.pairwise_cons.mpr ⟨fun y _ old _ same => (nomatch same), ih taken⟩

end Sources

/-- A renamed column with its stored name. -/
def sourceRename : String × ColumnSource → Option (String × String)
  | (name, .renamed old) => some (old, name)
  | _ => none

def sourceAddition : String × ColumnSource → Option String
  | (name, .added) => some name
  | _ => none

/-- A column whose name is not stored. -/
def sourceMaking : String × ColumnSource → Option String
  | (_, .same) => none
  | (name, _) => some name

section Follows
variable {V : Type}

/-- The operations rename and add as the sources say, and drop nothing. -/
structure Follows (ops : List (MigrationOp V)) (sources : List (String × ColumnSource)) : Prop where
  renames : ops.filterMap MigrationOp.renames = sources.filterMap sourceRename
  adds : ops.filterMap MigrationOp.adds = sources.filterMap sourceAddition
  makes : ops.filterMap MigrationOp.makes = sources.filterMap sourceMaking
  discards : ops.filterMap MigrationOp.discards = []

theorem Follows.append {ops later : List (MigrationOp V)} {sources rest : List (String × ColumnSource)}
    (first : Follows ops sources) (second : Follows later rest) : Follows (ops ++ later) (sources ++ rest) where
  renames := by rw [List.filterMap_append, List.filterMap_append, first.renames, second.renames]
  adds := by rw [List.filterMap_append, List.filterMap_append, first.adds, second.adds]
  makes := by rw [List.filterMap_append, List.filterMap_append, first.makes, second.makes]
  discards := by rw [List.filterMap_append, first.discards, second.discards, List.append_nil]

theorem Follows.matched {ops : List (MigrationOp V)} {sources : List (String × ColumnSource)}
    (follows : Follows ops sources) (name : String) : Follows ops ((name, .same) :: sources) :=
  ⟨follows.renames, follows.adds, follows.makes, follows.discards⟩

/-- Conversions and changes of flags rename, add and drop nothing. -/
theorem follows_diffColumnPair (table : String) (old new : ColumnSnapshot V) :
    Follows (diffColumnPair table old new) [] := by
  have quiet : ∀ op ∈ diffColumnPair table old new, op.renames = none ∧ op.adds = none ∧ op.makes = none ∧
      op.discards = none := by
    intro op member
    rcases List.mem_append.mp member with converted | flagged
    · split at converted
      · split at converted
        · rw [List.mem_singleton.mp converted]
          exact ⟨rfl, rfl, rfl, rfl⟩
        · rw [List.mem_singleton.mp converted]
          exact ⟨rfl, rfl, rfl, rfl⟩
      · cases converted
    · split at flagged
      · cases flagged
      · rw [List.mem_singleton.mp flagged]
        exact ⟨rfl, rfl, rfl, rfl⟩
  constructor
  · exact List.filterMap_eq_nil_iff.mpr fun op member => (quiet op member).1
  · exact List.filterMap_eq_nil_iff.mpr fun op member => (quiet op member).2.1
  · exact List.filterMap_eq_nil_iff.mpr fun op member => (quiet op member).2.2.1
  · exact List.filterMap_eq_nil_iff.mpr fun op member => (quiet op member).2.2.2

end Follows

section Diff
variable {D J : Type} {schema : CompiledSchema D J}

theorem find_name_none {stored : List (ColumnSnapshot (StoredValue D J))} {name : String}
    (absent : stored.find? (fun c => c.name == name) = none) : name ∉ stored.map ColumnSnapshot.name := by
  intro listed
  obtain ⟨c, member, rfl⟩ := List.mem_map.mp listed
  exact List.find?_eq_none.mp absent c member (beq_self_eq_true _)

theorem find_name_some {stored : List (ColumnSnapshot (StoredValue D J))} {name : String}
    {source : ColumnSnapshot (StoredValue D J)} (found : stored.find? (fun c => c.name == name) = some source) :
    source.name = name ∧ name ∈ stored.map ColumnSnapshot.name := by
  have same : source.name = name := by simpa using List.find?_some found
  exact ⟨same, same ▸ List.mem_map_of_mem (List.mem_of_find?_eq_some found)⟩

/-- The stored column `renamed_from` leads to, by its name. -/
theorem renamedSource_name (history : List String) (stored : List (ColumnSnapshot (StoredValue D J)))
    (consumed : List String) : (renamedSource history stored consumed).map ColumnSnapshot.name =
      history.find? fun old => decide (old ∈ stored.map ColumnSnapshot.name ∧ old ∉ consumed) := by
  induction history with
  | nil => rfl
  | cons old history ih =>
      rw [renamedSource, List.findSome?_cons, List.find?_cons]
      split
      next source found =>
        have same : source.name = old ∧ source.name ∉ consumed := by simpa using List.find?_some found
        have free : old ∈ stored.map ColumnSnapshot.name ∧ old ∉ consumed :=
          ⟨same.1 ▸ List.mem_map_of_mem (List.mem_of_find?_eq_some found), same.1 ▸ same.2⟩
        rw [decide_eq_true free, Option.map_some, same.1]
      next none =>
        have taken : ¬ (old ∈ stored.map ColumnSnapshot.name ∧ old ∉ consumed) := by
          rintro ⟨listed, free⟩
          obtain ⟨c, member, rfl⟩ := List.mem_map.mp listed
          exact List.find?_eq_none.mp none c member (by simpa using free)
        rw [decide_eq_false taken]
        exact ih

/-- The operations for the compiled columns are those of their sources. -/
theorem diffCompiledColumns_follows {table : String} {stored columns : List (ColumnSnapshot (StoredValue D J))}
    {consumed all : List String} {ops : List (MigrationOp (StoredValue D J))}
    (run : diffCompiledColumns schema table stored columns consumed = .ok (ops, all)) :
    let sources := columnSources (stored.map ColumnSnapshot.name) (schema.renamedFrom table)
      (columns.map ColumnSnapshot.name) consumed
    Follows ops sources ∧ all = consumed ++ sources.filterMap standsFor := by
  induction columns generalizing consumed ops all with
  | nil =>
      cases run
      exact ⟨⟨rfl, rfl, rfl, rfl⟩, (List.append_nil _).symm⟩
  | cons col columns ih =>
      rw [diffCompiledColumns] at run
      rw [List.map_cons, columnSources]
      split at run
      next source found =>
        obtain ⟨named, here⟩ := find_name_some found
        obtain ⟨⟨later, all'⟩, rest, done⟩ := bind_eq_ok.mp run
        cases done
        obtain ⟨follows, rfl⟩ := ih rest
        rw [if_pos here]
        rw [named] at follows ⊢
        refine ⟨((follows_diffColumnPair table source col).append follows).matched _, ?_⟩
        rw [List.append_assoc]
        rfl
      next absent =>
        rw [if_neg (find_name_none absent), ← renamedSource_name]
        split at run
        next source renamed =>
          rw [renamed, Option.map_some]
          obtain ⟨⟨later, all'⟩, rest, done⟩ := bind_eq_ok.mp run
          cases done
          obtain ⟨follows, rfl⟩ := ih rest
          have head : Follows (V := StoredValue D J) [.renameColumn table source.name col.name] [(col.name, .renamed source.name)] :=
            ⟨rfl, rfl, rfl, rfl⟩
          refine ⟨head.append ((follows_diffColumnPair table source col).append follows), ?_⟩
          rw [List.append_assoc]
          rfl
        next unmatched =>
          rw [unmatched, Option.map_none]
          split at run
          · cases run
          · obtain ⟨⟨later, all'⟩, rest, done⟩ := bind_eq_ok.mp run
            cases done
            obtain ⟨follows, rfl⟩ := ih rest
            have head : Follows (V := StoredValue D J) [.addColumn table col] [(col.name, .added)] :=
              ⟨rfl, rfl, rfl, rfl⟩
            exact ⟨head.append follows, rfl⟩

/-! ## The matching -/

/-- The stored column becomes the compiled one: they have one name, or it is renamed. -/
def Becomes (stored compiled : List String) (ops : List (MigrationOp (StoredValue D J))) (old new : String) : Prop :=
  old = new ∧ old ∈ stored ∧ new ∈ compiled ∨ (old, new) ∈ ops.filterMap MigrationOp.renames

/-- The operations match each compiled column in one of three ways, make a stored column
into at most one compiled one, drop those that become none, and carry the stored names
over to the compiled ones without a double name on the way. -/
structure Matching (stored compiled : TableSchemaSnapshot (StoredValue D J))
    (ops : List (MigrationOp (StoredValue D J))) : Prop where
  matched : ∀ name ∈ columnNames compiled, name ∈ columnNames stored →
    ((ops.filterMap MigrationOp.renames).map Prod.snd).count name = 0 ∧ (ops.filterMap MigrationOp.adds).count name = 0
  unmatched : ∀ name ∈ columnNames compiled, name ∉ columnNames stored →
    ((ops.filterMap MigrationOp.renames).map Prod.snd).count name + (ops.filterMap MigrationOp.adds).count name = 1
  single : ∀ old new new', Becomes (columnNames stored) (columnNames compiled) ops old new →
    Becomes (columnNames stored) (columnNames compiled) ops old new' → new = new'
  dropped : ∀ old ∈ columnNames stored, (∀ new, ¬ Becomes (columnNames stored) (columnNames compiled) ops old new) →
    (ops.filterMap MigrationOp.discards).count old = 1
  distinct : ∀ done, done <+: orderOps ops → (columnNames (done.foldl MigrationOp.edit stored)).Nodup
  final : (columnNames ((orderOps ops).foldl MigrationOp.edit stored)).Perm (columnNames compiled)

section Sources
variable {stored names : List String} {renamedFrom : String → List String}

theorem mem_sourceRename {sources : List (String × ColumnSource)} {old new : String} :
    (old, new) ∈ sources.filterMap sourceRename ↔ (new, .renamed old) ∈ sources := by
  rw [List.mem_filterMap]
  constructor
  · rintro ⟨⟨name, source⟩, member, made⟩
    cases source with
    | renamed old' =>
        cases made
        exact member
    | same => cases made
    | added => cases made
  · exact fun member => ⟨_, member, rfl⟩

theorem mem_sourceAddition {sources : List (String × ColumnSource)} {name : String} :
    name ∈ sources.filterMap sourceAddition ↔ (name, .added) ∈ sources := by
  rw [List.mem_filterMap]
  constructor
  · rintro ⟨⟨name', source⟩, member, made⟩
    cases source with
    | added =>
        cases made
        exact member
    | same => cases made
    | renamed old => cases made
  · exact fun member => ⟨_, member, rfl⟩

/-- Each name has one source. -/
theorem source_unique {sources : List (String × ColumnSource)} (distinct : (sources.map Prod.fst).Nodup)
    {name : String} {first second : ColumnSource} (one : (name, first) ∈ sources) (other : (name, second) ∈ sources) :
    first = second :=
  congrArg Prod.snd (List.inj_on_of_nodup_map distinct one other rfl)

theorem filterMap_sublist_names {sources : List (String × ColumnSource)} {f : String × ColumnSource → Option String}
    (own : ∀ x name, f x = some name → x.1 = name) : (sources.filterMap f).Sublist (sources.map Prod.fst) := by
  induction sources with
  | nil => exact .slnil
  | cons x sources ih =>
      cases made : f x with
      | none =>
          rw [List.filterMap_cons_none made]
          exact ih.trans (List.sublist_cons_self _ _)
      | some name =>
          rw [List.filterMap_cons_some made, List.map_cons, own x name made]
          exact ih.cons_cons _

/-- No two compiled columns stand for one stored column, if renamings spare later ones. -/
theorem standsFor_nodup (distinct : names.Nodup) (spares : SparesLater (columnSources stored renamedFrom names [])) :
    ((columnSources stored renamedFrom names []).filterMap standsFor).Nodup := by
  have named : (columnSources stored renamedFrom names []).map Prod.fst = names := columnSources_names names []
  have apart : (columnSources stored renamedFrom names []).Pairwise fun x y => x.1 ≠ y.1 := by
    rw [← named] at distinct
    exact List.pairwise_map.mp distinct
  refine List.pairwise_filterMap.mpr ?_
  refine ((columnSources_apart names []).and (spares.and apart)).imp ?_
  rintro ⟨first, source⟩ ⟨second, source'⟩ ⟨later, spared, other⟩ old stands old' stands' rfl
  cases source' with
  | same =>
      cases stands'
      cases source with
      | same =>
          cases stands
          exact other rfl
      | renamed taken =>
          cases stands
          exact spared rfl
      | added => cases stands
  | renamed taken =>
      cases stands'
      exact later old rfl stands
  | added => cases stands'

end Sources
/-- Two elements with one image, in a list whose images are distinct. -/
theorem eq_of_filterMap_nodup {α β : Type} {f : α → Option β} {l : List α} (distinct : (l.filterMap f).Nodup) {x y : α}
    {b : β} (first : x ∈ l) (second : y ∈ l) (one : f x = some b) (other : f y = some b) : x = y := by
  by_contra apart
  have images := List.pairwise_filterMap.mp distinct
  have symmetric : Std.Symm fun x y : α => ∀ b, f x = some b → ∀ b', f y = some b' → b ≠ b' :=
    ⟨fun _ _ far b here b' there same => far b' there b here same.symm⟩
  exact images.forall first second apart b one b other rfl

theorem filterMap_takes {V : Type} (ops : List (MigrationOp V)) :
    ops.filterMap MigrationOp.takes = (ops.filterMap MigrationOp.renames).map Prod.fst := by
  rw [List.map_filterMap]
  refine congrArg (fun f => ops.filterMap f) (funext fun op => ?_)
  cases op <;> rfl

theorem olds_sublist (sources : List (String × ColumnSource)) :
    ((sources.filterMap sourceRename).map Prod.fst).Sublist (sources.filterMap standsFor) := by
  induction sources with
  | nil => exact .slnil
  | cons x sources ih =>
      obtain ⟨name, source⟩ := x
      cases source with
      | same => exact ih.trans (List.sublist_cons_self _ _)
      | renamed old => exact ih.cons_cons old
      | added => exact ih

/-- The operations of a table and the sources they follow. -/
structure Plans (stored compiled : TableSchemaSnapshot (StoredValue D J)) (ops : List (MigrationOp (StoredValue D J)))
    (sources : List (String × ColumnSource)) : Prop where
  renames : ops.filterMap MigrationOp.renames = sources.filterMap sourceRename
  adds : ops.filterMap MigrationOp.adds = sources.filterMap sourceAddition
  makes : ops.filterMap MigrationOp.makes = sources.filterMap sourceMaking
  discards : ops.filterMap MigrationOp.discards =
    (columnNames stored).filter fun name => !(sources.filterMap standsFor).contains name
  names : sources.map Prod.fst = columnNames compiled
  sourced : ∀ x ∈ sources, Sourced (columnNames stored) [] x

theorem diffColumns_plans {stored compiled : TableSchemaSnapshot (StoredValue D J)}
    {ops : List (MigrationOp (StoredValue D J))} (run : diffColumns schema stored compiled = .ok ops) :
    Plans stored compiled ops
      (columnSources (columnNames stored) (schema.renamedFrom compiled.name) (columnNames compiled) []) := by
  obtain ⟨⟨changes, consumed⟩, compared, done⟩ := bind_eq_ok.mp run
  cases done
  obtain ⟨follows, rfl⟩ := diffCompiledColumns_follows compared
  rw [List.nil_append]
  have silent : ∀ {β : Type} (f : MigrationOp (StoredValue D J) → Option β) (columns : List (ColumnSnapshot (StoredValue D J))),
      (∀ column, f (.dropColumn compiled.name column) = none) →
      (columns.map fun c => MigrationOp.dropColumn (V := StoredValue D J) compiled.name c.name).filterMap f = [] := by
    intro β f columns none
    refine List.filterMap_eq_nil_iff.mpr fun op member => ?_
    obtain ⟨c, _, rfl⟩ := List.mem_map.mp member
    exact none c.name
  refine ⟨?_, ?_, ?_, ?_, columnSources_names _ _, columnSources_sourced _ _⟩
  · rw [List.filterMap_append, silent _ _ fun _ => rfl, List.append_nil]
    exact follows.renames
  · rw [List.filterMap_append, silent _ _ fun _ => rfl, List.append_nil]
    exact follows.adds
  · rw [List.filterMap_append, silent _ _ fun _ => rfl, List.append_nil]
    exact follows.makes
  · rw [List.filterMap_append, follows.discards, List.nil_append, List.filterMap_map, columnNames, List.filter_map]
    exact congrFun List.filterMap_eq_map _

section Plans
variable {stored compiled : TableSchemaSnapshot (StoredValue D J)} {ops : List (MigrationOp (StoredValue D J))}
  {sources : List (String × ColumnSource)}

theorem Plans.becomes_iff (plans : Plans stored compiled ops sources) {old new : String} :
    Becomes (columnNames stored) (columnNames compiled) ops old new ↔
      ∃ source, (new, source) ∈ sources ∧ standsFor (new, source) = some old := by
  rw [Becomes, plans.renames, mem_sourceRename]
  constructor
  · rintro (⟨rfl, listed, present⟩ | renamed)
    · rw [← plans.names] at present
      obtain ⟨⟨name, source⟩, member, rfl⟩ := List.mem_map.mp present
      have sourced := plans.sourced _ member
      cases source with
      | same => exact ⟨.same, member, rfl⟩
      | renamed old => exact absurd listed sourced.1
      | added => exact absurd listed sourced
    · exact ⟨_, renamed, rfl⟩
  · rintro ⟨source, member, stands⟩
    cases source with
    | same =>
        cases stands
        exact .inl ⟨rfl, plans.sourced _ member, plans.names ▸ List.mem_map_of_mem member⟩
    | renamed old' =>
        cases stands
        exact .inr member
    | added => cases stands

theorem Plans.mem_makes (plans : Plans stored compiled ops sources) {name : String} :
    name ∈ ops.filterMap MigrationOp.makes ↔ name ∈ columnNames compiled ∧ name ∉ columnNames stored := by
  rw [plans.makes, ← plans.names, List.mem_filterMap, List.mem_map]
  constructor
  · rintro ⟨⟨name', source⟩, member, made⟩
    have sourced := plans.sourced _ member
    cases source with
    | same => cases made
    | renamed old =>
        cases made
        exact ⟨⟨_, member, rfl⟩, sourced.1⟩
    | added =>
        cases made
        exact ⟨⟨_, member, rfl⟩, sourced⟩
  · rintro ⟨⟨⟨name', source⟩, member, rfl⟩, unlisted⟩
    have sourced := plans.sourced _ member
    cases source with
    | same => exact absurd sourced unlisted
    | renamed old => exact ⟨_, member, rfl⟩
    | added => exact ⟨_, member, rfl⟩

theorem Plans.mem_discards (plans : Plans stored compiled ops sources) {name : String} :
    name ∈ ops.filterMap MigrationOp.discards ↔
      name ∈ columnNames stored ∧ ∀ new, ¬ Becomes (columnNames stored) (columnNames compiled) ops name new := by
  rw [plans.discards, List.mem_filter, Bool.not_eq_true', List.contains_eq_mem, decide_eq_false_iff_not,
    List.mem_filterMap]
  refine and_congr_right fun _ => ?_
  constructor
  · intro unused new becomes
    obtain ⟨source, member, stands⟩ := plans.becomes_iff.mp becomes
    exact unused ⟨_, member, stands⟩
  · rintro unused ⟨⟨new, source⟩, member, stands⟩
    exact unused new (plans.becomes_iff.mpr ⟨source, member, stands⟩)

theorem Plans.mem_takes (plans : Plans stored compiled ops sources) {name : String} :
    name ∈ ops.filterMap MigrationOp.takes ↔ ∃ new, (new, .renamed name) ∈ sources := by
  rw [filterMap_takes, plans.renames, List.mem_map]
  constructor
  · rintro ⟨⟨old, new⟩, member, rfl⟩
    exact ⟨new, mem_sourceRename.mp member⟩
  · rintro ⟨new, member⟩
    exact ⟨(name, new), mem_sourceRename.mpr member, rfl⟩

/-- The plan of the operations, when no two columns stand for one stored column. -/
theorem Plans.feasible (plans : Plans stored compiled ops sources) (storedNames : (columnNames stored).Nodup)
    (compiledNames : (columnNames compiled).Nodup) (once : (sources.filterMap standsFor).Nodup) :
    Feasible (columnNames stored) ops where
  distinct := storedNames
  takes := by
    rw [filterMap_takes, plans.renames]
    exact once.sublist (olds_sublist sources)
  makes := by
    rw [plans.makes]
    rw [← plans.names] at compiledNames
    refine compiledNames.sublist (filterMap_sublist_names fun x name made => ?_)
    obtain ⟨name', source⟩ := x
    cases source with
    | same => cases made
    | renamed old =>
        cases made
        rfl
    | added =>
        cases made
        rfl
  here name member := by
    obtain ⟨new, renamed⟩ := plans.mem_takes.mp member
    refine ⟨(plans.sourced _ renamed).2.1, fun dropped => ?_⟩
    exact (plans.mem_discards.mp dropped).2 new (plans.becomes_iff.mpr ⟨_, renamed, rfl⟩)
  new name member := by
    obtain ⟨_, unlisted⟩ := plans.mem_makes.mp member
    exact ⟨unlisted, fun dropped => unlisted (plans.mem_discards.mp dropped).1⟩

/-- The names a feasible plan ends with are the compiled ones. -/
theorem Plans.mem_final (plans : Plans stored compiled ops sources) (once : (sources.filterMap standsFor).Nodup)
    (name : String) : (name ∈ columnNames stored ∧ name ∉ ops.filterMap MigrationOp.takes ∧
      name ∉ ops.filterMap MigrationOp.discards ∨ name ∈ ops.filterMap MigrationOp.makes) ↔ name ∈ columnNames compiled := by
  rw [plans.mem_makes, plans.mem_takes, plans.mem_discards]
  constructor
  · rintro (⟨listed, untaken, kept⟩ | ⟨present, _⟩)
    · rw [not_and, not_forall] at kept
      obtain ⟨new, becomes⟩ := kept listed
      rcases not_not.mp becomes with ⟨rfl, _, present⟩ | renamed
      · exact present
      · rw [plans.renames, mem_sourceRename] at renamed
        exact absurd ⟨new, renamed⟩ untaken
    · exact present
  · intro present
    by_cases listed : name ∈ columnNames stored
    · refine .inl ⟨listed, ?_, fun dropped => dropped.2 name (.inl ⟨rfl, listed, present⟩)⟩
      rintro ⟨new, renamed⟩
      obtain ⟨source, member, stands⟩ := plans.becomes_iff.mp (.inl ⟨rfl, listed, present⟩)
      have same := eq_of_filterMap_nodup once renamed member rfl stands
      cases same
      exact (plans.sourced _ renamed).1 listed
    · exact .inr ⟨present, listed⟩

theorem Plans.matched (plans : Plans stored compiled ops sources) {name : String} (listed : name ∈ columnNames stored) :
    name ∉ (ops.filterMap MigrationOp.renames).map Prod.snd ∧ name ∉ ops.filterMap MigrationOp.adds := by
  constructor
  · intro member
    obtain ⟨⟨old, new⟩, renamed, rfl⟩ := List.mem_map.mp member
    rw [plans.renames, mem_sourceRename] at renamed
    exact (plans.sourced _ renamed).1 listed
  · intro member
    rw [plans.adds, mem_sourceAddition] at member
    exact plans.sourced _ member listed

/-- A compiled column without a stored one of its name is renamed or added, and once. -/
theorem Plans.unmatched (plans : Plans stored compiled ops sources) (compiledNames : (columnNames compiled).Nodup)
    {name : String} (present : name ∈ columnNames compiled) (unlisted : name ∉ columnNames stored) :
    ((ops.filterMap MigrationOp.renames).map Prod.snd).count name + (ops.filterMap MigrationOp.adds).count name = 1 := by
  rw [← plans.names] at compiledNames present
  have renamedOnce : ((sources.filterMap sourceRename).map Prod.snd).Nodup := by
    rw [List.map_filterMap]
    refine compiledNames.sublist (filterMap_sublist_names fun x name made => ?_)
    obtain ⟨name', source⟩ := x
    cases source <;> cases made
    rfl
  have addedOnce : (sources.filterMap sourceAddition).Nodup := by
    refine compiledNames.sublist (filterMap_sublist_names fun x name made => ?_)
    obtain ⟨name', source⟩ := x
    cases source <;> cases made
    rfl
  have inRenamed : ∀ old, (name, .renamed old) ∈ sources → name ∈ (sources.filterMap sourceRename).map Prod.snd :=
    fun old member => List.mem_map.mpr ⟨(old, name), mem_sourceRename.mpr member, rfl⟩
  rw [plans.renames, plans.adds]
  obtain ⟨⟨name', source⟩, member, rfl⟩ := List.mem_map.mp present
  cases source with
  | same => exact absurd (plans.sourced _ member) unlisted
  | renamed old =>
      have unadded : name' ∉ sources.filterMap sourceAddition := fun added =>
        nomatch source_unique compiledNames member (mem_sourceAddition.mp added)
      rw [List.count_eq_one_of_mem renamedOnce (inRenamed old member), List.count_eq_zero_of_not_mem unadded]
  | added =>
      have unrenamed : name' ∉ (sources.filterMap sourceRename).map Prod.snd := by
        intro renamed
        obtain ⟨⟨old, new⟩, listed, rfl⟩ := List.mem_map.mp renamed
        exact nomatch source_unique compiledNames member (mem_sourceRename.mp listed)
      rw [List.count_eq_zero_of_not_mem unrenamed, List.count_eq_one_of_mem addedOnce (mem_sourceAddition.mpr member)]

end Plans

/-- The operations for the columns of a table are a matching exactly when no column is
renamed from a stored column that a later one has the name of. -/
theorem matching_iff {stored compiled : TableSchemaSnapshot (StoredValue D J)}
    {ops : List (MigrationOp (StoredValue D J))} (storedNames : (columnNames stored).Nodup)
    (compiledNames : (columnNames compiled).Nodup) (run : diffColumns schema stored compiled = .ok ops) :
    Matching stored compiled ops ↔
      SparesLater (columnSources (columnNames stored) (schema.renamedFrom compiled.name) (columnNames compiled) []) := by
  have plans := diffColumns_plans run
  constructor
  · intro matching
    have apart := compiledNames
    rw [← plans.names] at apart
    refine (List.pairwise_map.mp apart).imp_of_mem ?_
    rintro ⟨first, source⟩ ⟨second, source'⟩ member member' other rfl
    have renamed := plans.becomes_iff.mpr ⟨_, member, rfl⟩
    have listed := (plans.sourced _ member).2.1
    have present : second ∈ columnNames compiled := plans.names ▸ List.mem_map_of_mem member'
    exact other (matching.single _ _ _ renamed (.inl ⟨rfl, listed, present⟩))
  · intro spares
    have once := standsFor_nodup compiledNames spares
    have feasible := (plans.feasible storedNames compiledNames once).perm (orderOps_perm ops)
    refine ⟨fun name _ listed => ?_, fun name present unlisted => plans.unmatched compiledNames present unlisted,
      fun old new new' first second => ?_, fun old listed unused => ?_, fun done first => ?_, ?_⟩
    · obtain ⟨unrenamed, unadded⟩ := plans.matched listed
      exact ⟨List.count_eq_zero_of_not_mem unrenamed, List.count_eq_zero_of_not_mem unadded⟩
    · obtain ⟨source, member, stands⟩ := plans.becomes_iff.mp first
      obtain ⟨source', member', stands'⟩ := plans.becomes_iff.mp second
      exact congrArg Prod.fst (eq_of_filterMap_nodup once member member' stands stands')
    · have distinct : (ops.filterMap MigrationOp.discards).Nodup := by
        rw [plans.discards]
        exact storedNames.filter _
      exact List.count_eq_one_of_mem distinct (plans.mem_discards.mpr ⟨listed, unused⟩)
    · exact feasible.nodup_foldl first
    · refine (List.perm_ext_iff_of_nodup (feasible.nodup_foldl List.prefix_rfl) compiledNames).mpr fun name => ?_
      rw [feasible.mem_foldl, ← plans.mem_final once, ((orderOps_perm ops).filterMap MigrationOp.takes).mem_iff,
        ((orderOps_perm ops).filterMap MigrationOp.discards).mem_iff,
        ((orderOps_perm ops).filterMap MigrationOp.makes).mem_iff]

end Diff
/-- The operations for the columns of any table are a matching. -/
def AlwaysMatches (D J : Type) : Prop :=
  ∀ (schema : CompiledSchema D J) (stored compiled : TableSchemaSnapshot (StoredValue D J))
    (ops : List (MigrationOp (StoredValue D J))), (columnNames stored).Nodup → (columnNames compiled).Nodup →
      diffColumns schema stored compiled = .ok ops → Matching stored compiled ops

/-! ### A history that leads to a later column -/

namespace People

def field (name : String) (renamedFrom : List String) : Field (StoredValue Unit Unit) :=
  ⟨name, .text, true, false, false, false, none, none, renamedFrom⟩

theorem oneName : ["name"].Nodup := by decide

theorem twoNames : ["given", "name"].Nodup := by decide

/-- `people(name)`. -/
def people : TableType (StoredValue Unit Unit) := ⟨"people", "name", [field "name" []], [], none, oneName⟩

/-- `people(given, name)` with `renamed_from = ["name"]` on the first column. -/
def divided : TableType (StoredValue Unit Unit) :=
  ⟨"people", "name", [field "given" ["name"], field "name" []], [], none, twoNames⟩

/-- `people(given)`, renamed from `name`. -/
def renamed : TableType (StoredValue Unit Unit) :=
  ⟨"people", "given", [field "given" ["name"]], [], none, List.nodup_singleton _⟩

def schemaOf (table : TableType (StoredValue Unit Unit)) : CompiledSchema Unit Unit :=
  ⟨[table], List.nodup_singleton _, fun _ _ => none, fun _ _ _ => .ok none⟩

theorem divided_ops : diffColumns (schemaOf divided) people.schemaSnapshot divided.schemaSnapshot =
    .ok [.renameColumn "people" "name" "given"] := by rfl

/-- The stored column goes to the first compiled column, and is taken for the second. -/
theorem name_taken_twice : ¬ AlwaysMatches Unit Unit := by
  intro always
  have matching := always (schemaOf divided) people.schemaSnapshot divided.schemaSnapshot _ oneName twoNames divided_ops
  have same := matching.single "name" "given" "name" (.inr List.mem_cons_self)
    (.inl ⟨rfl, List.mem_cons_self, List.mem_cons_of_mem _ List.mem_cons_self⟩)
  exact absurd same (by decide)

theorem renamed_ops : diffColumns (schemaOf renamed) people.schemaSnapshot renamed.schemaSnapshot =
    .ok [.renameColumn "people" "name" "given"] := by rfl

theorem renamed_matches :
    Matching people.schemaSnapshot renamed.schemaSnapshot [.renameColumn "people" "name" "given"] := by
  have storedNames : (columnNames people.schemaSnapshot).Nodup := oneName
  have compiledNames : (columnNames renamed.schemaSnapshot).Nodup := List.nodup_singleton "given"
  exact (matching_iff storedNames compiledNames renamed_ops).mpr (by decide)

end People
end WasmDbms
