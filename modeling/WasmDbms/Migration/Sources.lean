import WasmDbms.Migration.Diff

/-!
# Where columns come from

`diff` gives each compiled column the stored one it stands for, if there is one: the one
of its name, or else the first of its earlier names that no column before it stands for.
The operations for the columns follow from that.
-/
namespace WasmDbms
open Result

/-! ## Sources -/

section Sources
variable {V : Type} (renamedFrom : String → List String) (stored : List (ColumnSnapshot V))

/-- The stored column that a compiled one stands for. -/
def columnSource (consumed : List String) (col : ColumnSnapshot V) : Option (ColumnSnapshot V) :=
  (stored.find? fun c => c.name == col.name).or (renamedSource (renamedFrom col.name) stored consumed)

/-- The compiled columns with the stored ones they stand for. -/
def sources : List (ColumnSnapshot V) → List String → List (ColumnSnapshot V × Option (ColumnSnapshot V))
  | [], _ => []
  | col :: cols, consumed =>
      match columnSource renamedFrom stored consumed col with
      | some source => (col, some source) :: sources cols (consumed ++ [source.name])
      | none => (col, none) :: sources cols consumed

/-- Some compiled column stands for a stored one of this name. -/
def survives (entries : List (ColumnSnapshot V × Option (ColumnSnapshot V))) (c : ColumnSnapshot V) : Bool :=
  entries.any fun e => e.2.any fun source => source.name == c.name

/-- What becomes of a stored column. -/
def carried (entries : List (ColumnSnapshot V × Option (ColumnSnapshot V))) (c : ColumnSnapshot V) : ColumnSnapshot V :=
  match entries.find? fun e => e.2.any fun source => source.name == c.name with
  | some e => { e.1 with default := c.default }
  | none => c

variable {renamedFrom stored} {cols : List (ColumnSnapshot V)} {consumed : List String}

variable (renamedFrom stored cols consumed) in
theorem sources_fst : (sources renamedFrom stored cols consumed).map Prod.fst = cols := by
  induction cols generalizing consumed with
  | nil => rfl
  | cons col cols ih =>
      rw [sources]
      split <;> rw [List.map_cons, ih]

/-- A column stands for the stored one of its name, or else for one that no column before
it stands for. -/
theorem columnSource_eq_some {col c : ColumnSnapshot V} (source : columnSource renamedFrom stored consumed col = some c) :
    c ∈ stored ∧ (c.name = col.name ∨ c.name ∉ consumed ∧ ∀ s ∈ stored, s.name ≠ col.name) := by
  unfold columnSource at source
  cases own : stored.find? fun c => c.name == col.name with
  | some s =>
      rw [own] at source
      cases source
      have named := List.find?_some own
      exact ⟨List.mem_of_find?_eq_some own, .inl (beq_iff_eq.mp named)⟩
  | none =>
      rw [own] at source
      obtain ⟨previous, _, found⟩ := List.exists_of_findSome?_eq_some source
      have free := List.find?_some found
      rw [Bool.and_eq_true, Bool.not_eq_true', List.contains_eq_mem, decide_eq_false_iff_not] at free
      refine ⟨List.mem_of_find?_eq_some found, .inr ⟨free.2, fun s listed same => ?_⟩⟩
      exact List.find?_eq_none.mp own s listed (beq_iff_eq.mpr same)

theorem columnSource_eq_none {col : ColumnSnapshot V} (none_ : columnSource renamedFrom stored consumed col = none) :
    ∀ s ∈ stored, s.name ≠ col.name := by
  intro s listed same
  have own := (Option.or_eq_none_iff.mp none_).1
  exact List.find?_eq_none.mp own s listed (beq_iff_eq.mpr same)

/-- Where the source of a column lies. -/
theorem source_of_mem {e : ColumnSnapshot V × Option (ColumnSnapshot V)}
    (member : e ∈ sources renamedFrom stored cols consumed) {c : ColumnSnapshot V} (source : e.2 = some c) :
    c ∈ stored ∧ (c.name = e.1.name ∨ c.name ∉ consumed ∧ ∀ s ∈ stored, s.name ≠ e.1.name) := by
  induction cols generalizing consumed with
  | nil => cases member
  | cons col cols ih =>
      rw [sources] at member
      split at member
      next own here =>
        rcases List.mem_cons.mp member with rfl | later
        · cases source
          exact columnSource_eq_some here
        · obtain ⟨listed, named⟩ := ih later
          refine ⟨listed, named.imp_right fun free => ⟨fun used => ?_, free.2⟩⟩
          exact free.1 (List.mem_append_left _ used)
      next =>
        rcases List.mem_cons.mp member with rfl | later
        · cases source
        · exact ih later

theorem unsourced_of_mem {e : ColumnSnapshot V × Option (ColumnSnapshot V)}
    (member : e ∈ sources renamedFrom stored cols consumed) (none_ : e.2 = none) : ∀ s ∈ stored, s.name ≠ e.1.name := by
  induction cols generalizing consumed with
  | nil => cases member
  | cons col cols ih =>
      rw [sources] at member
      split at member
      next own here =>
        rcases List.mem_cons.mp member with rfl | later
        · cases none_
        · exact ih later
      next here =>
        rcases List.mem_cons.mp member with rfl | later
        · exact columnSource_eq_none here
        · exact ih later

variable (renamedFrom stored cols consumed) in
/-- A column is renamed for the first column that stands for it only. -/
theorem sources_pairwise : (sources renamedFrom stored cols consumed).Pairwise fun a b =>
    ∀ c d, a.2 = some c → b.2 = some d → c.name = d.name → d.name = b.1.name := by
  induction cols generalizing consumed with
  | nil => exact .nil
  | cons col cols ih =>
      rw [sources]
      split
      next own here =>
        refine List.pairwise_cons.mpr ⟨fun b later c d first second same => ?_, ih _⟩
        cases first
        rcases (source_of_mem later second).2 with named | ⟨free, _⟩
        · exact named
        · exact absurd (List.mem_append_right consumed (List.mem_singleton.mpr same.symm)) free
      next => exact List.pairwise_cons.mpr ⟨fun _ _ _ _ first => (nomatch first), ih _⟩

end Sources

/-! ## The operations for the columns -/

section Operations
variable {V : Type} (table : String)

/-- What the plan has for a compiled column. -/
def columnOps (e : ColumnSnapshot V × Option (ColumnSnapshot V)) : List (MigrationOp V) :=
  match e.2 with
  | some source =>
      (if source.name = e.1.name then [] else [.renameColumn table source.name e.1.name]) ++ diffColumnPair table source e.1
  | none => [.addColumn table e.1]

/-- The operations for the columns and the indexes of a table. -/
def tableOps (entries : List (ColumnSnapshot V × Option (ColumnSnapshot V))) (stored : List (ColumnSnapshot V))
    (old new : List IndexSnapshot) : List (MigrationOp V) :=
  entries.flatMap (columnOps table) ++
    ((stored.filter fun c => !survives entries c).map fun c => .dropColumn table c.name) ++ diffIndexes table old new

end Operations

section Diff
variable {D J : Type} {schema : CompiledSchema D J}

theorem diffCompiledColumns_ok {table : String} {stored cols : List (ColumnSnapshot (StoredValue D J))}
    {consumed : List String} {result : List (MigrationOp (StoredValue D J)) × List String}
    (run : diffCompiledColumns schema table stored cols consumed = .ok result) :
    result.1 = (sources (schema.renamedFrom table) stored cols consumed).flatMap (columnOps table) ∧
      result.2 = consumed ++ (sources (schema.renamedFrom table) stored cols consumed).filterMap
        fun e => e.2.map ColumnSnapshot.name := by
  induction cols generalizing consumed result with
  | nil =>
      cases run
      exact ⟨rfl, (List.append_nil _).symm⟩
  | cons col cols ih =>
      rw [diffCompiledColumns] at run
      rw [sources, columnSource]
      split at run
      next source own =>
        obtain ⟨later, rest, run⟩ := bind_eq_ok.mp run
        cases run
        obtain ⟨ops, all⟩ := ih rest
        have named := List.find?_some own
        rw [own]
        refine ⟨?_, ?_⟩
        · show diffColumnPair table source col ++ later.1 = _
          rw [ops, Option.some_or, List.flatMap_cons, columnOps]
          dsimp only
          rw [if_pos (beq_iff_eq.mp named), List.nil_append]
        · show later.2 = _
          rw [all, List.append_assoc]
          rfl
      next own =>
        rw [own, Option.none_or]
        split at run
        next source found =>
          obtain ⟨later, rest, run⟩ := bind_eq_ok.mp run
          cases run
          obtain ⟨ops, all⟩ := ih rest
          have other : source.name ≠ col.name := by
            have source_ : columnSource (schema.renamedFrom table) stored consumed col = some source := by
              rw [columnSource, own, Option.none_or, found]
            obtain ⟨listed, _⟩ := columnSource_eq_some source_
            exact fun same => List.find?_eq_none.mp own source listed (beq_iff_eq.mpr same)
          rw [found]
          refine ⟨?_, ?_⟩
          · show .renameColumn table source.name col.name :: (diffColumnPair table source col ++ later.1) = _
            rw [ops, List.flatMap_cons, columnOps]
            dsimp only
            rw [if_neg other]
            rfl
          · show later.2 = _
            rw [all, List.append_assoc]
            rfl
        next absent =>
          rw [absent]
          split at run
          next => cases run
          next =>
            obtain ⟨later, rest, run⟩ := bind_eq_ok.mp run
            cases run
            obtain ⟨ops, all⟩ := ih rest
            refine ⟨?_, all⟩
            show .addColumn table col :: later.1 = _
            rw [ops]
            rfl

/-- The sources of the compiled columns of a table. -/
def tableSources (schema : CompiledSchema D J) (old new : TableSchemaSnapshot (StoredValue D J)) :
    List (ColumnSnapshot (StoredValue D J) × Option (ColumnSnapshot (StoredValue D J))) :=
  sources (schema.renamedFrom new.name) old.columns new.columns []

/-- The plan for a table. -/
theorem diffTable_ok {old new : TableSchemaSnapshot (StoredValue D J)} {ops : List (MigrationOp (StoredValue D J))}
    (run : diffTable schema old new = .ok ops) :
    ops = tableOps new.name (tableSources schema old new) old.columns old.indexes new.indexes := by
  obtain ⟨columns, run, rest⟩ := bind_eq_ok.mp run
  obtain ⟨⟨first, all⟩, looped, run⟩ := bind_eq_ok.mp run
  cases run
  cases rest
  obtain ⟨rfl, consumed⟩ := diffCompiledColumns_ok looped
  dsimp only at consumed ⊢
  rw [consumed, List.nil_append, tableOps]
  refine congrArg (fun dropped => _ ++ List.map _ dropped ++ _) (List.filter_congr fun c _ => congrArg not ?_)
  rw [Bool.eq_iff_iff, List.contains_iff_mem, List.mem_filterMap, survives, List.any_eq_true]
  refine exists_congr fun e => and_congr_right fun _ => ?_
  rw [Option.map_eq_some_iff, Option.any_eq_true]
  exact exists_congr fun source => and_congr_right fun _ => beq_iff_eq.symm

end Diff
end WasmDbms
