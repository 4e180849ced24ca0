import Mathlib.Data.List.Nodup
import WasmDbms.Lib.StableSort
import WasmDbms.Migration.Sources

/-!
# The plan for a table

The plan for a table, in the order it is applied in, makes of each stored column that is
kept the compiled one that stands for it, but with its old default, and adds the others
at the end. The same goes for the indexes.
-/
namespace WasmDbms

/-! ## What the operations make of a snapshot -/

section Edits
variable {V : Type}

namespace MigrationOp

/-- What an operation makes of the columns of its table. -/
def editedColumns (cols : List (ColumnSnapshot V)) : MigrationOp V → List (ColumnSnapshot V)
  | addColumn _ column => cols ++ [column]
  | dropColumn _ column => cols.filter fun c => c.name != column
  | renameColumn _ old new => editColumn old (fun c => { c with name := new }) cols
  | alterColumn _ column changes => editColumn column changes.apply cols
  | widenColumn _ column _ newType | transformColumn _ column _ newType =>
      editColumn column (fun c => { c with dataType := newType }) cols
  | _ => cols

/-- What an operation makes of the indexes of its table. -/
def editedIndexes (indexes : List IndexSnapshot) : MigrationOp V → List IndexSnapshot
  | addIndex _ index => if indexes.contains index then indexes else indexes ++ [index]
  | dropIndex _ index => indexes.filter fun i => i != index
  | _ => indexes

/-- What an operation makes of one column. -/
def editedColumn (c : ColumnSnapshot V) : MigrationOp V → ColumnSnapshot V
  | renameColumn _ old new => if c.name = old then { c with name := new } else c
  | alterColumn _ column changes => if c.name = column then changes.apply c else c
  | widenColumn _ column _ newType | transformColumn _ column _ newType =>
      if c.name = column then { c with dataType := newType } else c
  | _ => c

/-- The column that an operation alters or converts. -/
def revises : MigrationOp V → Option String
  | alterColumn _ column _ | widenColumn _ column .. | transformColumn _ column .. => some column
  | _ => none

theorem edit_eq (s : TableSchemaSnapshot V) (op : MigrationOp V) :
    op.edit s = { s with columns := op.editedColumns s.columns, indexes := op.editedIndexes s.indexes } := by
  cases op with
  | addIndex table index =>
      rw [edit, editedIndexes]
      split <;> rfl
  | _ => rfl

theorem foldl_edit (s : TableSchemaSnapshot V) (ops : List (MigrationOp V)) :
    ops.foldl edit s = { s with columns := ops.foldl editedColumns s.columns, indexes := ops.foldl editedIndexes s.indexes } := by
  induction ops generalizing s with
  | nil => rfl
  | cons op ops ih => rw [List.foldl_cons, ih, edit_eq, List.foldl_cons, List.foldl_cons]

end MigrationOp

theorem editColumn_eq_map {cols : List (ColumnSnapshot V)} (distinct : (cols.map ColumnSnapshot.name).Nodup)
    (column : String) (f : ColumnSnapshot V → ColumnSnapshot V) :
    editColumn column f cols = cols.map fun c => if c.name = column then f c else c := by
  induction cols with
  | nil => rfl
  | cons c cols ih =>
      rw [List.map_cons, List.nodup_cons] at distinct
      rw [editColumn, List.map_cons]
      by_cases own : c.name = column
      · rw [if_pos (beq_iff_eq.mpr own), if_pos own]
        refine congrArg (f c :: ·) (((List.map_congr_left fun d listed => ?_).trans (List.map_id cols)).symm)
        exact if_neg fun same => distinct.1 (List.mem_map.mpr ⟨d, listed, same.trans own.symm⟩)
      · rw [if_neg (by simpa using own), if_neg own, ih distinct.2]

open MigrationOp

section Columns
variable {cols : List (ColumnSnapshot V)} {c : ColumnSnapshot V} {ops : List (MigrationOp V)}

theorem editedColumn_of_revises {op : MigrationOp V} {column : String} (revised : op.revises = some column) :
    (op.editedColumn c).name = c.name ∧ (c.name ≠ column → op.editedColumn c = c) := by
  cases op with
  | alterColumn table column' changes =>
      cases revised
      rw [editedColumn]
      split
      next own => exact ⟨rfl, fun other => absurd own other⟩
      next => exact ⟨rfl, fun _ => rfl⟩
  | widenColumn table column' oldType newType =>
      cases revised
      rw [editedColumn]
      split
      next own => exact ⟨rfl, fun other => absurd own other⟩
      next => exact ⟨rfl, fun _ => rfl⟩
  | transformColumn table column' oldType newType =>
      cases revised
      rw [editedColumn]
      split
      next own => exact ⟨rfl, fun other => absurd own other⟩
      next => exact ⟨rfl, fun _ => rfl⟩
  | _ => cases revised

/-- Operations on other columns leave a column as it is. -/
theorem foldl_editedColumn_other (others : ∀ op ∈ ops, ∃ column, op.revises = some column ∧ c.name ≠ column) :
    ops.foldl editedColumn c = c := by
  induction ops with
  | nil => rfl
  | cons op ops ih =>
      obtain ⟨⟨column, revised, other⟩, others⟩ := List.forall_mem_cons.mp others
      rw [List.foldl_cons, (editedColumn_of_revises revised).2 other, ih others]

theorem foldl_editedColumn_name (revised : ∀ op ∈ ops, ∃ column, op.revises = some column) :
    (ops.foldl editedColumn c).name = c.name := by
  induction ops generalizing c with
  | nil => rfl
  | cons op ops ih =>
      obtain ⟨⟨column, first⟩, revised⟩ := List.forall_mem_cons.mp revised
      rw [List.foldl_cons, ih revised, (editedColumn_of_revises first).1]

theorem editedColumns_of_revises (distinct : (cols.map ColumnSnapshot.name).Nodup) {op : MigrationOp V} {column : String}
    (revised : op.revises = some column) : op.editedColumns cols = cols.map op.editedColumn := by
  cases op with
  | alterColumn | widenColumn | transformColumn => exact editColumn_eq_map distinct _ _
  | _ => cases revised

theorem map_editedColumn_names (cols : List (ColumnSnapshot V)) {op : MigrationOp V} {column : String} (revised : op.revises = some column) :
    (cols.map op.editedColumn).map ColumnSnapshot.name = cols.map ColumnSnapshot.name := by
  rw [List.map_map]
  exact List.map_congr_left fun c _ => (editedColumn_of_revises revised).1

/-- Columns are altered and converted one by one. -/
theorem foldl_revisions (distinct : (cols.map ColumnSnapshot.name).Nodup)
    (revised : ∀ op ∈ ops, ∃ column, op.revises = some column) :
    ops.foldl editedColumns cols = cols.map fun c => ops.foldl editedColumn c := by
  induction ops generalizing cols with
  | nil => exact (List.map_id cols).symm
  | cons op ops ih =>
      obtain ⟨⟨column, first⟩, revised⟩ := List.forall_mem_cons.mp revised
      have names := map_editedColumn_names cols first
      rw [List.foldl_cons, editedColumns_of_revises distinct first, ih (by rw [names]; exact distinct) revised, List.map_map]
      rfl

/-- Of operations that are keyed by distinct names, only those under its own name act on a
column. -/
theorem foldl_editedColumn_own {E : Type} {entries : List E} {key : E → String} {opsOf : E → List (MigrationOp V)}
    (distinct : (entries.map key).Nodup) (keyed : ∀ e ∈ entries, ∀ op ∈ opsOf e, op.revises = some (key e))
    {e : E} (member : e ∈ entries) (named : c.name = key e) :
    (entries.flatMap opsOf).foldl editedColumn c = (opsOf e).foldl editedColumn c := by
  induction entries generalizing c with
  | nil => cases member
  | cons first entries ih =>
      rw [List.map_cons, List.nodup_cons] at distinct
      obtain ⟨own, rest⟩ := List.forall_mem_cons.mp keyed
      rw [List.flatMap_cons, List.foldl_append]
      rcases List.mem_cons.mp member with rfl | later
      · refine foldl_editedColumn_other fun op inside => ?_
        obtain ⟨e', listed, inside⟩ := List.mem_flatMap.mp inside
        refine ⟨key e', rest e' listed op inside, fun same => distinct.1 ?_⟩
        rw [foldl_editedColumn_name fun op inside => ⟨_, own op inside⟩, named] at same
        exact same ▸ List.mem_map_of_mem listed
      · rw [foldl_editedColumn_other fun op inside => ⟨key first, own op inside, fun same => distinct.1 ?_⟩]
        · exact ih distinct.2 rest later named
        · rw [← same, named]
          exact List.mem_map_of_mem later

end Columns
end Edits

/-! ## Renamed columns -/

section Renames
variable {V : Type} {table : String} {cols : List (ColumnSnapshot V)} {c : ColumnSnapshot V}
  {pairs later : List (String × String)}

open MigrationOp

def renameOps (V : Type) (table : String) (pairs : List (String × String)) : List (MigrationOp V) :=
  pairs.map fun r => .renameColumn table r.1 r.2

/-- The new names are not among the old ones, and distinct. -/
theorem foldl_renames (distinct : (cols.map ColumnSnapshot.name).Nodup) (fresh : ∀ r ∈ pairs, ∀ c ∈ cols, c.name ≠ r.2)
    (once : (pairs.map Prod.snd).Nodup) :
    (renameOps V table pairs).foldl editedColumns cols = cols.map fun c => (renameOps V table pairs).foldl editedColumn c := by
  induction pairs generalizing cols with
  | nil => exact (List.map_id cols).symm
  | cons r pairs ih =>
      rw [List.map_cons, List.nodup_cons] at once
      obtain ⟨unused, fresh⟩ := List.forall_mem_cons.mp fresh
      have step : editedColumns cols (.renameColumn table r.1 r.2) = cols.map fun c => editedColumn c (.renameColumn table r.1 r.2) :=
        editColumn_eq_map distinct _ _
      have named : ∀ c : ColumnSnapshot V, (editedColumn c (.renameColumn table r.1 r.2)).name =
          if c.name = r.1 then r.2 else c.name := by
        intro c
        rw [editedColumn]
        split <;> rfl
      have distinct' : ((cols.map fun c => editedColumn c (.renameColumn table r.1 r.2)).map ColumnSnapshot.name).Nodup := by
        rw [List.map_map]
        refine (List.Nodup.of_map _ distinct).map_on fun c here d there same => ?_
        rw [Function.comp_apply, Function.comp_apply, named, named] at same
        refine List.inj_on_of_nodup_map distinct here there ?_
        split at same
        next own =>
          split at same
          next own' => exact own.trans own'.symm
          next => exact absurd same.symm (unused d there)
        next =>
          split at same
          next => exact absurd same (unused c here)
          next => exact same
      show (renameOps V table pairs).foldl editedColumns (editedColumns cols (.renameColumn table r.1 r.2)) = _
      rw [step, ih distinct' ?_ once.2, List.map_map]
      · rfl
      · intro r' inside
        refine List.forall_mem_map.mpr fun c here => ?_
        rw [named]
        split
        · exact fun same => once.1 (same ▸ List.mem_map_of_mem inside)
        · exact fresh r' inside c here

theorem foldl_renames_other (others : ∀ r ∈ pairs, r.1 ≠ c.name) : (renameOps V table pairs).foldl editedColumn c = c := by
  induction pairs with
  | nil => rfl
  | cons r pairs ih =>
      obtain ⟨other, others⟩ := List.forall_mem_cons.mp others
      show (renameOps V table pairs).foldl editedColumn (editedColumn c (.renameColumn table r.1 r.2)) = c
      rw [editedColumn, if_neg (Ne.symm other), ih others]

theorem foldl_renames_own {new : String} (before : ∀ r ∈ pairs, r.1 ≠ c.name) (after : ∀ r ∈ later, r.1 ≠ new) :
    (renameOps V table (pairs ++ (c.name, new) :: later)).foldl editedColumn c = { c with name := new } := by
  have split : renameOps V table (pairs ++ (c.name, new) :: later) =
      renameOps V table pairs ++ .renameColumn table c.name new :: renameOps V table later := by
    rw [renameOps, List.map_append, List.map_cons]
    rfl
  rw [split, List.foldl_append, foldl_renames_other before, List.foldl_cons, editedColumn, if_pos rfl]
  exact foldl_renames_other after

end Renames

/-! ## The order of the plan -/

section Ranks
variable {V : Type} {table : String} {e : ColumnSnapshot V × Option (ColumnSnapshot V)}

open MigrationOp

/-- The operations of a rank. -/
def rankOps (k : ℕ) (ops : List (MigrationOp V)) : List (MigrationOp V) := ops.filter fun op => opPriority op == k

theorem opPriority_lt (op : MigrationOp V) : opPriority op < 11 := by
  cases op with
  | alterColumn table column changes =>
      rw [opPriority]
      split <;> decide
  | _ =>
      rw [opPriority]
      decide

/-- A plan is applied rank after rank. -/
theorem orderOps_eq (ops : List (MigrationOp V)) : orderOps ops = (List.range 11).flatMap fun k => rankOps k ops :=
  StableSort.mergeSort_rank fun op _ => opPriority_lt op

theorem rankOps_append (k : ℕ) (ops later : List (MigrationOp V)) :
    rankOps k (ops ++ later) = rankOps k ops ++ rankOps k later :=
  List.filter_append _ _

theorem rankOps_flatMap {E : Type} (k : ℕ) (entries : List E) (opsOf : E → List (MigrationOp V)) :
    rankOps k (entries.flatMap opsOf) = entries.flatMap fun e => rankOps k (opsOf e) := List.filter_flatMap

theorem rankOps_eq_self {k : ℕ} {ops : List (MigrationOp V)} (all : ∀ op ∈ ops, opPriority op = k) : rankOps k ops = ops :=
  List.filter_eq_self.mpr fun op member => beq_iff_eq.mpr (all op member)

theorem rankOps_eq_nil {k : ℕ} {ops : List (MigrationOp V)} (none_ : ∀ op ∈ ops, opPriority op ≠ k) : rankOps k ops = [] :=
  List.filter_eq_nil_iff.mpr fun op member same => none_ op member (beq_iff_eq.mp same)

/-- A pair of columns is altered or converted, under the compiled name. -/
theorem diffColumnPair_revises {source col : ColumnSnapshot V} {op : MigrationOp V} (member : op ∈ diffColumnPair table source col) :
    op.revises = some col.name ∧ opPriority op ∈ [4, 5, 6, 8] := by
  unfold diffColumnPair at member
  rcases List.mem_append.mp member with member | member
  · split at member
    · split at member
      · cases List.mem_singleton.mp member
        refine ⟨rfl, ?_⟩
        rw [opPriority]
        decide
      · cases List.mem_singleton.mp member
        refine ⟨rfl, ?_⟩
        rw [opPriority]
        decide
    · cases member
  · split at member
    · cases member
    · cases List.mem_singleton.mp member
      refine ⟨rfl, ?_⟩
      rw [opPriority]
      split <;> decide

/-- The new name of a column that is renamed. -/
def newName (e : ColumnSnapshot V × Option (ColumnSnapshot V)) : Option (String × String) :=
  e.2.bind fun source => if source.name = e.1.name then none else some (source.name, e.1.name)

theorem rank_renames : rankOps 3 (columnOps table e) = renameOps V table (newName e).toList := by
  obtain ⟨col, source⟩ := e
  cases source with
  | none => rfl
  | some c =>
      rw [columnOps, rankOps_append]
      dsimp only
      have revisions : rankOps 3 (diffColumnPair table c col) = [] := rankOps_eq_nil fun op member same => by
        have ranks := (diffColumnPair_revises member).2
        rw [same] at ranks
        exact absurd ranks (by decide)
      rw [revisions, List.append_nil, newName, Option.bind_some]
      split <;> rfl

theorem rank_adds : rankOps 7 (columnOps table e) = if e.2.isNone then [.addColumn table e.1] else [] := by
  obtain ⟨col, source⟩ := e
  cases source with
  | none => rfl
  | some c =>
      refine rankOps_eq_nil fun op member same => ?_
      rcases List.mem_append.mp member with member | member
      · split at member
        · cases member
        · cases List.mem_singleton.mp member
          cases same
      · have ranks := (diffColumnPair_revises member).2
        rw [same] at ranks
        exact absurd ranks (by decide)

/-- What is ranked elsewhere alters and converts. -/
theorem rank_revises {k : ℕ} (rank : k ≠ 3 ∧ k ≠ 7) {op : MigrationOp V} (member : op ∈ rankOps k (columnOps table e)) :
    op.revises = some e.1.name ∧ k ∈ [4, 5, 6, 8] := by
  obtain ⟨member, own⟩ := List.mem_filter.mp member
  have own := beq_iff_eq.mp own
  obtain ⟨col, source⟩ := e
  cases source with
  | none =>
      cases List.mem_singleton.mp member
      exact absurd own.symm rank.2
  | some c =>
      rcases List.mem_append.mp member with member | member
      · split at member
        · cases member
        · cases List.mem_singleton.mp member
          exact absurd own.symm rank.1
      · rw [← own]
        exact diffColumnPair_revises member

theorem rank_nil {k : ℕ} (rank : k ∉ [3, 4, 5, 6, 7, 8]) : rankOps k (columnOps table e) = [] := by
  refine List.eq_nil_iff_forall_not_mem.mpr fun op member => ?_
  have other : k ≠ 3 ∧ k ≠ 7 := ⟨fun same => rank (by simp [same]), fun same => rank (by simp [same])⟩
  have ranks := (rank_revises other member).2
  simp only [List.mem_cons, List.not_mem_nil, or_false] at ranks rank
  omega

theorem apply_columnFlagDelta (c col : ColumnSnapshot V) (name : String) (type : DataTypeSnapshot) :
    (columnFlagDelta c col).apply { c with name := name, dataType := type } =
      { col with name := name, dataType := type, default := c.default } := by
  have known : ∀ {α : Type} [DecidableEq α] (a b : α), (changed a b).getD a = b := by
    intro α _ a b
    unfold changed
    split
    · rfl
    next same => exact not_not.mp same
  simp only [ColumnChanges.apply, columnFlagDelta, known]

theorem columnFlagDelta_isEmpty {c col : ColumnSnapshot V} (same : (columnFlagDelta c col).isEmpty = true) (name : String)
    (type : DataTypeSnapshot) :
    { c with name := name, dataType := type } = { col with name := name, dataType := type, default := c.default } := by
  have unchanged : ∀ d : ColumnSnapshot V, (columnFlagDelta c col).apply d = d := by
    intro d
    simp only [ColumnChanges.isEmpty, Bool.and_eq_true, Option.isNone_iff_eq_none] at same
    simp only [ColumnChanges.apply, same, Option.getD_none]
  exact (unchanged _).symm.trans (apply_columnFlagDelta c col name type)

theorem rank_pair {c col : ColumnSnapshot V} {k : ℕ} (rank : k ≠ 3) :
    rankOps k (columnOps table (col, some c)) = rankOps k (diffColumnPair table c col) := by
  rw [columnOps]
  dsimp only
  rw [rankOps_append, rankOps_eq_nil, List.nil_append]
  intro op member same
  split at member
  · cases member
  · cases List.mem_singleton.mp member
    exact rank same.symm

/-- The type of a column is converted in rank 5 or 6. -/
theorem foldl_converts {c col x : ColumnSnapshot V} (named : x.name = col.name) (typed : x.dataType = c.dataType) :
    (rankOps 6 (columnOps table (col, some c))).foldl editedColumn
        ((rankOps 5 (columnOps table (col, some c))).foldl editedColumn x) =
      { x with dataType := col.dataType } := by
  have alters : ∀ k, k ≠ 4 → k ≠ 8 → rankOps (V := V) k (if (columnFlagDelta c col).isEmpty then []
      else [MigrationOp.alterColumn table col.name (columnFlagDelta c col)]) = [] := by
    intro k apart apart'
    refine rankOps_eq_nil fun op member => ?_
    split at member
    · cases member
    · cases List.mem_singleton.mp member
      rw [opPriority]
      split
      · exact apart.symm
      · exact apart'.symm
  have five := alters 5 (by decide) (by decide)
  have six := alters 6 (by decide) (by decide)
  rw [rank_pair (by decide), rank_pair (by decide), diffColumnPair.eq_def, rankOps_append, rankOps_append, five, six,
    List.append_nil, List.append_nil]
  by_cases same : c.dataType = col.dataType
  · rw [if_neg (not_not.mpr same), ← same, ← typed]
    rfl
  · rw [if_pos same]
    split
    · show editedColumn x (.widenColumn table col.name c.dataType col.dataType) = _
      rw [editedColumn, if_pos named]
    · show editedColumn x (.transformColumn table col.name c.dataType col.dataType) = _
      rw [editedColumn, if_pos named]

/-- The flags of a column are altered in rank 4, or else in rank 8. -/
theorem rank_alters (table : String) (c col : ColumnSnapshot V) {k : ℕ} (rank : k = 4 ∨ k = 8) :
    rankOps k (columnOps table (col, some c)) =
      if !(columnFlagDelta c col).isEmpty && (isRelaxation (columnFlagDelta c col) == decide (k = 4)) then
        [.alterColumn table col.name (columnFlagDelta c col)] else [] := by
  have converts : rankOps (V := V) k (if c.dataType ≠ col.dataType then
      if isWidening c.dataType col.dataType then [MigrationOp.widenColumn table col.name c.dataType col.dataType]
      else [.transformColumn table col.name c.dataType col.dataType] else []) = [] := by
    refine rankOps_eq_nil fun op member => ?_
    split at member
    · split at member
      · cases List.mem_singleton.mp member
        rcases rank with rfl | rfl <;> exact Nat.ne_of_beq_eq_false rfl
      · cases List.mem_singleton.mp member
        rcases rank with rfl | rfl <;> exact Nat.ne_of_beq_eq_false rfl
    · cases member
  rw [rank_pair (by rcases rank with rfl | rfl <;> decide), diffColumnPair.eq_def, rankOps_append, converts, List.nil_append]
  split
  next empty => simp [empty, rankOps]
  next altered =>
    rw [rankOps, List.filter_singleton, opPriority]
    rcases rank with rfl | rfl
    · cases isRelaxation (columnFlagDelta c col) <;> simp [altered]
    · cases isRelaxation (columnFlagDelta c col) <;> simp [altered]

/-- A stored column becomes the compiled one it is paired with, but keeps its default. -/
theorem foldl_columnOps {c col : ColumnSnapshot V} :
    (rankOps 8 (columnOps table (col, some c))).foldl editedColumn
      ((rankOps 6 (columnOps table (col, some c))).foldl editedColumn
        ((rankOps 5 (columnOps table (col, some c))).foldl editedColumn
          ((rankOps 4 (columnOps table (col, some c))).foldl editedColumn { c with name := col.name }))) =
      { col with default := c.default } := by
  obtain ⟨x, renamed⟩ : ∃ x : ColumnSnapshot V, x = { c with name := col.name } := ⟨_, rfl⟩
  have named : x.name = col.name := by rw [renamed]
  have typed : x.dataType = c.dataType := by rw [renamed]
  have four := rank_alters table c col (.inl rfl)
  have eight := rank_alters table c col (.inr rfl)
  have altered : ∀ y : ColumnSnapshot V, y.name = col.name →
      editedColumn y (.alterColumn table col.name (columnFlagDelta c col)) = (columnFlagDelta c col).apply y := by
    intro y own
    rw [editedColumn, if_pos own]
  rw [← renamed]
  by_cases empty : (columnFlagDelta c col).isEmpty = true
  · rw [if_neg (by simp [empty])] at four eight
    rw [four, eight, List.foldl_nil, List.foldl_nil, foldl_converts named typed, renamed]
    exact columnFlagDelta_isEmpty empty col.name col.dataType
  · rw [Bool.not_eq_true] at empty
    by_cases early : isRelaxation (columnFlagDelta c col) = true
    · rw [if_pos (by simp [empty, early])] at four
      rw [if_neg (by simp [early])] at eight
      have named' : ((columnFlagDelta c col).apply x).name = col.name := named
      have typed' : ((columnFlagDelta c col).apply x).dataType = c.dataType := typed
      rw [four, eight, List.foldl_cons, List.foldl_nil, List.foldl_nil, altered x named, foldl_converts named' typed', renamed]
      exact congrArg (fun y : ColumnSnapshot V => { y with dataType := col.dataType })
        (apply_columnFlagDelta c col col.name c.dataType)
    · rw [Bool.not_eq_true] at early
      rw [if_neg (by simp [early])] at four
      rw [if_pos (by simp [empty, early])] at eight
      have named' : ({ x with dataType := col.dataType } : ColumnSnapshot V).name = col.name := named
      rw [four, eight, List.foldl_nil, List.foldl_cons, List.foldl_nil, foldl_converts named typed, altered _ named', renamed]
      exact apply_columnFlagDelta c col col.name col.dataType

end Ranks

/-! ## The columns after the plan -/

section Carried
variable {V : Type} {renamedFrom : String → List String} {table : String} {stored cols : List (ColumnSnapshot V)}
  {c : ColumnSnapshot V} {entries : List (ColumnSnapshot V × Option (ColumnSnapshot V))}

open MigrationOp

/-- A kept column is the source of a first entry. -/
theorem first_entry (distinct : (stored.map ColumnSnapshot.name).Nodup) (within : ∀ e ∈ entries, ∀ s, e.2 = some s → s ∈ stored)
    (listed : c ∈ stored) (kept : survives entries c = true) :
    ∃ before e later, entries = before ++ e :: later ∧ e.2 = some c ∧
      (∀ e' ∈ before, ∀ s, e'.2 = some s → s.name ≠ c.name) ∧ carried entries c = { e.1 with default := c.default } := by
  obtain ⟨e', member, own⟩ := List.any_eq_true.mp kept
  cases found : entries.find? fun e => e.2.any fun source => source.name == c.name with
  | none => exact absurd own (List.find?_eq_none.mp found e' member)
  | some e =>
      obtain ⟨own, before, later, rfl, first⟩ := List.find?_eq_some_iff_append.mp found
      obtain ⟨source, here, named⟩ := Option.any_eq_true _ _ |>.mp own
      have inside := within e (List.mem_append_right _ List.mem_cons_self) source here
      obtain rfl := List.inj_on_of_nodup_map distinct inside listed (beq_iff_eq.mp named)
      refine ⟨before, e, later, rfl, here, fun e' earlier s source' same => ?_, ?_⟩
      · have other := first e' earlier
        rw [source', Option.any_some, same, BEq.refl] at other
        cases other
      · rw [carried, found]

theorem mem_newNames {r : String × String} (member : r ∈ entries.filterMap newName) :
    ∃ e ∈ entries, ∃ s, e.2 = some s ∧ s.name ≠ e.1.name ∧ r = (s.name, e.1.name) := by
  obtain ⟨e, inside, renamed⟩ := List.mem_filterMap.mp member
  obtain ⟨s, source, named⟩ := Option.bind_eq_some_iff.mp renamed
  split at named
  · cases named
  next other =>
    cases named
    exact ⟨e, inside, s, source, other, rfl⟩

theorem newNames_nodup (distinct : (entries.map fun e => e.1.name).Nodup) :
    ((entries.filterMap newName).map Prod.snd).Nodup := by
  rw [List.Nodup, List.pairwise_map, List.pairwise_filterMap]
  refine (List.pairwise_map.mp distinct).imp fun {a b} apart r first r' second => ?_
  have ends : ∀ {e : ColumnSnapshot V × Option (ColumnSnapshot V)} {r}, newName e = some r → r.2 = e.1.name := by
    intro e r renamed
    have inside : r ∈ [e].filterMap newName := List.mem_filterMap.mpr ⟨e, List.mem_cons_self, renamed⟩
    obtain ⟨e', member, _, _, _, rfl⟩ := mem_newNames inside
    rw [List.mem_singleton.mp member]
  rw [ends first, ends second]
  exact apart

/-- A kept column gets the name of the first column that stands for it. -/
theorem foldl_newNames (table : String) {before later : List (ColumnSnapshot V × Option (ColumnSnapshot V))}
    {e : ColumnSnapshot V × Option (ColumnSnapshot V)}
    (split : sources renamedFrom stored cols [] = before ++ e :: later) (source : e.2 = some c)
    (first : ∀ e' ∈ before, ∀ s, e'.2 = some s → s.name ≠ c.name) :
    (renameOps V table ((sources renamedFrom stored cols []).filterMap newName)).foldl editedColumn c =
      { c with name := e.1.name } := by
  have member : e ∈ sources renamedFrom stored cols [] := split ▸ List.mem_append_right _ List.mem_cons_self
  have pairs : (sources renamedFrom stored cols []).filterMap newName =
      before.filterMap newName ++ ((newName e).toList ++ later.filterMap newName) := by
    rw [split, List.filterMap_append, List.filterMap_cons]
    cases newName e <;> rfl
  have earlier : ∀ r ∈ before.filterMap newName, r.1 ≠ c.name := by
    intro r inside
    obtain ⟨e', here, s, source', _, rfl⟩ := mem_newNames inside
    exact first e' here s source'
  by_cases same : c.name = e.1.name
  · have unnamed : newName e = none := by rw [newName, source, Option.bind_some, if_pos same]
    rw [pairs, unnamed, Option.toList_none, List.nil_append, ← same]
    refine foldl_renames_other fun r inside => ?_
    rcases List.mem_append.mp inside with inside | inside
    · exact earlier r inside
    · obtain ⟨e', here, s, source', other, rfl⟩ := mem_newNames inside
      intro named
      have pairwise := sources_pairwise renamedFrom stored cols []
      rw [split, List.pairwise_append, List.pairwise_cons] at pairwise
      exact other (pairwise.2.1.1 e' here c s source source' named.symm)
  · have named : newName e = some (c.name, e.1.name) := by rw [newName, source, Option.bind_some, if_neg same]
    rw [pairs, named]
    refine foldl_renames_own earlier fun r inside => ?_
    obtain ⟨e', here, s, source', _, rfl⟩ := mem_newNames inside
    have listed := (source_of_mem (split ▸ List.mem_append_right _ (List.mem_cons_of_mem _ here)) source').1
    rcases (source_of_mem member source).2 with own | ⟨_, fresh⟩
    · exact absurd own same
    · exact fresh s listed

/-- Kept columns become distinct columns. -/
theorem carried_names (distinct : (stored.map ColumnSnapshot.name).Nodup) (once : (entries.map fun e => e.1.name).Nodup)
    (within : ∀ e ∈ entries, ∀ s, e.2 = some s → s ∈ stored) :
    (((stored.filter (survives entries)).map (carried entries) ++
      (entries.filter fun e => e.2.isNone).map Prod.fst).map ColumnSnapshot.name).Nodup := by
  have entry : ∀ c ∈ stored.filter (survives entries), ∃ e ∈ entries, e.2 = some c ∧ (carried entries c).name = e.1.name := by
    intro c listed
    obtain ⟨listed, kept⟩ := List.mem_filter.mp listed
    obtain ⟨before, e, later, rfl, source, _, same⟩ := first_entry distinct within listed kept
    exact ⟨e, List.mem_append_right _ List.mem_cons_self, source, by rw [same]⟩
  rw [List.map_append, List.map_map, List.map_map, List.nodup_append]
  refine ⟨?_, once.sublist (List.filter_sublist.map _), ?_⟩
  · refine (List.Nodup.of_map _ (distinct.sublist (List.filter_sublist.map _))).map_on fun c here d there same => ?_
    obtain ⟨e, member, source, named⟩ := entry c here
    obtain ⟨e', member', source', named'⟩ := entry d there
    rw [Function.comp_apply, Function.comp_apply, named, named'] at same
    have equal := List.inj_on_of_nodup_map once member member' same
    rw [equal, source'] at source
    exact (Option.some.inj source).symm
  · intro n first n' second same
    obtain ⟨c, here, rfl⟩ := List.mem_map.mp first
    obtain ⟨e', there, rfl⟩ := List.mem_map.mp second
    obtain ⟨e, member, source, named⟩ := entry c here
    obtain ⟨member', none_⟩ := List.mem_filter.mp there
    rw [Function.comp_apply, named] at same
    have equal := List.inj_on_of_nodup_map once member member' same
    rw [← equal, source] at none_
    cases none_

end Carried

/-! ## The plan for a table, in order -/

section Ordered
variable {V : Type} {renamedFrom : String → List String} {table : String} {stored cols : List (ColumnSnapshot V)}
  {old new : List IndexSnapshot}

open MigrationOp

theorem rankOps_tableOps (k : ℕ) (entries : List (ColumnSnapshot V × Option (ColumnSnapshot V))) :
    rankOps k (tableOps table entries stored old new) = (entries.flatMap fun e => rankOps k (columnOps table e)) ++
      (if k = 2 then (stored.filter fun c => !survives entries c).map fun c => .dropColumn table c.name else []) ++
      rankOps k (diffIndexes table old new) := by
  rw [tableOps, rankOps_append, rankOps_append, rankOps_flatMap]
  congr 2
  split
  next same => exact rankOps_eq_self (List.forall_mem_map.mpr fun _ _ => same.symm)
  next other => exact rankOps_eq_nil (List.forall_mem_map.mpr fun _ _ => Ne.symm other)

/-- Indexes are dropped in rank 1 and added in rank 9. -/
theorem rankOps_diffIndexes (k : ℕ) : rankOps (V := V) k (diffIndexes table old new) =
    (if k = 9 then (new.filter fun c => !old.any fun s => indexEq s c).map (.addIndex table) else []) ++
      if k = 1 then (old.filter fun s => !new.any fun c => indexEq c s).map (.dropIndex table) else [] := by
  rw [diffIndexes, rankOps_append]
  congr 1
  · split
    next same => exact rankOps_eq_self (List.forall_mem_map.mpr fun _ _ => same.symm)
    next other => exact rankOps_eq_nil (List.forall_mem_map.mpr fun _ _ => Ne.symm other)
  · split
    next same => exact rankOps_eq_self (List.forall_mem_map.mpr fun _ _ => same.symm)
    next other => exact rankOps_eq_nil (List.forall_mem_map.mpr fun _ _ => Ne.symm other)

theorem range_eleven : List.range 11 = [0, 1, 2, 3, 4, 5, 6, 7, 8, 9, 10] := rfl

theorem foldl_drops {gone : List (ColumnSnapshot V)} :
    (gone.map fun c => MigrationOp.dropColumn table c.name).foldl editedColumns cols =
      cols.filter fun c => !gone.any fun g => g.name == c.name := by
  induction gone generalizing cols with
  | nil => exact (List.filter_eq_self.mpr fun _ _ => rfl).symm
  | cons g gone ih =>
      rw [List.map_cons, List.foldl_cons, ih, editedColumns, List.filter_filter]
      refine List.filter_congr fun c _ => ?_
      rw [List.any_cons, Bool.not_or, Bool.and_comm, bne, Bool.beq_comm]

theorem foldl_adds {added : List (ColumnSnapshot V)} :
    (added.map (MigrationOp.addColumn table)).foldl editedColumns cols = cols ++ added := by
  induction added generalizing cols with
  | nil => exact (List.append_nil _).symm
  | cons a added ih => rw [List.map_cons, List.foldl_cons, ih, editedColumns, List.append_assoc, List.singleton_append]

theorem flatMap_rank_adds {entries : List (ColumnSnapshot V × Option (ColumnSnapshot V))} :
    (entries.flatMap fun e => rankOps 7 (columnOps table e)) =
      ((entries.filter fun e => e.2.isNone).map Prod.fst).map (.addColumn table) := by
  induction entries with
  | nil => rfl
  | cons e entries ih =>
      rw [List.flatMap_cons, rank_adds, ih]
      by_cases added : e.2.isNone = true
      · rw [if_pos added, List.filter_cons, if_pos added]
        rfl
      · rw [if_neg added, List.filter_cons, if_neg added, List.nil_append]

theorem flatMap_rank_renames {entries : List (ColumnSnapshot V × Option (ColumnSnapshot V))} :
    (entries.flatMap fun e => rankOps 3 (columnOps table e)) = renameOps V table (entries.filterMap newName) := by
  induction entries with
  | nil => rfl
  | cons e entries ih =>
      rw [List.flatMap_cons, rank_renames, ih, List.filterMap_cons]
      cases newName e <;> rfl

/-- In the ranks 4, 5, 6 and 8, only the operations of its own entry act on a column. -/
theorem foldl_rank_own (table : String) {entries : List (ColumnSnapshot V × Option (ColumnSnapshot V))}
    (once : (entries.map fun e => e.1.name).Nodup) {k : ℕ} (rank : k ≠ 3 ∧ k ≠ 7)
    {e : ColumnSnapshot V × Option (ColumnSnapshot V)} (member : e ∈ entries) {x : ColumnSnapshot V} (named : x.name = e.1.name) :
    (entries.flatMap fun e => rankOps k (columnOps table e)).foldl editedColumn x =
        (rankOps k (columnOps table e)).foldl editedColumn x ∧
      ((rankOps k (columnOps table e)).foldl editedColumn x).name = e.1.name :=
  ⟨foldl_editedColumn_own once (fun _ _ _ inside => (rank_revises rank inside).1) member named,
    (foldl_editedColumn_name fun _ inside => ⟨_, (rank_revises rank inside).1⟩).trans named⟩

theorem foldl_diffIndexes (k : ℕ) (cols : List (ColumnSnapshot V)) :
    (rankOps k (diffIndexes table old new)).foldl editedColumns cols = cols := by
  have idle : ∀ op ∈ rankOps (V := V) k (diffIndexes table old new), ∀ cols, op.editedColumns cols = cols := by
    intro op member cols
    rcases List.mem_append.mp (List.mem_of_mem_filter member) with member | member
    · obtain ⟨_, _, rfl⟩ := List.mem_map.mp member
      rfl
    · obtain ⟨_, _, rfl⟩ := List.mem_map.mp member
      rfl
  generalize rankOps (V := V) k (diffIndexes table old new) = ops at idle
  induction ops with
  | nil => rfl
  | cons op ops ih =>
      obtain ⟨first, idle⟩ := List.forall_mem_cons.mp idle
      rw [List.foldl_cons, first, ih idle]

/-- What a rank of the plan does to the columns. -/
theorem foldl_rank (k : ℕ) (entries : List (ColumnSnapshot V × Option (ColumnSnapshot V))) :
    (rankOps k (tableOps table entries stored old new)).foldl editedColumns cols =
      (if k = 2 then (stored.filter fun c => !survives entries c).map fun c => .dropColumn table c.name else []).foldl
        editedColumns ((entries.flatMap fun e => rankOps k (columnOps table e)).foldl editedColumns cols) := by
  rw [rankOps_tableOps, List.foldl_append, List.foldl_append, foldl_diffIndexes]

theorem filter_survives (entries : List (ColumnSnapshot V × Option (ColumnSnapshot V))) :
    (stored.filter fun c => !(stored.filter fun c => !survives entries c).any fun g => g.name == c.name) =
      stored.filter (survives entries) := by
  refine List.filter_congr fun c listed => ?_
  rw [Bool.not_eq_eq_eq_not, Bool.eq_iff_iff, List.any_eq_true]
  constructor
  · rintro ⟨g, gone, named⟩
    have same : survives entries g = survives entries c := by rw [survives, survives, beq_iff_eq.mp named]
    rw [← same]
    exact (List.mem_filter.mp gone).2
  · exact fun gone => ⟨c, List.mem_filter.mpr ⟨listed, gone⟩, BEq.refl _⟩

section Rank
variable (table stored old new) {k : ℕ} {entries : List (ColumnSnapshot V × Option (ColumnSnapshot V))}

theorem foldl_rank_idle (rank : k ∉ [2, 3, 4, 5, 6, 7, 8]) :
    (rankOps k (tableOps table entries stored old new)).foldl editedColumns cols = cols := by
  rw [foldl_rank, if_neg fun same => rank (by simp [same]),
    List.flatMap_eq_nil_iff.mpr fun _ _ => rank_nil fun inside => rank (List.mem_cons_of_mem _ inside)]
  rfl

theorem foldl_rank_drops : (rankOps 2 (tableOps table entries stored old new)).foldl editedColumns stored =
    stored.filter (survives entries) := by
  rw [foldl_rank, if_pos rfl, List.flatMap_eq_nil_iff.mpr fun _ _ => rank_nil (by decide), List.foldl_nil, foldl_drops,
    filter_survives]

theorem foldl_rank_columns (rank : k ≠ 2) : (rankOps k (tableOps table entries stored old new)).foldl editedColumns cols =
    (entries.flatMap fun e => rankOps k (columnOps table e)).foldl editedColumns cols := by
  rw [foldl_rank, if_neg rank]
  rfl

theorem foldl_rank_adds : (rankOps 7 (tableOps table entries stored old new)).foldl editedColumns cols =
    cols ++ (entries.filter fun e => e.2.isNone).map Prod.fst := by
  rw [foldl_rank_columns table stored old new (by decide), flatMap_rank_adds, foldl_adds]

/-- In the ranks 4, 5, 6 and 8 columns are altered and converted one by one. -/
theorem foldl_rank_revises (entries : List (ColumnSnapshot V × Option (ColumnSnapshot V))) (rank : k ≠ 3 ∧ k ≠ 7)
    (rank' : k ≠ 2) (distinct : (cols.map ColumnSnapshot.name).Nodup) :
    (rankOps k (tableOps table entries stored old new)).foldl editedColumns cols =
        cols.map (fun c => (entries.flatMap fun e => rankOps k (columnOps table e)).foldl editedColumn c) ∧
      (cols.map fun c => (entries.flatMap fun e => rankOps k (columnOps table e)).foldl editedColumn c).map
        ColumnSnapshot.name = cols.map ColumnSnapshot.name := by
  have revised : ∀ op ∈ entries.flatMap fun e => rankOps k (columnOps table e), ∃ column, op.revises = some column := by
    intro op inside
    obtain ⟨e, _, inside⟩ := List.mem_flatMap.mp inside
    exact ⟨_, (rank_revises rank inside).1⟩
  refine ⟨(foldl_rank_columns table stored old new rank').trans (foldl_revisions distinct revised), ?_⟩
  rw [List.map_map]
  exact List.map_congr_left fun c _ => foldl_editedColumn_name revised

end Rank

section Sources
variable {consumed : List String}

theorem sources_within {e : ColumnSnapshot V × Option (ColumnSnapshot V)}
    (member : e ∈ sources renamedFrom stored cols consumed) : ∀ s, e.2 = some s → s ∈ stored :=
  fun _ source => (source_of_mem member source).1

variable (renamedFrom stored consumed) in
theorem sources_names (once : (cols.map ColumnSnapshot.name).Nodup) :
    ((sources renamedFrom stored cols consumed).map fun e => e.1.name).Nodup := by
  have named := congrArg (List.map ColumnSnapshot.name) (sources_fst renamedFrom stored cols consumed)
  rw [List.map_map] at named
  exact Eq.mpr (congrArg List.Nodup named) once

variable (renamedFrom table old new) in
/-- The kept columns are renamed. -/
theorem foldl_rank_renames (distinct : (stored.map ColumnSnapshot.name).Nodup) (once : (cols.map ColumnSnapshot.name).Nodup)
    {kept : List (ColumnSnapshot V)} (sub : kept.Sublist stored) :
    (rankOps 3 (tableOps table (sources renamedFrom stored cols []) stored old new)).foldl editedColumns kept =
      kept.map fun c => (renameOps V table ((sources renamedFrom stored cols []).filterMap newName)).foldl editedColumn c := by
  rw [foldl_rank_columns table stored old new (by decide), flatMap_rank_renames]
  refine foldl_renames (distinct.sublist (sub.map _)) (fun r inside c listed => ?_) (newNames_nodup (sources_names renamedFrom stored [] once))
  obtain ⟨e, member, s, source, other, rfl⟩ := mem_newNames inside
  rcases (source_of_mem member source).2 with own | ⟨_, fresh⟩
  · exact absurd own other
  · exact fresh c (sub.subset listed)

variable (table) in
/-- A kept column is renamed, and then altered and converted. -/
theorem carried_eq (distinct : (stored.map ColumnSnapshot.name).Nodup) (once : (cols.map ColumnSnapshot.name).Nodup)
    {c : ColumnSnapshot V} (listed : c ∈ stored) (kept : survives (sources renamedFrom stored cols []) c = true) :
    let entries := sources renamedFrom stored cols []
    let converted := fun k (c : ColumnSnapshot V) =>
      (entries.flatMap fun e => rankOps k (columnOps table e)).foldl editedColumn c
    ((renameOps V table (entries.filterMap newName)).foldl editedColumn c).name = (carried entries c).name ∧
      converted 8 (converted 6 (converted 5 (converted 4 ((renameOps V table (entries.filterMap newName)).foldl editedColumn c)))) =
        carried entries c := by
  obtain ⟨before, ⟨col, source⟩, later, split, rfl, first, same⟩ :=
    first_entry distinct (fun _ => sources_within) listed kept
  have renamed := foldl_newNames table split rfl first
  have member : (col, some c) ∈ sources renamedFrom stored cols [] := split ▸ List.mem_append_right _ List.mem_cons_self
  have once' := sources_names renamedFrom stored [] once
  have four := foldl_rank_own table once' (k := 4) (by decide) member (x := { c with name := col.name }) rfl
  have five := foldl_rank_own table once' (k := 5) (by decide) member four.2
  have six := foldl_rank_own table once' (k := 6) (by decide) member five.2
  have eight := foldl_rank_own table once' (k := 8) (by decide) member six.2
  dsimp only
  rw [renamed, four.1, five.1, six.1, eight.1, same]
  exact ⟨rfl, foldl_columnOps⟩

/-- What the plan makes of the columns of its table. -/
theorem foldl_editedColumns (distinct : (stored.map ColumnSnapshot.name).Nodup) (once : (cols.map ColumnSnapshot.name).Nodup) :
    (orderOps (tableOps table (sources renamedFrom stored cols []) stored old new)).foldl editedColumns stored =
      (stored.filter (survives (sources renamedFrom stored cols []))).map (carried (sources renamedFrom stored cols [])) ++
        ((sources renamedFrom stored cols []).filter fun e => e.2.isNone).map Prod.fst := by
  have entry : ∀ c ∈ stored.filter (survives (sources renamedFrom stored cols [])), _ := fun c listed =>
    carried_eq table distinct once (List.mem_of_mem_filter listed) (List.mem_filter.mp listed).2
  have renamed := foldl_rank_renames renamedFrom table old new distinct once
    (List.filter_sublist (p := survives (sources renamedFrom stored cols [])))
  obtain ⟨entries, made⟩ : ∃ entries, entries = sources renamedFrom stored cols [] := ⟨_, rfl⟩
  have names := carried_names distinct (sources_names renamedFrom stored [] once) fun e member => sources_within member
  rw [← made] at entry renamed names ⊢
  -- The kept columns have the names of the columns they become, which are distinct.
  have newNames := List.map_congr_left fun c listed => (entry c listed).1
  rw [List.map_append, List.map_map] at names
  have distinct₃ : (((stored.filter (survives entries)).map fun c =>
      (renameOps V table (entries.filterMap newName)).foldl editedColumn c).map ColumnSnapshot.name).Nodup := by
    rw [List.map_map]
    exact Eq.mpr (congrArg List.Nodup newNames) (List.nodup_append.mp names).1
  obtain ⟨four, names₄⟩ := foldl_rank_revises table stored old new entries (k := 4) (by decide) (by decide) distinct₃
  obtain ⟨five, names₅⟩ := foldl_rank_revises table stored old new entries (k := 5) (by decide) (by decide)
    (names₄ ▸ distinct₃)
  obtain ⟨six, names₆⟩ := foldl_rank_revises table stored old new entries (k := 6) (by decide) (by decide)
    (names₅ ▸ names₄ ▸ distinct₃)
  have last := congrArg (· ++ ((entries.filter fun e => e.2.isNone).map Prod.fst).map ColumnSnapshot.name)
    (names₆.trans (names₅.trans (names₄.trans ((List.map_map ..).trans newNames))))
  rw [← List.map_append] at last
  obtain ⟨eight, _⟩ := foldl_rank_revises table stored old new entries (k := 8) (by decide) (by decide)
    (Eq.mpr (congrArg List.Nodup last) names)
  rw [orderOps_eq, range_eleven]
  simp only [List.flatMap_cons, List.flatMap_nil, List.append_nil, List.foldl_append]
  rw [foldl_rank_idle table stored old new (k := 0) (by decide), foldl_rank_idle table stored old new (k := 1) (by decide),
    foldl_rank_drops, renamed, four, five, six, foldl_rank_adds, eight,
    foldl_rank_idle table stored old new (k := 9) (by decide), foldl_rank_idle table stored old new (k := 10) (by decide),
    List.map_append]
  refine congrArg₂ _ ?_ ?_
  · rw [List.map_map, List.map_map, List.map_map, List.map_map]
    exact List.map_congr_left fun c listed => (entry c listed).2
  · refine (List.map_congr_left fun c listed => ?_).trans (List.map_id _)
    obtain ⟨⟨col, source⟩, member, rfl⟩ := List.mem_map.mp listed
    obtain ⟨member, none_⟩ := List.mem_filter.mp member
    obtain rfl := Option.isNone_iff_eq_none.mp none_
    exact (foldl_rank_own table (made ▸ sources_names renamedFrom stored [] once) (k := 8) (by decide) member rfl).1

end Sources
end Ordered

/-! ## The indexes after the plan -/

section Indexes
variable {V : Type} {renamedFrom : String → List String} {table : String} {stored : List (ColumnSnapshot V)}
  {old new : List IndexSnapshot} {entries : List (ColumnSnapshot V × Option (ColumnSnapshot V))}

open MigrationOp

/-- An index that is equal to one of the list, in any order of its columns. -/
def hasIndex (indexes : List IndexSnapshot) (index : IndexSnapshot) : Bool := indexes.any fun i => indexEq i index

theorem indexEq_self (index : IndexSnapshot) : indexEq index index = true := by
  rw [indexEq, BEq.refl, BEq.refl]
  rfl

theorem indexEq_comm (a b : IndexSnapshot) : indexEq a b = indexEq b a := by
  rw [indexEq, indexEq, Bool.beq_comm (a := a.unique), Bool.beq_comm (a := List.mergeSort _ _)]

theorem hasIndex_of_mem {indexes : List IndexSnapshot} {index : IndexSnapshot} (member : index ∈ indexes) :
    hasIndex indexes index = true :=
  List.any_eq_true.mpr ⟨index, member, indexEq_self index⟩

theorem diffIndexes_eq : diffIndexes (V := V) table old new =
    (new.filter fun c => !hasIndex old c).map (.addIndex table) ++ (old.filter fun s => !hasIndex new s).map (.dropIndex table) := rfl

theorem foldl_indexes_columns {ops : List (MigrationOp V)} (others : ∀ op ∈ ops, ∀ indexes, op.editedIndexes indexes = indexes)
    (indexes : List IndexSnapshot) : ops.foldl editedIndexes indexes = indexes := by
  induction ops with
  | nil => rfl
  | cons op ops ih =>
      obtain ⟨first, others⟩ := List.forall_mem_cons.mp others
      rw [List.foldl_cons, first, ih others]

theorem columnOps_indexes {e : ColumnSnapshot V × Option (ColumnSnapshot V)} {op : MigrationOp V}
    (member : op ∈ columnOps table e) (indexes : List IndexSnapshot) : op.editedIndexes indexes = indexes := by
  obtain ⟨col, source⟩ := e
  cases source with
  | none =>
      cases List.mem_singleton.mp member
      rfl
  | some c =>
      rcases List.mem_append.mp member with member | member
      · split at member
        · cases member
        · cases List.mem_singleton.mp member
          rfl
      · have revised := (diffColumnPair_revises member).1
        cases op with
        | addIndex => cases revised
        | dropIndex => cases revised
        | _ => rfl

theorem foldl_dropIndexes {gone indexes : List IndexSnapshot} :
    (gone.map (MigrationOp.dropIndex (V := V) table)).foldl editedIndexes indexes = indexes.filter fun i => !gone.contains i := by
  induction gone generalizing indexes with
  | nil => exact (List.filter_eq_self.mpr fun _ _ => rfl).symm
  | cons g gone ih =>
      rw [List.map_cons, List.foldl_cons, ih, editedIndexes, List.filter_filter]
      refine List.filter_congr fun i _ => ?_
      rw [List.contains_cons, Bool.not_or, Bool.and_comm, bne]

/-- Indexes are added at the end, each once. -/
def addIndexes (indexes added : List IndexSnapshot) : List IndexSnapshot :=
  added.foldl (fun indexes index => if indexes.contains index then indexes else indexes ++ [index]) indexes

theorem foldl_addIndexes {added indexes : List IndexSnapshot} :
    (added.map (MigrationOp.addIndex (V := V) table)).foldl editedIndexes indexes = addIndexes indexes added := by
  rw [List.foldl_map]
  rfl

theorem addIndexes_eq (indexes added : List IndexSnapshot) :
    ∃ fresh, addIndexes indexes added = indexes ++ fresh ∧ fresh.Sublist added ∧ fresh.Nodup ∧ (∀ i ∈ fresh, i ∉ indexes) ∧
      (added.Nodup → (∀ i ∈ added, i ∉ indexes) → fresh = added) := by
  induction added generalizing indexes with
  | nil => exact ⟨[], (List.append_nil _).symm, .refl _, List.nodup_nil, fun _ member => (nomatch member), fun _ _ => rfl⟩
  | cons index added ih =>
      rw [addIndexes, List.foldl_cons]
      by_cases there : indexes.contains index = true
      · obtain ⟨fresh, same, sub, once, apart, _⟩ := ih indexes
        rw [if_pos there]
        refine ⟨fresh, same, sub.cons _, once, apart, fun _ others => ?_⟩
        exact absurd (List.contains_iff_mem.mp there) (others index List.mem_cons_self)
      · obtain ⟨fresh, same, sub, once, apart, all⟩ := ih (indexes ++ [index])
        rw [if_neg there]
        rw [List.append_assoc] at same
        refine ⟨index :: fresh, same, sub.cons_cons _, List.nodup_cons.mpr ⟨fun again => ?_, once⟩, ?_, fun distinct others => ?_⟩
        · exact apart index again (List.mem_append_right _ (List.mem_singleton_self index))
        · refine List.forall_mem_cons.mpr ⟨fun member => there (List.contains_iff_mem.mpr member), fun i later member => ?_⟩
          exact apart i later (List.mem_append_left _ member)
        · obtain ⟨first, distinct⟩ := List.nodup_cons.mp distinct
          refine congrArg (index :: ·) (all distinct fun i later member => ?_)
          rcases List.mem_append.mp member with member | last
          · exact others i (List.mem_cons_of_mem _ later) member
          · exact first (List.mem_singleton.mp last ▸ later)

/-- Kept indexes, and new ones behind them, are the compiled ones exactly when the kept
ones are those of the compiled ones that were stored, and each new one comes once. -/
theorem addIndexes_eq_iff (old new : List IndexSnapshot) : addIndexes (old.filter (hasIndex new)) (new.filter fun i => !hasIndex old i) = new ↔
    new.filter (hasIndex old) = old.filter (hasIndex new) ∧
      (new.Pairwise fun a b => hasIndex old b = true → hasIndex old a = true) ∧
      (new.filter fun i => !hasIndex old i).Nodup := by
  have partition := StableSort.filter_append_iff (l := new) (p := hasIndex old)
  obtain ⟨kept, isKept⟩ : ∃ kept, kept = old.filter (hasIndex new) := ⟨_, rfl⟩
  have stored : ∀ i ∈ kept, hasIndex old i = true := by
    intro i member
    rw [isKept] at member
    exact hasIndex_of_mem (List.mem_of_mem_filter member)
  have unkept : ∀ i ∈ new.filter (fun i => !hasIndex old i), i ∉ kept := by
    intro i fresh member
    have there := (List.mem_filter.mp fresh).2
    rw [stored i member] at there
    cases there
  rw [← isKept]
  obtain ⟨fresh, made, sub, once, _, all⟩ := addIndexes_eq kept (new.filter fun i => !hasIndex old i)
  rw [made]
  constructor
  · intro same
    have unstored : ∀ i ∈ fresh, (!hasIndex old i) = true := fun i member => (List.mem_filter.mp (sub.subset member)).2
    have front : new.filter (hasIndex old) = kept := by
      rw [← same, List.filter_append, List.filter_eq_self.mpr stored, List.filter_eq_nil_iff.mpr, List.append_nil]
      intro i member held
      have there := unstored i member
      rw [held] at there
      cases there
    have back : (new.filter fun i => !hasIndex old i) = fresh := by
      rw [← same, List.filter_append, List.filter_eq_self.mpr unstored, List.filter_eq_nil_iff.mpr, List.nil_append]
      intro i member there
      rw [stored i member] at there
      cases there
    refine ⟨front, partition.mp ?_, back ▸ once⟩
    rw [front, back, same]
  · rintro ⟨front, newLast, distinct⟩
    rw [all distinct unkept, ← front]
    exact partition.mpr newLast

/-- What the plan makes of the indexes of its table. -/
theorem foldl_editedIndexes : (orderOps (tableOps table entries stored old new)).foldl editedIndexes old =
    addIndexes (old.filter (hasIndex new)) (new.filter fun c => !hasIndex old c) := by
  have columns : ∀ k, ∀ op ∈ (entries.flatMap fun e => rankOps k (columnOps table e)) ++
      (if k = 2 then (stored.filter fun c => !survives entries c).map fun c => MigrationOp.dropColumn table c.name else []),
      ∀ indexes, op.editedIndexes indexes = indexes := by
    intro k op member indexes
    rcases List.mem_append.mp member with member | member
    · obtain ⟨e, _, member⟩ := List.mem_flatMap.mp member
      exact columnOps_indexes (List.mem_of_mem_filter member) indexes
    · split at member
      · obtain ⟨_, _, rfl⟩ := List.mem_map.mp member
        rfl
      · cases member
  have rank : ∀ k indexes, (rankOps k (tableOps table entries stored old new)).foldl editedIndexes indexes =
      (rankOps (V := V) k (diffIndexes table old new)).foldl editedIndexes indexes := by
    intro k indexes
    rw [rankOps_tableOps, List.foldl_append, foldl_indexes_columns (columns k)]
  have idle : ∀ k, k ≠ 1 → k ≠ 9 → ∀ indexes, (rankOps k (tableOps table entries stored old new)).foldl editedIndexes indexes =
      indexes := by
    intro k one nine indexes
    rw [rank, rankOps_diffIndexes, if_neg one, if_neg nine]
    rfl
  have drops : (rankOps 1 (tableOps table entries stored old new)).foldl editedIndexes old = old.filter (hasIndex new) := by
    rw [rank, rankOps_diffIndexes, if_neg (by decide), if_pos rfl, List.nil_append]
    refine foldl_dropIndexes.trans (List.filter_congr fun i member => ?_)
    rw [Bool.not_eq_eq_eq_not, Bool.eq_iff_iff, List.contains_iff_mem, List.mem_filter]
    exact and_iff_right member
  have adds : ∀ indexes, (rankOps 9 (tableOps table entries stored old new)).foldl editedIndexes indexes =
      addIndexes indexes (new.filter fun c => !hasIndex old c) := by
    intro indexes
    rw [rank, rankOps_diffIndexes, if_pos rfl, if_neg (by decide), List.append_nil]
    exact foldl_addIndexes
  rw [orderOps_eq, range_eleven]
  simp only [List.flatMap_cons, List.flatMap_nil, List.append_nil, List.foldl_append]
  rw [idle 0 (by decide) (by decide), drops, idle 2 (by decide) (by decide), idle 3 (by decide) (by decide),
    idle 4 (by decide) (by decide), idle 5 (by decide) (by decide), idle 6 (by decide) (by decide),
    idle 7 (by decide) (by decide), idle 8 (by decide) (by decide), adds, idle 10 (by decide) (by decide)]

end Indexes
end WasmDbms
