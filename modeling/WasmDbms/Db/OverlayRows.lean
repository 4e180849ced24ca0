import Mathlib.Data.List.Perm.Basic
import WasmDbms.Db.Store

/-!
# Rows under the changes of a transaction

What the overlay shows after some more changes, in terms of what it showed before:
an insertion adds its row in place of those with its key, an update patches the rows
with its keys, a deletion takes the rows with its keys away.
-/
namespace WasmDbms

variable {J : Type}

/-- A row with the columns of a table, in any order. -/
structure Complete (table : TableDef J) (row : Row J) : Prop where
  columns : (row.map Prod.fst).Perm table.columns
  typed : ∀ entry ∈ row, entry.1.Admits entry.2

/-- The values of some columns of a table. -/
structure Patches (table : TableDef J) (patch : Row J) : Prop where
  names : (patch.map fun entry => entry.1.name).Nodup
  columns : ∀ entry ∈ patch, entry.1 ∈ table.columns
  typed : ∀ entry ∈ patch, entry.1.Admits entry.2

theorem find?_congr {α : Type} {l : List α} {p q : α → Bool} (same : ∀ x ∈ l, p x = q x) :
    l.find? p = l.find? q := by
  induction l with
  | nil => rfl
  | cons x rest ih =>
      rw [List.forall_mem_cons] at same
      rw [List.find?_cons, List.find?_cons, same.1, ih same.2]

theorem filterMap_removed {α : Type} {p : α → Prop} [DecidablePred p] (l : List α) :
    (l.filterMap fun x => if p x then none else some x) = l.filter fun x => decide (¬ p x) := by
  induction l with
  | nil => rfl
  | cons x rest ih => by_cases here : p x <;> simp [here, ih]

section Patch
variable {table : TableDef J} {row patch : Row J}

theorem setColumn_columns {name : String} {value : Value J} :
    (setColumn name value row).map Prod.fst = row.map Prod.fst := by
  induction row with
  | nil => rfl
  | cons entry rest ih =>
      rw [setColumn]
      split
      · rfl
      · rw [List.map_cons, List.map_cons, ih]

theorem patchValues_columns : (patchValues patch row).map Prod.fst = row.map Prod.fst := by
  induction patch generalizing row with
  | nil => rfl
  | cons entry rest ih =>
      change (patchValues rest (setColumn entry.1.name entry.2 row)).map Prod.fst = row.map Prod.fst
      rw [ih, setColumn_columns]

theorem RowOf.complete (record : RowOf table.columns row) : Complete table row :=
  ⟨by rw [record.names], record.typed⟩

theorem Complete.names (complete : Complete table row) : (row.map fun entry => entry.1.name).Nodup := by
  have names := (complete.columns.map ColumnDef.name).nodup_iff.mpr table.columnNames
  rwa [List.map_map] at names

theorem Complete.column (complete : Complete table row) {entry : ColumnDef × Value J} (member : entry ∈ row) :
    entry.1 ∈ table.columns :=
  complete.columns.subset (List.mem_map_of_mem member)

/-- A column of the row holds this value. -/
theorem findColumn_eq (names : (row.map fun entry => entry.1.name).Nodup) {entry : ColumnDef × Value J}
    (member : entry ∈ row) : findColumn entry.1.name row = some entry.2 := by
  unfold findColumn
  cases search : row.find? fun e => e.1.name == entry.1.name with
  | none =>
      have absent := List.find?_eq_none.mp search entry member
      simp at absent
  | some found =>
      have same : found.1.name = entry.1.name := by simpa using List.find?_some search
      rw [List.inj_on_of_nodup_map names (List.mem_of_find?_eq_some search) member same]
      rfl

theorem findColumn_none {name : String} (absent : name ∉ row.map fun entry => entry.1.name) :
    findColumn name row = none := by
  unfold findColumn
  rw [Option.map_eq_none_iff, List.find?_eq_none]
  intro entry member same
  exact absent (List.mem_map.mpr ⟨entry, member, by simpa using same⟩)

theorem mem_of_findColumn {name : String} {value : Value J} (found : findColumn name row = some value) :
    ∃ entry ∈ row, entry.1.name = name ∧ entry.2 = value := by
  obtain ⟨entry, search, same⟩ := Option.map_eq_some_iff.mp found
  exact ⟨entry, List.mem_of_find?_eq_some search, by simpa using List.find?_some search, same⟩

/-- Where the names are distinct a test of some column of a name is one of its value. -/
theorem anyColumn_find (names : (row.map fun entry => entry.1.name).Nodup) {field : String} {test : Value J → Bool} :
    anyColumn field test row = (findColumn field row).any test := by
  rw [Bool.eq_iff_iff, Option.any_eq_true, anyColumn, List.any_eq_true]
  constructor
  · rintro ⟨entry, member, holds⟩
    obtain ⟨name, passes⟩ := Bool.and_eq_true_iff.mp holds
    obtain rfl := beq_iff_eq.mp name
    exact ⟨entry.2, findColumn_eq names member, passes⟩
  · rintro ⟨v, found, passes⟩
    obtain ⟨entry, member, name, rfl⟩ := mem_of_findColumn found
    exact ⟨entry, member, Bool.and_eq_true_iff.mpr ⟨beq_iff_eq.mpr name, passes⟩⟩

/-- The order of the columns does not matter. -/
theorem findColumn_perm {row' : Row J} (names : (row.map fun entry => entry.1.name).Nodup) (perm : row.Perm row')
    (name : String) : findColumn name row = findColumn name row' := by
  have names' := (perm.map fun entry => entry.1.name).nodup_iff.mp names
  cases found : findColumn name row' with
  | none =>
      refine findColumn_none fun named => ?_
      obtain ⟨entry, member, rfl⟩ := List.mem_map.mp named
      rw [findColumn_eq names' (perm.subset member)] at found
      cases found
  | some value =>
      obtain ⟨entry, member, rfl, rfl⟩ := mem_of_findColumn found
      exact findColumn_eq names (perm.symm.subset member)

theorem setColumn_eq {name : String} {value : Value J} (names : (row.map fun entry => entry.1.name).Nodup) :
    setColumn name value row = row.map fun entry => if entry.1.name = name then (entry.1, value) else entry := by
  induction row with
  | nil => rfl
  | cons entry rest ih =>
      rw [List.map_cons, List.nodup_cons] at names
      rw [setColumn, List.map_cons]
      by_cases here : entry.1.name = name
      · rw [if_pos here, if_pos (by simpa using here)]
        refine congrArg _ ?_
        conv_lhs => rw [← List.map_id rest]
        apply List.map_congr_left
        intro e member
        have other : e.1.name ≠ name := fun same =>
          names.1 (List.mem_map.mpr ⟨e, member, same.trans here.symm⟩)
        rw [if_neg other]
        rfl
      · rw [if_neg here, if_neg (by simpa using here), ih names.2]

/-- A patch sets the columns it names. -/
theorem patchValues_eq (names : (row.map fun entry => entry.1.name).Nodup)
    (distinct : (patch.map fun entry => entry.1.name).Nodup) :
    patchValues patch row = row.map fun entry => (entry.1, (findColumn entry.1.name patch).getD entry.2) := by
  induction patch generalizing row with
  | nil =>
      conv_lhs => rw [patchValues, List.foldl_nil, ← List.map_id row]
      rfl
  | cons p rest ih =>
      rw [List.map_cons, List.nodup_cons] at distinct
      have step : patchValues (p :: rest) row = patchValues rest (setColumn p.1.name p.2 row) := rfl
      have kept : ((setColumn p.1.name p.2 row).map fun entry => entry.1.name) = row.map fun entry => entry.1.name := by
        rw [setColumn_eq names, List.map_map]
        apply List.map_congr_left
        intro entry _
        dsimp only [Function.comp]
        split <;> rfl
      rw [step, ih (by rwa [kept]) distinct.2, setColumn_eq names, List.map_map]
      apply List.map_congr_left
      intro entry _
      by_cases here : entry.1.name = p.1.name
      · have first : findColumn entry.1.name (p :: rest) = some p.2 := by
          unfold findColumn
          rw [List.find?_cons_of_pos (by simpa using here.symm)]
          rfl
        have later : findColumn p.1.name rest = none := findColumn_none distinct.1
        simp only [Function.comp, if_pos here, first]
        rw [here, later]
        rfl
      · have later : findColumn entry.1.name (p :: rest) = findColumn entry.1.name rest := by
          unfold findColumn
          rw [List.find?_cons_of_neg (by simpa using fun h => here h.symm)]
        simp only [Function.comp, if_neg here, later]

variable (complete : Complete table row) (patches : Patches table patch)
include complete patches

theorem Complete.patched : Complete table (patchValues patch row) := by
  rw [patchValues_eq complete.names patches.names]
  refine ⟨?_, ?_⟩
  · rw [List.map_map]
    exact complete.columns
  · intro entry member
    obtain ⟨e, there, rfl⟩ := List.mem_map.mp member
    cases found : findColumn e.1.name patch with
    | none => exact complete.typed e there
    | some value =>
        obtain ⟨p, listed, name, rfl⟩ := mem_of_findColumn found
        have same := List.inj_on_of_nodup_map table.columnNames (patches.columns p listed)
          (complete.column there) name
        exact same ▸ patches.typed p listed

/-- The value a column has after the patch. -/
theorem Complete.findColumn_patch (name : String) :
    findColumn name (patchValues patch row) = (findColumn name row).map fun old => (findColumn name patch).getD old := by
  rw [patchValues_eq complete.names patches.names]
  unfold findColumn
  rw [List.find?_map]
  have test : ((fun entry : ColumnDef × Value J => entry.1.name == name) ∘ fun entry : ColumnDef × Value J =>
      (entry.1, ((List.find? (fun e => e.1.name == entry.1.name) patch).map Prod.snd).getD entry.2)) =
      fun entry => entry.1.name == name := rfl
  rw [test]
  cases search : row.find? fun entry => entry.1.name == name with
  | none => rfl
  | some entry =>
      have same : entry.1.name = name := by simpa using List.find?_some search
      rw [← same]
      rfl

/-- A patch that is made twice is made once. -/
theorem Complete.patch_patch : patchValues patch (patchValues patch row) = patchValues patch row := by
  rw [patchValues_eq (complete.patched patches).names patches.names]
  rw [patchValues_eq complete.names patches.names, List.map_map]
  apply List.map_congr_left
  intro entry _
  dsimp only [Function.comp]
  cases findColumn entry.1.name patch <;> rfl

end Patch

section Key
variable {table : TableDef J} {row : Row J}

/-- The key column of a row is the one the table names. -/
theorem Complete.primaryKeyOf_eq (complete : Complete table row) :
    primaryKeyOf row = findColumn table.primaryKey row := by
  have flagged : ∀ entry ∈ row, entry.1.primaryKey = (entry.1.name == table.primaryKey) := by
    intro entry member
    have column := complete.column member
    by_cases flag : entry.1.primaryKey = true
    · rw [flag, table.oneKey _ column flag, beq_self_eq_true]
    · rw [Bool.not_eq_true] at flag
      obtain ⟨c, listed, name, key⟩ := table.keyed
      have other : entry.1.name ≠ table.primaryKey := fun same => by
        rw [List.inj_on_of_nodup_map table.columnNames column listed (same.trans name.symm), key] at flag
        cases flag
      rw [flag, eq_comm]
      simpa using other
  unfold primaryKeyOf findColumn
  exact congrArg (Option.map Prod.snd) (find?_congr flagged)

theorem Complete.key (complete : Complete table row) : ∃ key, primaryKeyOf row = some key := by
  obtain ⟨c, listed, name, _⟩ := table.keyed
  obtain ⟨entry, member, rfl⟩ := List.mem_map.mp (complete.columns.symm.subset listed)
  exact ⟨entry.2, by rw [complete.primaryKeyOf_eq, ← name, findColumn_eq complete.names member]⟩

end Key

/-- Changes to rows of a table. -/
def Changes (table : TableDef J) (operations : List (Operation J)) : Prop :=
  ∀ op ∈ operations, match op with
    | .insert key record => Complete table record ∧ primaryKeyOf record = some key
    | .update _ updates => Patches table updates
    | .delete _ => True

section Replay
variable [LinearOrder J] {table : TableDef J} {row : Row J} {ops later : List (Operation J)}

/-- The key that is followed is that of the row. -/
theorem replayFrom_update {key : Value J} {updates : Row J} (complete : Complete table row)
    (patches : Patches table updates) (keyed : primaryKeyOf row = some key) :
    replayFrom key row (.update key updates :: ops) = replay (patchValues updates row) ops := by
  have patched := complete.patched patches
  have tracked : ((updates.find? fun entry => (patchValues updates row).any fun column =>
      column.1.primaryKey && column.1.name == entry.1.name).map Prod.snd).getD key =
      (findColumn table.primaryKey updates).getD key := by
    unfold findColumn
    refine congrArg (fun found : Option (ColumnDef × Value J) => (found.map Prod.snd).getD key) ?_
    apply find?_congr
    intro entry member
    rw [Bool.eq_iff_iff, List.any_eq_true, beq_iff_eq]
    constructor
    · rintro ⟨column, there, test⟩
      obtain ⟨flag, name⟩ := Bool.and_eq_true_iff.mp test
      rw [← beq_iff_eq.mp name]
      exact table.oneKey _ (patched.column there) flag
    · intro name
      obtain ⟨c, listed, same, flag⟩ := table.keyed
      obtain ⟨column, there, rfl⟩ := List.mem_map.mp (patched.columns.symm.subset listed)
      exact ⟨column, there, by rw [flag, same, name, beq_self_eq_true]; rfl⟩
  have followed : primaryKeyOf (patchValues updates row) = some ((findColumn table.primaryKey updates).getD key) := by
    rw [patched.primaryKeyOf_eq, complete.findColumn_patch patches, ← complete.primaryKeyOf_eq, keyed]
    rfl
  have own : ¬ (Operation.update key updates).primaryKeyValue ≠ key := fun other => other rfl
  rw [replayFrom, if_neg own]
  dsimp only
  rw [tracked, replay, followed]
  rfl

theorem replayFrom_other {key : Value J} {op : Operation J} (other : op.primaryKeyValue ≠ key) :
    replayFrom key row (op :: ops) = replayFrom key row ops := by
  cases op <;> rw [replayFrom, if_pos other]

theorem replay_eq {key : Value J} (keyed : primaryKeyOf row = some key) : replay row ops = replayFrom key row ops := by
  rw [replay, keyed]
  rfl

/-- A change of another key leaves the row. -/
theorem replay_other {key : Value J} (keyed : primaryKeyOf row = some key) {op : Operation J}
    (other : op.primaryKeyValue ≠ key) : replay row (op :: ops) = replay row ops := by
  rw [replay_eq keyed, replay_eq keyed, replayFrom_other other]

/-- An update of the key patches the row. -/
theorem replay_update {key : Value J} {updates : Row J} (complete : Complete table row)
    (patches : Patches table updates) (keyed : primaryKeyOf row = some key) :
    replay row (.update key updates :: ops) = replay (patchValues updates row) ops := by
  rw [replay_eq keyed, replayFrom_update complete patches keyed]

/-- A deletion of the key, or a new row with it, removes the row. -/
theorem replay_removed {key : Value J} (keyed : primaryKeyOf row = some key) {op : Operation J}
    (own : op.primaryKeyValue = key) (removes : ∀ updates, op ≠ .update key updates) :
    replay row (op :: ops) = none := by
  have here : ¬ op.primaryKeyValue ≠ key := fun other => other own
  rw [replay_eq keyed]
  cases op with
  | insert key' record => rw [replayFrom, if_neg here]
  | delete key' => rw [replayFrom, if_neg here]
  | update key' updates =>
      obtain rfl : key' = key := own
      exact absurd rfl (removes updates)

theorem replay_nil (complete : Complete table row) : replay row [] = some row := by
  obtain ⟨key, keyed⟩ := complete.key
  rw [replay_eq keyed]
  rfl

/-- A row that is left has the columns of the table. -/
theorem replay_complete (complete : Complete table row) (changes : Changes table ops) {row' : Row J}
    (run : replay row ops = some row') : Complete table row' := by
  induction ops generalizing row with
  | nil =>
      rw [replay_nil complete] at run
      cases run
      exact complete
  | cons op rest ih =>
      obtain ⟨first, others⟩ := List.forall_mem_cons.mp changes
      obtain ⟨key, keyed⟩ := complete.key
      by_cases own : op.primaryKeyValue = key
      · cases op with
        | update key' updates =>
            obtain rfl : key' = key := own
            rw [replay_update complete first keyed] at run
            exact ih (complete.patched first) others run
        | insert key' record =>
            rw [replay_removed keyed own nofun] at run
            cases run
        | delete key' =>
            rw [replay_removed keyed own nofun] at run
            cases run
      · rw [replay_other keyed own] at run
        exact ih complete others run

/-- The later changes are replayed on the row the earlier ones leave. -/
theorem replay_append (complete : Complete table row) (changes : Changes table ops) :
    replay row (ops ++ later) = (replay row ops).bind fun row => replay row later := by
  induction ops generalizing row with
  | nil => rw [List.nil_append, replay_nil complete, Option.bind_some]
  | cons op rest ih =>
      obtain ⟨first, others⟩ := List.forall_mem_cons.mp changes
      obtain ⟨key, keyed⟩ := complete.key
      rw [List.cons_append]
      by_cases own : op.primaryKeyValue = key
      · cases op with
        | update key' updates =>
            obtain rfl : key' = key := own
            rw [replay_update complete first keyed, replay_update complete first keyed]
            exact ih (complete.patched first) others
        | insert key' record =>
            rw [replay_removed keyed own nofun, replay_removed keyed own nofun, Option.bind_none]
        | delete key' =>
            rw [replay_removed keyed own nofun, replay_removed keyed own nofun, Option.bind_none]
      · rw [replay_other keyed own, replay_other keyed own]
        exact ih complete others

theorem iterInserted_complete (changes : Changes table ops) {row : Row J} (member : row ∈ iterInserted ops) :
    Complete table row := by
  induction ops with
  | nil => cases member
  | cons op rest ih =>
      obtain ⟨first, others⟩ := List.forall_mem_cons.mp changes
      cases op with
      | insert key record =>
          rw [iterInserted] at member
          rcases List.mem_append.mp member with here | later
          · exact replay_complete first.1 others (Option.mem_toList.mp here)
          · exact ih others later
      | update key updates => exact ih others member
      | delete key => exact ih others member

theorem iterInserted_append (changes : Changes table ops) :
    iterInserted (ops ++ later) = (iterInserted ops).filterMap (fun row => replay row later) ++ iterInserted later := by
  induction ops with
  | nil => rfl
  | cons op rest ih =>
      obtain ⟨first, others⟩ := List.forall_mem_cons.mp changes
      rw [List.cons_append]
      cases op with
      | insert key record =>
          rw [iterInserted, iterInserted, ih others, replay_append first.1 others, List.filterMap_append,
            List.append_assoc]
          cases replay record rest with
          | none => rfl
          | some row =>
              rw [Option.bind_some, Option.toList_some, List.filterMap_cons]
              cases replay row later <;> rfl
      | update key updates => exact ih others
      | delete key => exact ih others

section Rows
variable {stored : List (Row J)} (complete : ∀ row ∈ stored, Complete table row)
include complete

theorem overlayRows_complete (changes : Changes table ops) {row : Row J} (member : row ∈ overlayRows ops stored) :
    Complete table row := by
  rcases List.mem_append.mp member with patched | inserted
  · obtain ⟨base, there, run⟩ := List.mem_filterMap.mp patched
    exact replay_complete (complete base there) changes run
  · exact iterInserted_complete changes inserted

theorem overlayRows_nil : overlayRows [] stored = stored := by
  rw [overlayRows, iterInserted, List.append_nil]
  exact (List.filterMap_congr fun row member => replay_nil (complete row member)).trans List.filterMap_some

/-- What is shown after some more changes. -/
theorem overlayRows_append (changes : Changes table ops) :
    overlayRows (ops ++ later) stored = overlayRows later (overlayRows ops stored) := by
  have patched : stored.filterMap (fun row => replay row (ops ++ later)) =
      (stored.filterMap fun row => replay row ops).filterMap fun row => replay row later := by
    rw [List.filterMap_filterMap]
    exact List.filterMap_congr fun row member => replay_append (complete row member) changes
  rw [overlayRows, overlayRows, overlayRows, patched, iterInserted_append changes, List.filterMap_append,
    List.append_assoc]

omit complete in
theorem iterInserted_none (none_ : ∀ op ∈ ops, ∀ key record, op ≠ .insert key record) : iterInserted ops = [] := by
  induction ops with
  | nil => rfl
  | cons op rest ih =>
      obtain ⟨first, others⟩ := List.forall_mem_cons.mp none_
      cases op with
      | insert key record => exact absurd rfl (first key record)
      | update key updates => exact ih others
      | delete key => exact ih others

/-- A new row takes the place of those with its key. -/
theorem overlayRows_insert {key : Value J} {record : Row J} (fresh : Complete table record) :
    overlayRows [.insert key record] stored =
      (stored.filter fun row => decide (primaryKeyOf row ≠ some key)) ++ [record] := by
  have others : ∀ row ∈ stored, replay row [.insert key record] =
      if primaryKeyOf row = some key then none else some row := by
    intro row member
    obtain ⟨own, keyed⟩ := (complete row member).key
    by_cases same : key = own
    · rw [if_pos (same ▸ keyed)]
      exact replay_removed keyed same nofun
    · have other : primaryKeyOf row ≠ some key := fun h => same (Option.some.inj (h.symm.trans keyed))
      rw [if_neg other, ← replay_nil (complete row member)]
      exact replay_other keyed same
  have inserted : iterInserted [.insert key record] = [record] := by
    rw [iterInserted, replay_nil fresh]
    rfl
  rw [overlayRows, List.filterMap_congr others, filterMap_removed, inserted]

/-- A deletion takes the rows with its keys away. -/
theorem overlayRows_delete {keys : List (Value J)} :
    overlayRows (keys.map .delete) stored =
      stored.filter fun row => decide (¬ ∃ key ∈ keys, primaryKeyOf row = some key) := by
  have removed : ∀ row ∈ stored, replay row (keys.map .delete) =
      if ∃ key ∈ keys, primaryKeyOf row = some key then none else some row := by
    intro row member
    obtain ⟨own, keyed⟩ := (complete row member).key
    induction keys with
    | nil =>
        rw [if_neg (by simp)]
        exact replay_nil (complete row member)
    | cons key rest ih =>
        rw [List.map_cons]
        by_cases same : key = own
        · rw [if_pos ⟨key, List.mem_cons_self, same ▸ keyed⟩]
          exact replay_removed keyed same nofun
        · have passed : replay row (.delete key :: rest.map .delete) = replay row (rest.map .delete) :=
            replay_other keyed same
          have other : own ≠ key := fun h => same h.symm
          rw [passed, ih]
          simp [keyed, other]
  have inserted : iterInserted (keys.map (.delete (J := J))) = [] := by
    refine iterInserted_none fun op member key record same => ?_
    obtain ⟨_, _, rfl⟩ := List.mem_map.mp member
    cases same
  rw [overlayRows, List.filterMap_congr removed, filterMap_removed, inserted, List.append_nil]

/-- An update patches the rows with its keys. -/
theorem overlayRows_update {keys : List (Value J)} {patch : Row J} (patches : Patches table patch) :
    overlayRows (keys.map fun key => .update key patch) stored =
      stored.map fun row => if ∃ key ∈ keys, primaryKeyOf row = some key then patchValues patch row else row := by
  have settled : ∀ (keys : List (Value J)) row, Complete table row → patchValues patch row = row →
      replay row (keys.map fun key => .update key patch) = some row := by
    intro keys row whole same
    obtain ⟨own, keyed⟩ := whole.key
    induction keys with
    | nil => exact replay_nil whole
    | cons key rest ih =>
        rw [List.map_cons]
        by_cases here : key = own
        · subst here
          rw [replay_update whole patches keyed, same, ih]
        · have passed : replay row (.update key patch :: rest.map fun key => .update key patch) =
              replay row (rest.map fun key => .update key patch) := replay_other keyed here
          rw [passed, ih]
  have patched : ∀ row ∈ stored, replay row (keys.map fun key => .update key patch) =
      some (if ∃ key ∈ keys, primaryKeyOf row = some key then patchValues patch row else row) := by
    intro row member
    have whole := complete row member
    obtain ⟨own, keyed⟩ := whole.key
    induction keys with
    | nil =>
        rw [if_neg (by simp)]
        exact replay_nil whole
    | cons key rest ih =>
        rw [List.map_cons]
        by_cases here : key = own
        · subst here
          rw [if_pos ⟨key, List.mem_cons_self, keyed⟩, replay_update whole patches keyed]
          exact settled rest _ (whole.patched patches) (whole.patch_patch patches)
        · have passed : replay row (.update key patch :: rest.map fun key => .update key patch) =
              replay row (rest.map fun key => .update key patch) := replay_other keyed here
          have other : own ≠ key := fun h => here h.symm
          rw [passed, ih]
          simp [keyed, other]
  have inserted : iterInserted (keys.map fun key => .update key patch) = [] := by
    refine iterInserted_none fun op member key record same => ?_
    obtain ⟨_, _, rfl⟩ := List.mem_map.mp member
    cases same
  rw [overlayRows, List.filterMap_congr patched, inserted, List.append_nil]
  exact List.filterMap_eq_map_iff_forall_eq_some.mpr fun _ _ => rfl

end Rows
end Replay
end WasmDbms
