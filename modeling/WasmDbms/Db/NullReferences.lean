import WasmDbms.Db.Descendants

/-!
# Foreign keys that are `Null`

A foreign key that is `Null` references no record. Deletion and update find the rows
that reference a record by the value of its column all the same, and `Null` equals
`Null`: they take the rows with a `Null` foreign key for rows that reference it.
-/
namespace WasmDbms
open Cascade Result

variable {J F : Type} [LinearOrder J]

/-- The foreign key of the column `c` of `y` and the column of `x` it refers to are `Null`. -/
structure NullReference (schema : DatabaseSchema J) (t t' : TableDef J) (c : ColumnDef) (fk : ForeignKeyDef)
    (x y : Entry J) : Prop where
  referenced : t ∈ schema.tables
  referencing : t' ∈ schema.tables
  column : c ∈ t'.columns
  key : c.foreignKey = some fk
  points : fk.foreignTable = t.name
  tableX : x.table = t.name
  tableY : y.table = t'.name
  nullX : findColumn fk.foreignColumn x.values = some .null
  nullY : findColumn c.name y.values = some .null

section Found
variable {db : Database J F} {s : DbState J} {t t' : TableDef J} {c : ColumnDef} {fk : ForeignKeyDef} {x y : Entry J}

/-- The reference of a deletion to the row. -/
theorem NullReference.edge (null : NullReference db.schema t t' c fk x y) (valid : s.Valid db.schema)
    (liveX : x ∈ s.live) : ⟨t'.name, c.name, .null⟩ ∈ db.edges x := by
  obtain ⟨t₀, listed, name, row⟩ := valid.table liveX
  obtain ⟨references, run, members⟩ := DatabaseSchema.referencingColumns_ok listed row
  rw [name] at run
  unfold Database.edges
  rw [run]
  exact (members _).mpr ⟨t', null.referencing, c, null.column, fk, null.key,
    null.points.trans (null.tableX.symm.trans name.symm), rfl, rfl, null.nullX⟩

theorem NullReference.follows (null : NullReference db.schema t t' c fk x y) (valid : s.Valid db.schema)
    (liveX : x ∈ s.live) (liveY : y ∈ s.live) : db.Follows s x y :=
  ⟨_, null.edge valid liveX, liveY, null.tableY, selects_eq null.nullY⟩

end Found

/-! ## Deletion -/

section Deletion
variable {db : Database J F} {s : DbState J} {t t' : TableDef J} {c : ColumnDef} {fk : ForeignKeyDef} {x y : Entry J}

/-- A check that finds no reference has looked at every one. -/
theorem anyM_false {α ε : Type} {f : α → Except ε Bool} {xs : List α} (run : xs.anyM f = .ok false) :
    ∀ a ∈ xs, f a = .ok false := by
  induction xs with
  | nil => exact fun a member => absurd member List.not_mem_nil
  | cons a rest ih =>
      rw [List.anyM] at run
      obtain ⟨b, first, run⟩ := bind_eq_ok.mp run
      cases b with
      | true => cases run
      | false => exact List.forall_mem_cons.mpr ⟨first, ih run⟩

/-- The check of a row that is to be deleted finds the stored row with the `Null` key. -/
theorem NullReference.found (null : NullReference db.schema t t' c fk x y) (valid : s.Valid db.schema)
    (liveX : x ∈ s.live) {s' : DbState J} (there : y ∈ s'.live) :
    db.hasForeignKeyReferences t x.values s' ≠ .ok false := by
  intro run
  obtain ⟨references, looked, run⟩ := bind_eq_ok.mp run
  have edge := null.edge valid liveX
  unfold Database.edges at edge
  rw [null.tableX, Failure.lift_eq_ok.mp looked] at edge
  obtain ⟨found, lookup, run⟩ := bind_eq_ok.mp (anyM_false run _ edge)
  obtain ⟨rows, collected, run⟩ := bind_eq_ok.mp run
  obtain ⟨listed, name⟩ := DatabaseSchema.table_ok (Failure.lift_eq_ok.mp lookup)
  have row : (y.address, y.values) ∈ (s' found.name).rows := by
    rw [name, ← null.tableY]
    exact there
  have member := (Database.mem_collect collected).mpr ⟨row, selects_eq null.nullY⟩
  have empty : (!rows.isEmpty) = false := pure_eq_ok.mp run
  rw [Bool.not_eq_false', List.isEmpty_iff] at empty
  rw [empty] at member
  cases member

theorem deleteRecord_spares {address : RecordAddress} {values : Row J} {s s' : DbState J}
    (run : deleteRecord t address values s = .ok s') (there : y ∈ s.live)
    (other : y.table = t.name → y.address ≠ address) : y ∈ s'.live := by
  obtain ⟨indexes, _, run⟩ := bind_eq_ok.mp run
  obtain rfl := pure_eq_ok.mp run
  unfold DbState.live at there ⊢
  rw [Set.mem_ofPred_eq] at there ⊢
  by_cases here : y.table = t.name
  · rw [here, Function.update_self]
    rw [here] at there
    exact List.mem_filter.mpr ⟨there, by simpa using other here⟩
  · rw [Function.update_of_ne here]
    exact there

/-- With the row in the database, the loop of a deletion does not get past the record. -/
theorem NullReference.deleteRecords_fails (null : NullReference db.schema t t' c fk x y) (valid : s.Valid db.schema)
    (liveX : x ∈ s.live) {follow : DatabaseSchema.Reference J → DbState J → Except (Failure J) (ℕ × DbState J)}
    {records : List (RecordAddress × Row J)} {s₁ s' : DbState J} {n : ℕ} (member : (x.address, x.values) ∈ records)
    (nodup : (records.map Prod.fst).Nodup) (there : y ∈ s₁.live)
    (own : ∀ r ∈ records, y.table = t.name → y.address = r.1 → y = x) :
    db.deleteRecords .restrict follow t records s₁ ≠ .ok (n, s') := by
  intro run
  induction records generalizing s₁ s' n with
  | nil => cases member
  | cons r rest ih =>
      obtain ⟨⟨m, s₂⟩, checked, run⟩ := bind_eq_ok.mp run
      obtain ⟨s₃, deleted, run⟩ := bind_eq_ok.mp run
      obtain ⟨⟨k, s₄⟩, later, _⟩ := bind_eq_ok.mp run
      obtain ⟨b, clear, done⟩ := bind_eq_ok.mp checked
      cases b with
      | true => cases done
      | false =>
          obtain ⟨rfl, rfl⟩ := Prod.mk.inj (Except.ok.inj done)
          rw [List.map_cons, List.nodup_cons] at nodup
          rcases List.mem_cons.mp member with rfl | behind
          · exact null.found valid liveX there clear
          · refine ih behind nodup.2 ?_ (fun r' member' => own r' (List.mem_cons_of_mem _ member')) later
            refine deleteRecord_spares deleted there fun table address => ?_
            -- the row would be the record, which comes later
            obtain rfl := own r List.mem_cons_self table address
            exact nodup.1 (List.mem_map.mpr ⟨_, behind, address⟩)

end Deletion

/-! ## Update -/

/-- A run of replacements of records. -/
inductive Replacements (db : Database J F) : ℕ → DbState J → DbState J → Prop where
  | nil {s} : Replacements db 0 s s
  | cons {t address old new record s s₁ s' n} (replaced : db.replaceRecord t address old new record s = .ok s₁)
      (later : Replacements db n s₁ s') : Replacements db (1 + n) s s'

/-- A run of replacements in which the record is not there at some time. -/
def Loses (db : Database J F) (y : Entry J) (n : ℕ) (s s' : DbState J) : Prop :=
  ∃ k m s₁, Replacements db k s s₁ ∧ y ∉ s₁.live ∧ Replacements db m s₁ s' ∧ k + m = n

/-- An update of the record that succeeds changes it. -/
def Database.Moves (t : TableDef J) (patch values : Row J) : Prop :=
  ∀ new record, t.sanitizeValues (patchValues patch values) = .ok new → t.fromValues new = .ok record → record ≠ values

namespace Replacements
variable {db : Database J F} {s s₁ s' : DbState J} {n m : ℕ}

theorem append (first : Replacements db n s s₁) (second : Replacements db m s₁ s') : Replacements db (n + m) s s' := by
  induction first with
  | nil => rwa [Nat.zero_add]
  | cons replaced _ ih =>
      rw [Nat.add_assoc]
      exact .cons replaced (ih second)

/-- What the second part loses of its database, both parts lose of the first one. -/
theorem loses (first : Replacements db n s s₁) (rest : Replacements db m s₁ s') {P : Entry J → Prop}
    (second : ∀ y ∈ s₁.live, P y → Loses db y m s₁ s') : ∀ y ∈ s.live, P y → Loses db y (n + m) s s' := by
  intro y there holds
  by_cases still : y ∈ s₁.live
  · obtain ⟨k, l, s₂, before, gone, after, count⟩ := second y still holds
    exact ⟨n + k, l, s₂, first.append before, gone, after, by omega⟩
  · exact ⟨n, m, s₁, first, still, rest, rfl⟩

end Replacements

section Update
variable {db : Database J F} {s s₁ s' : DbState J} {n m : ℕ}

theorem Loses.append {y : Entry J} (first : Loses db y n s s₁) (rest : Replacements db m s₁ s') :
    Loses db y (n + m) s s' := by
  obtain ⟨k, l, s₂, before, gone, after, count⟩ := first
  exact ⟨k, l + m, s₂, before, gone, after.append rest, by omega⟩

/-- The record that was replaced is gone. -/
theorem replaceRecord_loses {t : TableDef J} {x : Entry J} {new record : Row J} (table : x.table = t.name)
    (replaced : db.replaceRecord t x.address x.values new record s = .ok s') (changed : record ≠ x.values) :
    x ∉ s'.live := by
  obtain ⟨indexes, _, run⟩ := bind_eq_ok.mp replaced
  obtain rfl := pure_eq_ok.mp run
  unfold DbState.live
  rw [Set.mem_ofPred_eq, table, Function.update_self]
  intro member
  obtain ⟨r, _, same⟩ := List.mem_map.mp member
  split at same
  · exact changed (congrArg Prod.snd same)
  · rename_i other
    exact other (congrArg Prod.fst same)

/-- The rows that a rewrite selects and changes. -/
def Hit (db : Database J F) (r : Database.Rewrite J) (y : Entry J) : Prop :=
  y.table = r.table ∧ db.Selects (some (.eq r.column r.old)) y.values ∧
    ∀ t ∈ db.schema.tables, t.name = r.table → ∀ patch, Database.typedPatch t [(r.column, r.new)] = .ok patch →
      Database.Moves t patch y.values

/-- The rows that the rewrites of the foreign keys of a record select and change. -/
def HitFrom (db : Database J F) (t : TableDef J) (patch values : Row J) (y : Entry J) : Prop :=
  ∀ new rewrites, t.sanitizeValues (patchValues patch values) = .ok new → db.rewrites t values new = .ok rewrites →
    ∃ r ∈ rewrites, Hit db r y

section Loops
variable {follow : Database.Rewrite J → DbState J → Except (Failure J) (ℕ × DbState J)}
variable (nested : ∀ r s n s', follow r s = .ok (n, s') →
  Replacements db n s s' ∧ ∀ y ∈ s.live, Hit db r y → Loses db y n s s')
include nested

theorem rewriteAll_loses {rewrites : List (Database.Rewrite J)}
    (run : Database.rewriteAll follow rewrites s = .ok (n, s')) :
    Replacements db n s s' ∧ ∀ y ∈ s.live, (∃ r ∈ rewrites, Hit db r y) → Loses db y n s s' := by
  induction rewrites generalizing s n with
  | nil =>
      cases run
      exact ⟨.nil, fun y _ ⟨r, member, _⟩ => absurd member List.not_mem_nil⟩
  | cons r rest ih =>
      obtain ⟨⟨m, s₁⟩, first, run⟩ := bind_eq_ok.mp run
      obtain ⟨⟨k, s₂⟩, second, run⟩ := bind_eq_ok.mp run
      cases run
      obtain ⟨changed, lost⟩ := nested r s m s₁ first
      obtain ⟨changed', lost'⟩ := ih second
      refine ⟨changed.append changed', fun y there ⟨r', member, hit⟩ => ?_⟩
      rcases List.mem_cons.mp member with rfl | later
      · exact (lost y there hit).append changed'
      · exact changed.loses changed' lost' y there ⟨r', later, hit⟩

theorem updateRecord_loses {t : TableDef J} {patch : Row J} {address : RecordAddress} {values : Row J}
    (run : db.updateRecord follow t patch address values s = .ok (n, s')) :
    Replacements db n s s' ∧ ∀ y ∈ s.live,
      y = ⟨t.name, address, values⟩ ∧ Database.Moves t patch values ∨ HitFrom db t patch values y → Loses db y n s s' := by
  obtain ⟨_, new, record, s₁, rewrites, _, _, sanitized, _, made, replaced, found, rewritten, rfl⟩ := updateRecord_ok run
  obtain ⟨changed, lost⟩ := rewriteAll_loses nested rewritten
  have one : Replacements db (1 + 0) s s₁ := .cons replaced .nil
  refine ⟨.cons replaced changed, fun y there hit => ?_⟩
  rcases hit with ⟨rfl, moves⟩ | hit
  · exact ⟨_, _, s₁, one, replaceRecord_loses rfl replaced (moves new record sanitized made), changed, rfl⟩
  · exact one.loses changed lost y there (hit new rewrites sanitized found)

theorem updateRecords_loses {t : TableDef J} {patch : Row J} {records : List (RecordAddress × Row J)}
    (run : db.updateRecords follow t patch records s = .ok (n, s')) :
    Replacements db n s s' ∧ ∀ y ∈ s.live, (∃ x ∈ records,
      y = ⟨t.name, x.1, x.2⟩ ∧ Database.Moves t patch x.2 ∨ HitFrom db t patch x.2 y) → Loses db y n s s' := by
  induction records generalizing s n with
  | nil =>
      cases run
      exact ⟨.nil, fun y _ ⟨x, member, _⟩ => absurd member List.not_mem_nil⟩
  | cons x rest ih =>
      obtain ⟨⟨m, s₁⟩, first, run⟩ := bind_eq_ok.mp run
      obtain ⟨⟨k, s₂⟩, second, run⟩ := bind_eq_ok.mp run
      cases run
      obtain ⟨changed, lost⟩ := updateRecord_loses nested first
      obtain ⟨changed', lost'⟩ := ih second
      refine ⟨changed.append changed', fun y there ⟨x', member, hit⟩ => ?_⟩
      rcases List.mem_cons.mp member with rfl | later
      · exact (lost y there hit).append changed'
      · exact changed.loses changed' lost' y there ⟨x', later, hit⟩

end Loops

/-- An update that succeeds is a run of replacements. A record it selects and changes, and
a row that the rewrites of its foreign keys select and change, do not stay as they are. -/
theorem update_loses {fuel : ℕ} {t : TableDef J} {patch : Row J} {filter : Option (Filter J F)}
    (run : db.update fuel t patch filter s = .ok (n, s')) :
    Replacements db n s s' ∧ ∀ y ∈ s.live, (∃ x ∈ s.live, x.table = t.name ∧ db.Selects filter x.values ∧
      (y = x ∧ Database.Moves t patch x.values ∨ HitFrom db t patch x.values y)) → Loses db y n s s' := by
  induction fuel generalizing t patch filter s s' n with
  | zero => cases run
  | succ fuel ih =>
      obtain ⟨records, collected, run⟩ := bind_eq_ok.mp run
      obtain ⟨changed, lost⟩ := updateRecords_loses (fun r s n s' inner => by
        obtain ⟨t', lookup, inner⟩ := bind_eq_ok.mp inner
        obtain ⟨patch', typed, inner⟩ := bind_eq_ok.mp inner
        obtain ⟨listed, name⟩ := DatabaseSchema.table_ok (Failure.lift_eq_ok.mp lookup)
        obtain ⟨changed, lost⟩ := ih inner
        refine ⟨changed, fun y there ⟨table, selects, moves⟩ => ?_⟩
        exact lost y there ⟨y, there, table.trans name.symm, selects,
          .inl ⟨rfl, moves t' listed name patch' (Failure.lift_eq_ok.mp typed)⟩⟩) run
      refine ⟨changed, fun y there ⟨x, live, table, selects, hit⟩ => lost y there ⟨(x.address, x.values), ?_, ?_⟩⟩
      · refine (Database.mem_collect collected).mpr ⟨?_, selects⟩
        rw [← table]
        exact live
      · rcases hit with ⟨rfl, moves⟩ | hit
        · refine .inl ⟨?_, moves⟩
          rw [← table]
        · exact .inr hit

/-- A changed column is rewritten wherever a foreign key refers to it. -/
theorem mem_rewrites {t t' : TableDef J} {c : ColumnDef} {fk : ForeignKeyDef} {old new : Row J}
    {rewrites : List (Database.Rewrite J)} (run : db.rewrites t old new = .ok rewrites)
    (referencing : t' ∈ db.schema.tables) (column : c ∈ t'.columns) (key : c.foreignKey = some fk)
    (points : fk.foreignTable = t.name) {a b : Value J} (before : findColumn fk.foreignColumn old = some a)
    (after : findColumn fk.foreignColumn new = some b) (changed : a ≠ b) :
    ⟨t'.name, c.name, a, b⟩ ∈ rewrites := by
  obtain ⟨perTable, mapped, run⟩ := bind_eq_ok.mp run
  obtain rfl := pure_eq_ok.mp run
  have here : c.name ∈ DatabaseSchema.foreignColumns t.name t'.columns :=
    DatabaseSchema.mem_foreignColumns.mpr
      ⟨c, column, fk, key, points, db.schema.local_ t' referencing c column fk key⟩
  have listed : (t'.name, DatabaseSchema.foreignColumns t.name t'.columns) ∈ db.schema.referencedTables t.name :=
    DatabaseSchema.mem_referencedTables.mpr ⟨t', referencing, rfl, rfl, List.ne_nil_of_mem here⟩
  obtain ⟨found, inner⟩ := mapM_each mapped _ listed
  have member : found ∈ perTable := (mem_mapM mapped).mpr ⟨_, listed, inner⟩
  have referenced := DatabaseSchema.referencedColumn_eq referencing column key
  rw [db.schema.local_ t' referencing c column fk key] at referenced
  refine List.mem_filterMap.mpr ⟨some ⟨t'.name, c.name, a, b⟩, List.mem_flatten.mpr ⟨found, member, ?_⟩, rfl⟩
  refine (mem_mapM inner).mpr ⟨c.name, here, ?_⟩
  refine bind_eq_ok.mpr ⟨_, referenced, ?_⟩
  rw [before, after]
  exact congrArg Except.ok (if_neg changed)

end Update

section Followed
variable {db : Database J F} {s : DbState J} {t t' : TableDef J} {c : ColumnDef} {fk : ForeignKeyDef} {x y : Entry J}

/-- The selected record is one of those that a deletion collects. -/
theorem delete_restrict_fails (null : NullReference db.schema t t' c fk x y) (valid : s.Valid db.schema)
    (liveX : x ∈ s.live) (liveY : y ∈ s.live) {filter : Option (Filter J F)} (selects : db.Selects filter x.values)
    (own : y.table = t.name → db.Selects filter y.values → y = x) (fuel n : ℕ) (s' : DbState J) :
    db.delete fuel t .restrict filter s ≠ .ok (n, s') := by
  intro run
  cases fuel with
  | zero => cases run
  | succ fuel =>
      obtain ⟨records, collected, run⟩ := bind_eq_ok.mp run
      obtain ⟨⟨m, s₁⟩, loop, _⟩ := bind_eq_ok.mp run
      have stored := (valid.stored t null.referenced).addresses
      have rows : records.Nodup := Database.collect_nodup collected (.of_map _ stored)
      have within : ∀ r ∈ records, r ∈ (s t.name).rows ∧ db.Selects filter r.2 := fun r member =>
        (Database.mem_collect collected).mp member
      have nodup : (records.map Prod.fst).Nodup := rows.map_on fun a first b second same =>
        values_unique stored (within a first).1 (within b second).1 same
      refine null.deleteRecords_fails valid liveX ?_ nodup liveY (fun r member table address => ?_) loop
      · refine (Database.mem_collect collected).mpr ⟨?_, selects⟩
        rw [← null.tableX]
        exact liveX
      · have row : (y.address, y.values) ∈ (s t.name).rows := by
          rw [← table]
          exact liveY
        have same := values_unique stored row (within r member).1 address
        have chosen := (within r member).2
        rw [← same] at chosen
        exact own table chosen

open Classical in
theorem delete_cascade_removes (null : NullReference db.schema t t' c fk x y) (valid : s.Valid db.schema)
    (liveX : x ∈ s.live) (liveY : y ∈ s.live) {filter : Option (Filter J F)} (selects : db.Selects filter x.values)
    {fuel n : ℕ} {s' : DbState J} (run : db.delete fuel t .cascade filter s = .ok (n, s')) : y ∉ s'.live := by
  obtain ⟨records, collected, _⟩ : ∃ records, db.collectMatchingRecords t filter s = .ok records ∧ True := by
    cases fuel with
    | zero => cases run
    | succ fuel =>
        obtain ⟨records, collected, _⟩ := bind_eq_ok.mp run
        exact ⟨records, collected, trivial⟩
  have safe : db.Evaluates filter (db.access t filter (s t.name).rows) := Database.evaluates_of_matching collected
  rw [delete_eq_outcome valid fuel null.referenced safe] at run
  cases removed : cascade db.edges (db.gather s) fuel (db.batch t filter s) s.live with
  | error stop =>
      rw [removed] at run
      cases stop <;> cases run
  | ok result =>
      obtain ⟨S', m⟩ := result
      rw [removed] at run
      obtain ⟨rfl, rfl⟩ := Prod.mk.inj (Except.ok.inj run)
      have leaves := cascade_ok (gathers valid) (live_finite valid) removed
      rw [leaves.rest]
      intro there
      have kept : (y.address, y.values) ∈ (s.restrict (s.live \ reached db.edges (db.Hits s) s.live
          { x | x ∈ db.batch t filter s }) y.table).rows := there
      rw [restrict_rows] at kept
      have free := of_decide_eq_true (List.mem_filter.mp kept).2
      refine free (reached_child (x := x) ?_ (null.follows valid liveX liveY) liveY)
      exact subset_reached ⟨mem_batch.mpr ⟨liveX, null.tableX, selects⟩, liveX⟩

/-- A row with a `Null` foreign key to a column that is `Null` in another record: with
`Restrict` the record is not deleted, with `Cascade` it is not deleted without the row,
and the update of the column to a value changes the row. -/
theorem null_reference_followed (valid : s.Valid db.schema) (null : NullReference db.schema t t' c fk x y)
    (liveX : x ∈ s.live) (liveY : y ∈ s.live) {filter : Option (Filter J F)} (selects : db.Selects filter x.values)
    (own : y.table = t.name → db.Selects filter y.values → y = x) :
    (∀ fuel n s', db.delete fuel t .restrict filter s ≠ .ok (n, s')) ∧
    (∀ fuel n s', db.delete fuel t .cascade filter s = .ok (n, s') → y ∉ s'.live) ∧
    ∀ patch new v, t.sanitizeValues (patchValues patch x.values) = .ok new →
      findColumn fk.foreignColumn new = some v → v ≠ .null →
      (∀ typed, Database.typedPatch t' [(c.name, v)] = .ok typed → Database.Moves t' typed y.values) →
      ∀ fuel n s', db.update fuel t patch filter s = .ok (n, s') → Loses db y n s s' := by
  refine ⟨delete_restrict_fails null valid liveX liveY selects own,
    fun _ _ _ => delete_cascade_removes null valid liveX liveY selects, ?_⟩
  intro patch new v sanitized value filled moves fuel n s' run
  refine (update_loses run).2 y liveY ⟨x, liveX, null.tableX, selects, .inr fun new' rewrites sanitized' found => ?_⟩
  obtain rfl := Except.ok.inj (sanitized.symm.trans sanitized')
  refine ⟨_, mem_rewrites found null.referencing null.column null.key null.points null.nullX value (Ne.symm filled),
    null.tableY, selects_eq null.nullY, fun t₁ listed name typed => ?_⟩
  obtain rfl := List.inj_on_of_nodup_map db.schema.names listed null.referencing name
  exact moves typed

end Followed

/-! ## Users and their badges -/

namespace Badges

def id : ColumnDef := ⟨"id", .uint32, false, false, true, false, none⟩

def code : ColumnDef := ⟨"code", .uint32, false, true, false, false, none⟩

def userCode : ColumnDef := ⟨"user_code", .uint32, false, true, false, false, some ⟨"user_code", "users", "code"⟩⟩

theorem userNames : ([id, code].map ColumnDef.name).Nodup := by decide

theorem userKeys : ∀ c ∈ [id, code], c.primaryKey = true → c.name = "id" := by decide

theorem badgeNames : ([id, userCode].map ColumnDef.name).Nodup := by decide

theorem badgeKeys : ∀ c ∈ [id, userCode], c.primaryKey = true → c.name = "id" := by decide

theorem keyed {c : ColumnDef} : ∃ k ∈ [id, c], k.name = "id" ∧ k.primaryKey = true := ⟨id, List.mem_cons_self, rfl, rfl⟩

theorem indexNames : ([⟨["id"]⟩].map IndexDef.columns).Nodup := List.nodup_singleton _

theorem keyIndex : ([⟨["id"]⟩] : List IndexDef) ≠ [] := List.cons_ne_nil _ _

/-- Users with a code, which may be missing. -/
def users : TableDef ℕ where
  name := "users"
  columns := [id, code]
  primaryKey := "id"
  indexes := [⟨["id"]⟩]
  sanitizer _ := none
  validator _ := none
  columnNames := userNames
  keyed := keyed
  oneKey := userKeys
  indexNames := indexNames
  keyIndex := keyIndex

/-- Badges with the code of a user or without one. -/
def badges : TableDef ℕ where
  name := "badges"
  columns := [id, userCode]
  primaryKey := "id"
  indexes := [⟨["id"]⟩]
  sanitizer _ := none
  validator _ := none
  columnNames := badgeNames
  keyed := keyed
  oneKey := badgeKeys
  indexNames := indexNames
  keyIndex := keyIndex

theorem foreign_key {t : TableDef ℕ} (listed : t ∈ [users, badges]) {c : ColumnDef} (column : c ∈ t.columns)
    {fk : ForeignKeyDef} (key : c.foreignKey = some fk) :
    t = badges ∧ c = userCode ∧ fk = ⟨"user_code", "users", "code"⟩ := by
  rcases List.mem_pair.mp listed with rfl | rfl
  · have cases : c = id ∨ c = code := by simpa [users] using column
    rcases cases with rfl | rfl <;> cases key
  · have cases : c = id ∨ c = userCode := by simpa [badges] using column
    rcases cases with rfl | rfl
    · cases key
    · exact ⟨rfl, rfl, (Option.some.inj key).symm⟩

def schema : DatabaseSchema ℕ where
  tables := [users, badges]
  names := by decide
  local_ t listed c column fk key := by
    obtain ⟨_, rfl, rfl⟩ := foreign_key listed column key
    rfl
  foreign t listed c column fk key t' listed' same := by
    obtain ⟨_, _, rfl⟩ := foreign_key listed column key
    rcases List.mem_pair.mp listed' with rfl | rfl
    · exact ⟨code, by decide, rfl⟩
    · exact absurd same (by decide)

def db : Database ℕ Empty := .scanning schema ⟨fun _ => .error "", fun f => f.elim, fun f => f.elim⟩

def empty : DbState ℕ := fun name =>
  if name = "users" ∨ name = "badges" then ⟨[], [(["id"], [])]⟩ else ⟨[], []⟩

def user : Row ℕ := [(id, .uint32 1), (code, .null)]

def badge : Row ℕ := [(id, .uint32 7), (userCode, .null)]

def one : DbState ℕ :=
  Function.update empty "users" ⟨[(⟨0, 0⟩, user)], [(["id"], [([.uint32 1], ⟨0, 0⟩)])]⟩

/-- A user without a code and a badge without a user. -/
def both : DbState ℕ :=
  Function.update one "badges" ⟨[(⟨0, 0⟩, badge)], [(["id"], [([.uint32 7], ⟨0, 0⟩)])]⟩

theorem both_valid : both.Valid schema := by
  refine ⟨?_, ?_⟩
  · intro t listed
    rcases List.mem_pair.mp listed with rfl | rfl
    · refine ⟨?_, by decide, rfl, ?_⟩
      · intro x member
        obtain rfl := List.mem_singleton.mp member
        refine ⟨rfl, fun entry member => ?_⟩
        rcases List.mem_pair.mp member with rfl | rfl
        · exact .inl rfl
        · exact .inr ⟨rfl, rfl⟩
      · intro index member
        obtain rfl := List.mem_singleton.mp member
        exact ⟨List.pairwise_singleton _ _, .refl _⟩
    · refine ⟨?_, by decide, rfl, ?_⟩
      · intro x member
        obtain rfl := List.mem_singleton.mp member
        refine ⟨rfl, fun entry member => ?_⟩
        rcases List.mem_pair.mp member with rfl | rfl
        · exact .inl rfl
        · exact .inr ⟨rfl, rfl⟩
      · intro index member
        obtain rfl := List.mem_singleton.mp member
        exact ⟨List.pairwise_singleton _ _, .refl _⟩
  · intro name other
    have notUsers : name ≠ "users" := fun same => other users List.mem_cons_self same.symm
    have notBadges : name ≠ "badges" := fun same => other badges (by simp [schema]) same.symm
    unfold both one empty
    rw [Function.update_of_ne notBadges, Function.update_of_ne notUsers, if_neg (by simp [notUsers, notBadges])]

theorem badge_null : NullReference schema users badges userCode ⟨"user_code", "users", "code"⟩
    ⟨"users", ⟨0, 0⟩, user⟩ ⟨"badges", ⟨0, 0⟩, badge⟩ where
  referenced := List.mem_cons_self
  referencing := by simp [schema]
  column := by decide
  key := rfl
  points := rfl
  tableX := rfl
  tableY := rfl
  nullX := rfl
  nullY := rfl

/-- The badge is followed from the user; a code for the user is one for the badge. -/
theorem null_badge_followed : (∀ fuel n s', db.delete fuel users .restrict none both ≠ .ok (n, s')) ∧
    ∀ fuel n s', db.update fuel users [(code, .uint32 5)] none both = .ok (n, s') →
      Loses db ⟨"badges", ⟨0, 0⟩, badge⟩ n both s' := by
  have liveX : (⟨"users", ⟨0, 0⟩, user⟩ : Entry ℕ) ∈ both.live := List.mem_cons_self
  have liveY : (⟨"badges", ⟨0, 0⟩, badge⟩ : Entry ℕ) ∈ both.live := List.mem_cons_self
  have selected : db.Selects none user := rfl
  obtain ⟨restricted, _, updated⟩ := null_reference_followed both_valid badge_null liveX liveY selected
    fun same => absurd same (by decide)
  refine ⟨restricted, updated _ _ (.uint32 5) rfl rfl (by simp) fun typed run new record sanitized made => ?_⟩
  obtain rfl : [(userCode, .uint32 5)] = typed := Except.ok.inj run
  obtain rfl : [(id, .uint32 7), (userCode, .uint32 5)] = new := Except.ok.inj sanitized
  obtain rfl : [(id, .uint32 7), (userCode, .uint32 5)] = record := Except.ok.inj made
  decide

/-- The user alone is deleted. With the badge it is not deleted with `Restrict` and the
badge is deleted with `Cascade`, and a code for the user becomes the code of the badge. -/
theorem null_badge_in_the_way : ∃ s₁ s₂ s₃ s₄ s₅, db.insert users user empty = .ok s₁ ∧
    db.insert badges badge s₁ = .ok s₂ ∧ db.delete 1 users .restrict none s₁ = .ok (1, s₃) ∧
    db.delete 1 users .restrict none s₂ = .error (.error (.query (.foreignKeyConstraintViolation "users" "id"))) ∧
    db.delete 2 users .cascade none s₂ = .ok (2, s₄) ∧ (s₄ "badges").rows = [] ∧
    db.update 2 users [(code, .uint32 5)] none s₂ = .ok (2, s₅) ∧
    (s₅ "badges").rows = [(⟨0, 0⟩, [(id, .uint32 7), (userCode, .uint32 5)])] :=
  ⟨one, both, _, _, _, rfl, rfl, rfl, rfl, rfl, rfl, rfl, rfl⟩

end Badges

end WasmDbms
