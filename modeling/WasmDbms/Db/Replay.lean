import WasmDbms.Db.Mirror
import WasmDbms.Db.Termination

/-!
# What the commit makes of an operation

The stored records after an operation of a transaction is applied, when they mirror the
rows that were shown before it.
-/
namespace WasmDbms
open Result

variable {J F : Type} [LinearOrder J]

section Change
variable {schema : DatabaseSchema J} {view : View J} {s s' : DbState J} {t : TableDef J}
variable (listed : t ∈ schema.tables) (others : ∀ name ≠ t.name, (s' name).rows = (s name).rows)
include listed others

omit [LinearOrder J] in
/-- A change of one table. -/
theorem DbState.Clean.change (clean : s.Clean schema) (typed : ∀ x ∈ (s' t.name).rows, RowOf t.columns x.2)
    (addresses : ((s' t.name).rows.map Prod.fst).Nodup)
    (keys : ((s' t.name).rows.map fun x => findColumn t.primaryKey x.2).Nodup) : s'.Clean schema := by
  refine ⟨?_, ?_, ?_⟩ <;> intro t' listed' <;> by_cases same : t'.name = t.name
  case pos | pos | pos =>
    obtain rfl := List.inj_on_of_nodup_map schema.names listed' listed same
    assumption
  all_goals rw [others t'.name same]
  · exact clean.typed t' listed'
  · exact clean.addresses t' listed'
  · exact clean.keys t' listed'

omit [LinearOrder J] in
theorem Mirrors.change (mirrors : Mirrors schema view s) {rows : List (Row J)}
    (complete : ∀ row ∈ rows, Complete t row) (perm : (s'.view t.name).Perm (rows.map t.columnValues)) :
    Mirrors schema (Function.update view t.name rows) s' := by
  refine ⟨?_, ?_⟩ <;> intro t' listed' <;> by_cases same : t'.name = t.name
  case pos | pos =>
    obtain rfl := List.inj_on_of_nodup_map schema.names listed' listed same
    rw [Function.update_self]
    assumption
  all_goals rw [Function.update_of_ne same]
  · exact mirrors.complete t' listed'
  · rw [DbState.view, others t'.name same]
    exact mirrors.rows t' listed'

end Change

section Checks
variable {db : Database J F} {view : View J} {t : TableDef J} {values : Row J}

/-- The rows an equality selects. -/
theorem select_eq {field : String} {value : Value J} :
    db.select view t (some (.eq field value)) = .ok ((view t.name).filter (anyColumn field fun v => v = value)) :=
  selectMatching_eq fun _ _ => rfl

theorem validate_own {own : Except (Failure J) Unit} (valid : db.validate view t values own = .ok ()) :
    own = .ok () := by
  obtain ⟨_, _, valid⟩ := bind_eq_ok.mp valid
  obtain ⟨_, passes, _⟩ := bind_eq_ok.mp valid
  exact passes

omit [LinearOrder J] in
theorem requiredKey_ok {key : Value J} (run : Database.requiredKey t values = .ok key) :
    findColumn t.primaryKey values = some key := by
  unfold Database.requiredKey at run
  split at run
  next found =>
    cases run
    exact found
  next => cases run

/-- No row with the key of the value is selected. -/
theorem absent_of_select {field : String} {key : Value J} {row : Row J}
    (none_ : (view t.name).filter (anyColumn field fun v => v = key) = []) (member : row ∈ view t.name) :
    findColumn field row ≠ some key := by
  intro keyed
  obtain ⟨entry, inside, name, value⟩ := mem_of_findColumn keyed
  have holds : anyColumn field (fun v => v = key) row = true := anyColumn_eq.mpr ⟨entry, inside, name, value⟩
  exact List.filter_eq_nil_iff.mp none_ row member holds

/-- An insertion that is valid has a new key. -/
theorem validateInsert_key (valid : db.validateInsert view t values = .ok ()) :
    ∃ key, findColumn t.primaryKey values = some key ∧
      ∀ row ∈ view t.name, findColumn t.primaryKey row ≠ some key := by
  obtain ⟨key, keyed, own⟩ := bind_eq_ok.mp (validate_own valid)
  rw [select_eq] at own
  obtain ⟨_, selected, own⟩ := bind_eq_ok.mp own
  cases selected
  refine ⟨key, requiredKey_ok keyed, fun row member => ?_⟩
  dsimp only at own
  split at own
  next => cases own
  next empty => exact absent_of_select (by simpa using empty) member

/-- An update that is valid keeps the key or has a new one. -/
theorem validateUpdate_key {oldKey : Value J} (valid : db.validateUpdate view t values oldKey = .ok ()) :
    ∃ key, findColumn t.primaryKey values = some key ∧
      (key = oldKey ∨ ∀ row ∈ view t.name, findColumn t.primaryKey row ≠ some key) := by
  obtain ⟨key, keyed, own⟩ := bind_eq_ok.mp (validate_own valid)
  rw [select_eq] at own
  obtain ⟨_, selected, own⟩ := bind_eq_ok.mp own
  cases selected
  refine ⟨key, requiredKey_ok keyed, ?_⟩
  dsimp only at own
  split at own
  next => cases own
  next passes =>
    rw [Bool.not_eq_true', Bool.not_eq_false, Bool.or_eq_true, Bool.and_eq_true] at passes
    rcases passes with empty | ⟨_, same⟩
    · exact .inr fun row member => absent_of_select (List.isEmpty_iff.mp empty) member
    · exact .inl (of_decide_eq_true same)

end Checks

/-- The sanitizers leave the values as they are. -/
def TableDef.Settled (table : TableDef J) (values : Row J) : Prop := table.sanitizeValues values = .ok values

section Insert
variable {db : Database J F} {view : View J} {t : TableDef J} {values : Row J} {s s' : DbState J}

/-- An insertion that the sanitizers leave alone stores the row that is shown. -/
theorem insert_mirrors (listed : t ∈ db.schema.tables) (clean : s.Clean db.schema)
    (mirrors : Mirrors db.schema view s) (complete : Complete t values) (settled : t.Settled (t.columnValues values))
    {key : Value J} (keyed : primaryKeyOf values = some key) (run : db.insertValues t values s = .ok s') :
    s'.Clean db.schema ∧
      Mirrors db.schema (Function.update view t.name (overlayRows [.insert key values] (view t.name))) s' := by
  obtain ⟨record, made, run⟩ := bind_eq_ok.mp run
  obtain rfl := fromValues_eq (Failure.lift_eq_ok.mp made)
  obtain ⟨sanitized, same, run⟩ := bind_eq_ok.mp run
  obtain rfl := Except.ok.inj (settled.symm.trans (Failure.lift_eq_ok.mp same))
  obtain ⟨_, valid, run⟩ := bind_eq_ok.mp run
  obtain ⟨record, made, run⟩ := bind_eq_ok.mp run
  have row := complete.columnValues_row
  obtain rfl : record = t.columnValues values :=
    (fromValues_eq (Failure.lift_eq_ok.mp made)).trans (columnValues_eq row)
  obtain ⟨indexes, _, run⟩ := bind_eq_ok.mp run
  cases run
  obtain ⟨key', keyed', absent⟩ := validateInsert_key valid
  rw [complete.findColumn_columnValues, ← complete.primaryKeyOf_eq, keyed] at keyed'
  cases keyed'
  have whole := mirrors.complete t listed
  have others : ∀ name ≠ t.name, (Function.update s t.name (⟨(s t.name).rows ++
      [(db.place t ((s t.name).rows.map Prod.fst) (t.columnValues values), t.columnValues values)], indexes⟩ :
      TableData J) name).rows = (s name).rows := fun name other => by rw [Function.update_of_ne other]
  constructor
  · apply clean.change listed others <;> rw [Function.update_self]
    · intro x member
      rcases List.mem_append.mp member with old | new
      · exact clean.typed t listed x old
      · obtain rfl := List.mem_singleton.mp new
        exact row
    · rw [List.map_append, List.nodup_append']
      refine ⟨clean.addresses t listed, List.nodup_singleton _, List.disjoint_singleton.mpr ?_⟩
      exact db.fresh t _ _
    · rw [List.map_append, List.nodup_append']
      refine ⟨clean.keys t listed, List.nodup_singleton _, List.disjoint_singleton.mpr ?_⟩
      dsimp only
      rw [complete.findColumn_columnValues, ← complete.primaryKeyOf_eq, keyed]
      intro taken
      obtain ⟨x, there, same⟩ := List.mem_map.mp taken
      exact absent x.2 (List.mem_map_of_mem there) same
  · have free : (view t.name).filter (fun row => decide (primaryKeyOf row ≠ some key)) = view t.name := by
      refine List.filter_eq_self.mpr fun row member => decide_eq_true fun taken => ?_
      obtain ⟨x, there, same⟩ := mirrors.stored listed member
      refine absent x.2 (List.mem_map_of_mem there) ?_
      rw [same, (whole row member).findColumn_columnValues, ← (whole row member).primaryKeyOf_eq, taken]
    rw [overlayRows_insert whole complete, free]
    apply mirrors.change listed others
    · intro row member
      rcases List.mem_append.mp member with old | new
      · exact whole row old
      · obtain rfl := List.mem_singleton.mp new
        exact complete
    · rw [DbState.view, Function.update_self, List.map_append, List.map_append]
      exact (mirrors.rows t listed).append_right _

end Insert

/-- Only records of one table for which this holds are taken away. -/
structure Removes (t : TableDef J) (A : RecordAddress × Row J → Prop) (s s' : DbState J) : Prop where
  others : ∀ name ≠ t.name, (s' name).rows = (s name).rows
  sublist : (s' t.name).rows.Sublist (s t.name).rows
  keeps : ∀ x ∈ (s t.name).rows, ¬ A x → x ∈ (s' t.name).rows

section Delete
variable {db : Database J F} {t : TableDef J} {A : RecordAddress × Row J → Prop} {s s' s₀ : DbState J}

omit [LinearOrder J] in
theorem Removes.refl (s : DbState J) : Removes t A s s := ⟨fun _ _ => rfl, .refl _, fun _ member _ => member⟩

omit [LinearOrder J] in
theorem Removes.trans {a b c : DbState J} (first : Removes t A a b) (second : Removes t A b c) : Removes t A a c :=
  ⟨fun name other => (second.others name other).trans (first.others name other),
    second.sublist.trans first.sublist, fun x member out => second.keeps x (first.keeps x member out) out⟩

omit [LinearOrder J] in
theorem Removes.within (removes : Removes t A s s') : s'.Within s := by
  intro name
  by_cases here : name = t.name
  · subst here
    exact removes.sublist.subset
  · rw [removes.others name here]
    exact List.Subset.refl _

theorem deleteRecord_removes {address : RecordAddress} {values : Row J}
    (own : ∀ x ∈ (s t.name).rows, x.1 = address → A x) (run : deleteRecord t address values s = .ok s') :
    Removes t A s s' ∧ ∀ x ∈ (s' t.name).rows, x.1 ≠ address := by
  obtain ⟨indexes, _, run⟩ := bind_eq_ok.mp run
  obtain rfl := pure_eq_ok.mp run
  refine ⟨⟨fun name other => by rw [Function.update_of_ne other], ?_, ?_⟩, ?_⟩ <;> rw [Function.update_self]
  · exact List.filter_sublist
  · exact fun x member out => List.mem_filter.mpr ⟨member, decide_eq_true fun same => out (own x member same)⟩
  · exact fun x member => of_decide_eq_true (List.mem_filter.mp member).2

variable (addresses : ((s₀ t.name).rows.map Prod.fst).Nodup)
include addresses

/-- The loop takes away the records it is given, and others only where the nested calls
do. -/
theorem deleteRecords_removes {behaviour : DeleteBehavior}
    {follow : DatabaseSchema.Reference J → DbState J → Except (Failure J) (ℕ × DbState J)}
    (resolves : ∀ x, A x → x ∈ (s₀ t.name).rows → ∀ s n s', s.Within s₀ →
      db.resolveReferences behaviour follow t x.2 s = .ok (n, s') → Removes t A s s')
    {records : List (RecordAddress × Row J)} (own : ∀ x ∈ records, x ∈ (s₀ t.name).rows ∧ A x)
    (within : s.Within s₀) {n : ℕ} (run : db.deleteRecords behaviour follow t records s = .ok (n, s')) :
    Removes t A s s' ∧ ∀ x ∈ records, x ∉ (s' t.name).rows := by
  induction records generalizing s n with
  | nil =>
      cases run
      exact ⟨.refl _, nofun⟩
  | cons x rest ih =>
      obtain ⟨⟨there, inside⟩, later⟩ := List.forall_mem_cons.mp own
      obtain ⟨⟨m, s₁⟩, first, run⟩ := bind_eq_ok.mp run
      obtain ⟨s₂, gone, run⟩ := bind_eq_ok.mp run
      obtain ⟨⟨k, s₃⟩, second, run⟩ := bind_eq_ok.mp run
      cases run
      have resolved := resolves x inside there s m s₁ within first
      have within₁ := resolved.within.trans within
      have only : ∀ y ∈ (s₁ t.name).rows, y.1 = x.1 → A y := by
        intro y member same
        obtain rfl := List.inj_on_of_nodup_map addresses (within₁ _ member) there same
        exact inside
      obtain ⟨removed, absent⟩ := deleteRecord_removes only gone
      obtain ⟨others, missing⟩ := ih later (removed.within.trans within₁) second
      refine ⟨(resolved.trans removed).trans others, List.forall_mem_cons.mpr ⟨fun member => ?_, missing⟩⟩
      exact absent x (others.sublist.subset member) rfl

omit [LinearOrder J] addresses in
/-- References are followed to such records only. -/
theorem deleteReferences_removes
    {follow : DatabaseSchema.Reference J → DbState J → Except (Failure J) (ℕ × DbState J)}
    {references : List (DatabaseSchema.Reference J)}
    (nested : ∀ r ∈ references, ∀ s n s', s.Within s₀ → follow r s = .ok (n, s') → Removes t A s s')
    (within : s.Within s₀) {n : ℕ} (run : Database.deleteReferences follow references s = .ok (n, s')) :
    Removes t A s s' := by
  induction references generalizing s n with
  | nil =>
      cases run
      exact .refl _
  | cons r rest ih =>
      obtain ⟨here, later⟩ := List.forall_mem_cons.mp nested
      obtain ⟨⟨m, s₁⟩, first, run⟩ := bind_eq_ok.mp run
      obtain ⟨⟨k, s₂⟩, second, run⟩ := bind_eq_ok.mp run
      cases run
      have removed := here s m s₁ within first
      exact removed.trans (ih later (removed.within.trans within) second)

/-- A deletion that selects only such records takes only such records away, among them
all that it selects. -/
theorem delete_removes (fuel : ℕ) {behaviour : DeleteBehavior} {t' : TableDef J} {filter : Option (Filter J F)}
    (closed : behaviour = .cascade → ∀ x ∈ (s₀ t.name).rows, A x → ∀ references,
      db.schema.referencingColumns t.name x.2 = .ok references → ∀ r ∈ references, ∀ t'',
        db.schema.table r.table = .ok t'' → ∀ y ∈ (s₀ t''.name).rows,
          db.Selects (some (.eq r.column r.value)) y.2 → t'' = t ∧ A y)
    (selects : ∀ y ∈ (s₀ t'.name).rows, db.Selects filter y.2 → t' = t ∧ A y) (within : s.Within s₀) {n : ℕ}
    (run : db.delete fuel t' behaviour filter s = .ok (n, s')) :
    Removes t A s s' ∧ ∀ records, db.collectMatchingRecords t' filter s = .ok records →
      ∀ x ∈ records, x ∉ (s' t'.name).rows := by
  induction fuel generalizing behaviour t' filter s n s' with
  | zero => cases run
  | succ fuel ih =>
      obtain ⟨records, collected, run⟩ := bind_eq_ok.mp run
      obtain ⟨⟨m, s₁⟩, loop, run⟩ := bind_eq_ok.mp run
      cases run
      rw [collected]
      cases records with
      | nil =>
          cases loop
          refine ⟨.refl _, ?_⟩
          rintro records ⟨⟩ x member
          cases member
      | cons x rest =>
          have own : ∀ y ∈ x :: rest, y ∈ (s₀ t'.name).rows ∧ t' = t ∧ A y := by
            intro y member
            obtain ⟨there, selected⟩ := (Database.mem_collect collected).mp member
            exact ⟨within _ there, selects y (within _ there) selected⟩
          obtain ⟨_, rfl, _⟩ := own x List.mem_cons_self
          have resolves : ∀ x, A x → x ∈ (s₀ t'.name).rows → ∀ s n s', s.Within s₀ →
              db.resolveReferences behaviour (db.follow fuel) t' x.2 s = .ok (n, s') → Removes t' A s s' := by
            intro x inside there s n s' within run
            cases behaviour with
            | restrict =>
                obtain ⟨b, _, run⟩ := bind_eq_ok.mp run
                cases b <;> cases run
                exact .refl _
            | cascade =>
                obtain ⟨references, found, run⟩ := bind_eq_ok.mp run
                refine deleteReferences_removes (fun r member s n s' within followed => ?_) within run
                obtain ⟨t'', lookup, followed⟩ := bind_eq_ok.mp followed
                have reached := closed rfl x there inside references (Failure.lift_eq_ok.mp found) r member t''
                  (Failure.lift_eq_ok.mp lookup)
                exact (ih closed reached within followed).1
          obtain ⟨removed, missing⟩ := deleteRecords_removes addresses resolves
            (fun y member => ⟨(own y member).1, (own y member).2.2⟩) within loop
          refine ⟨removed, ?_⟩
          rintro records ⟨⟩
          exact missing

end Delete

/-- The rows that reference one of these rows are among them. -/
def Enclosed (schema : DatabaseSchema J) (view : View J) (t : TableDef J) (rows : List (Row J)) : Prop :=
  ∀ row ∈ rows, ∀ t' ∈ schema.tables, ∀ c ∈ t'.columns, ∀ fk, c.foreignKey = some fk → fk.foreignTable = t.name →
    ∀ value, findColumn fk.foreignColumn row = some value →
      ∀ other ∈ view t'.name, findColumn c.name other = some value → t' = t ∧ other ∈ rows

/-- The nested updates of a call with this fuel. -/
def Database.followRewrite (db : Database J F) (fuel : ℕ) (r : Database.Rewrite J) (s : DbState J) :
    Except (Failure J) (ℕ × DbState J) := do
  let t ← Failure.lift (db.schema.table r.table)
  let patch ← Failure.lift (Database.typedPatch t [(r.column, r.new)])
  db.update fuel t patch (some (.eq r.column r.old)) s

/-- The references that the patch of a row rewrites are not those of another row. -/
def Database.Unreached (db : Database J F) (t : TableDef J) (patch row : Row J) (name : String) (other : Row J) :
    Prop :=
  ∀ changes, db.rewrites t row (patchValues patch row) = .ok changes → ∀ r ∈ changes, r.table = name →
    anyColumn r.column (fun v => v = r.old) other = false

section Update
variable {db : Database J F} {t : TableDef J} {patch : Row J} {s s' : DbState J} {fuel n : ℕ}

omit [LinearOrder J] in
/-- A typed patch sets each column at most once, to a value it takes. -/
theorem typedPatch_patches {values : List (String × Value J)} (run : Database.typedPatch t values = .ok patch) :
    Patches t patch := by
  obtain ⟨_, accepted, run⟩ := bind_eq_ok.mp run
  cases run
  have from_ : ∀ entry ∈ t.columns.filterMap fun c =>
      ((values.filter fun entry => entry.1 == c.name).getLast?).map fun entry => (c, entry.2),
      entry.1 ∈ t.columns ∧ (entry.1.name, entry.2) ∈ values := by
    intro entry member
    obtain ⟨c, column, made⟩ := List.mem_filterMap.mp member
    obtain ⟨e, last, rfl⟩ := Option.map_eq_some_iff.mp made
    obtain ⟨there, name⟩ := List.mem_filter.mp (List.mem_of_getLast? last)
    refine ⟨column, ?_⟩
    rw [← beq_iff_eq.mp name]
    exact there
  refine ⟨?_, fun entry member => (from_ entry member).1, fun entry member => ?_⟩
  · refine List.Nodup.sublist ?_ t.columnNames
    clear from_
    induction t.columns with
    | nil => exact .slnil
    | cons c rest ih =>
        rw [List.filterMap_cons, List.map_cons]
        cases (values.filter fun entry => entry.1 == c.name).getLast? with
        | none => exact ih.cons _
        | some e => exact ih.cons_cons _
  · obtain ⟨column, there⟩ := from_ entry member
    have passes := forM_ok accepted _ there
    have found : t.columns.find? (fun c => c.name == entry.1.name) = some entry.1 := by
      cases search : t.columns.find? fun c => c.name == entry.1.name with
      | none =>
          have absent := List.find?_eq_none.mp search entry.1 column
          simp at absent
      | some c =>
          have name : c.name = entry.1.name := by simpa using List.find?_some search
          rw [List.inj_on_of_nodup_map t.columnNames (List.mem_of_find?_eq_some search) column name]
    unfold Database.checkPatch at passes
    rw [found] at passes
    dsimp only at passes
    split at passes
    next accepts => exact accepts_iff.mp accepts
    next => cases passes

/-- An update that selects no record changes nothing. -/
theorem update_idle {field : String} {value : Value J}
    (none_ : ∀ y ∈ (s t.name).rows, anyColumn field (fun v => v = value) y.2 = false)
    (run : db.update fuel t patch (some (.eq field value)) s = .ok (n, s')) : s' = s := by
  cases fuel with
  | zero => cases run
  | succ fuel =>
      obtain ⟨records, collected, run⟩ := bind_eq_ok.mp run
      cases records with
      | nil =>
          cases run
          rfl
      | cons x rest =>
          obtain ⟨there, selected⟩ := (Database.mem_collect collected).mp List.mem_cons_self
          have holds : Failure.lift (.ok (anyColumn field (fun v => v = value) x.2)) = .ok true := selected
          rw [none_ x there] at holds
          cases holds

omit [LinearOrder J] in
theorem rewriteAll_idle {follow : Database.Rewrite J → DbState J → Except (Failure J) (ℕ × DbState J)}
    {changes : List (Database.Rewrite J)} (idle : ∀ r ∈ changes, ∀ n s', follow r s = .ok (n, s') → s' = s)
    (run : Database.rewriteAll follow changes s = .ok (n, s')) : s' = s := by
  induction changes generalizing n with
  | nil =>
      cases run
      rfl
  | cons r rest ih =>
      obtain ⟨here, later⟩ := List.forall_mem_cons.mp idle
      obtain ⟨⟨m, s₁⟩, first, run⟩ := bind_eq_ok.mp run
      obtain ⟨⟨k, s₂⟩, second, run⟩ := bind_eq_ok.mp run
      cases run
      obtain rfl := here m s₁ first
      exact ih later second

/-- The patched record in the place of the old one. -/
structure Replaces (t : TableDef J) (x : RecordAddress × Row J) (address : RecordAddress) (values : Row J)
    (s s' : DbState J) : Prop where
  others : ∀ name ≠ t.name, (s' name).rows = (s name).rows
  rows : (s' t.name).rows = (s t.name).rows.map fun y => if y.1 = x.1 then (address, values) else y
  free : ∀ y ∈ (s t.name).rows, y.1 ≠ x.1 → y.1 ≠ address
  key : findColumn t.primaryKey values = primaryKeyOf x.2 ∨
    ∀ y ∈ (s t.name).rows, findColumn t.primaryKey y.2 ≠ findColumn t.primaryKey values

variable {x : RecordAddress × Row J}

/-- A turn of the loop that the sanitizers leave alone and that reaches no other record
replaces one record. -/
theorem updateRecord_replaces (row : RowOf t.columns (patchValues patch x.2))
    (settled : t.Settled (patchValues patch x.2))
    (unreached : ∀ t' ∈ db.schema.tables, ∀ y ∈ (s t'.name).rows, (t'.name = t.name → y.1 ≠ x.1) →
      db.Unreached t patch x.2 t'.name y.2)
    (own : db.Unreached t patch x.2 t.name (patchValues patch x.2))
    (run : db.updateRecord (db.followRewrite fuel) t patch x.1 x.2 s = .ok (n, s')) :
    ∃ address, Replaces t x address (patchValues patch x.2) s s' := by
  obtain ⟨oldKey, newValues, record, s₁, changes, m, keyed, sanitized, valid, made, replaced, found, rewritten, _⟩ :=
    updateRecord_ok run
  obtain rfl := Except.ok.inj (settled.symm.trans sanitized)
  obtain rfl : record = patchValues patch x.2 := (fromValues_eq made).trans (columnValues_eq row)
  obtain ⟨indexes, _, placed⟩ := bind_eq_ok.mp replaced
  have placed := pure_eq_ok.mp placed
  generalize moved : (if db.sameSize t x.2 (patchValues patch x.2) = true then x.1 else
    db.place t (((s t.name).rows.map Prod.fst).filter fun a => a ≠ x.1) (patchValues patch x.2)) = address at placed
  refine ⟨address, ?_⟩
  have replaces : Replaces t x address (patchValues patch x.2) s s₁ := by
    subst placed
    refine ⟨fun name other => by rw [Function.update_of_ne other], by rw [Function.update_self], ?_, ?_⟩
    · intro y member other same
      subst moved
      split at same
      next => exact other same
      next =>
        refine db.fresh t (((s t.name).rows.map Prod.fst).filter fun a => a ≠ x.1) (patchValues patch x.2) ?_
        rw [← same]
        exact List.mem_filter.mpr ⟨List.mem_map_of_mem member, decide_eq_true other⟩
    · obtain ⟨key, newKey, same | absent⟩ := validateUpdate_key valid
      · exact .inl (by rw [newKey, keyed, same])
      · refine .inr fun y member => ?_
        rw [newKey]
        exact absent y.2 (List.mem_map_of_mem member)
  obtain rfl : s' = s₁ := by
    refine rewriteAll_idle (fun r member k s₂ followed => ?_) rewritten
    obtain ⟨t', lookup, followed⟩ := bind_eq_ok.mp followed
    obtain ⟨patch', _, followed⟩ := bind_eq_ok.mp followed
    obtain ⟨listed, named⟩ := DatabaseSchema.table_ok (Failure.lift_eq_ok.mp lookup)
    refine update_idle (fun y stored => ?_) followed
    by_cases here : t'.name = t.name
    · rw [here, replaces.rows] at stored
      obtain ⟨z, member', same⟩ := List.mem_map.mp stored
      split at same
      next =>
        rw [← same]
        exact own changes found r member (named.symm.trans here)
      next other =>
        subst same
        exact unreached t' listed z (here ▸ member') (fun _ => other) changes found r member named.symm
    · rw [replaces.others t'.name here] at stored
      exact unreached t' listed y stored (fun same => absurd same here) changes found r member named.symm
  exact replaces

/-- Values of which one is replaced by a new one. -/
theorem nodup_replaced {α β : Type} {l : List α} {f : α → β} (nodup : (l.map f).Nodup) {p : α → Prop}
    [DecidablePred p] (one : ∀ y ∈ l, ∀ z ∈ l, p y → p z → y = z) {b : β} (new : ∀ y ∈ l, ¬ p y → f y ≠ b) :
    (l.map fun y => if p y then b else f y).Nodup := by
  refine List.Nodup.map_on (fun y here z there same => ?_) (.of_map _ nodup)
  split at same <;> split at same
  case isTrue.isTrue first second => exact one y here z there first second
  case isTrue.isFalse first second => exact absurd same.symm (new z there second)
  case isFalse.isTrue first second => exact absurd same (new y here first)
  case isFalse.isFalse => exact List.inj_on_of_nodup_map nodup here there same

omit [LinearOrder J] in
theorem Replaces.clean {schema : DatabaseSchema J} (clean : s.Clean schema) (listed : t ∈ schema.tables)
    (there : x ∈ (s t.name).rows) {address : RecordAddress} {values : Row J} (row : RowOf t.columns values)
    (replaces : Replaces t x address values s s') : s'.Clean schema := by
  have one : ∀ y ∈ (s t.name).rows, ∀ z ∈ (s t.name).rows, y.1 = x.1 → z.1 = x.1 → y = z :=
    fun y here z there first second =>
      List.inj_on_of_nodup_map (clean.addresses t listed) here there (first.trans second.symm)
  apply clean.change listed replaces.others <;> rw [replaces.rows]
  · intro y member
    obtain ⟨z, stored, rfl⟩ := List.mem_map.mp member
    split
    · exact row
    · exact clean.typed t listed z stored
  · rw [List.map_map]
    have addresses : (Prod.fst ∘ fun y : RecordAddress × Row J => if y.1 = x.1 then (address, values) else y) =
        fun y => if y.1 = x.1 then address else y.1 := by
      funext y
      dsimp only [Function.comp]
      split <;> rfl
    rw [addresses]
    exact nodup_replaced (clean.addresses t listed) one replaces.free
  · rw [List.map_map]
    have keys : ((fun y => findColumn t.primaryKey y.2) ∘ fun y : RecordAddress × Row J =>
        if y.1 = x.1 then (address, values) else y) =
        fun y => if y.1 = x.1 then findColumn t.primaryKey values else findColumn t.primaryKey y.2 := by
      funext y
      dsimp only [Function.comp]
      split <;> rfl
    rw [keys]
    refine nodup_replaced (clean.keys t listed) one fun y stored other same => ?_
    rcases replaces.key with kept | fresh
    · rw [kept, (clean.typed t listed x there).complete.primaryKeyOf_eq] at same
      exact other (congrArg Prod.fst (clean.eq_of_key listed stored there same))
    · exact fresh y stored same

/-- The loop patches the records it is given, when the sanitizers leave them alone and
they reach no other record. -/
theorem updateRecords_rows (listed : t ∈ db.schema.tables) (patches : Patches t patch) (clean : s.Clean db.schema)
    {records : List (RecordAddress × Row J)} (nodup : (records.map Prod.fst).Nodup)
    (stored : ∀ x ∈ records, x ∈ (s t.name).rows) (settled : ∀ x ∈ records, t.Settled (patchValues patch x.2))
    (unreached : ∀ x ∈ records, ∀ t' ∈ db.schema.tables, ∀ y ∈ (s t'.name).rows,
      (t'.name = t.name → y.1 ≠ x.1) → db.Unreached t patch x.2 t'.name y.2)
    (own : ∀ x ∈ records, ∀ y ∈ records, db.Unreached t patch x.2 t.name (patchValues patch y.2))
    (run : db.updateRecords (db.followRewrite fuel) t patch records s = .ok (n, s')) :
    s'.Clean db.schema ∧ (∀ name ≠ t.name, (s' name).rows = (s name).rows) ∧
      s'.view t.name = (s t.name).rows.map fun y =>
        if y.1 ∈ records.map Prod.fst then patchValues patch y.2 else y.2 := by
  induction records generalizing s n with
  | nil =>
      cases run
      exact ⟨clean, fun _ _ => rfl, by simp [DbState.view]⟩
  | cons x rest ih =>
      obtain ⟨⟨m, s₁⟩, first, run⟩ := bind_eq_ok.mp run
      obtain ⟨⟨k, s₂⟩, second, run⟩ := bind_eq_ok.mp run
      cases run
      obtain ⟨there, storedRest⟩ := List.forall_mem_cons.mp stored
      obtain ⟨settledHere, settledRest⟩ := List.forall_mem_cons.mp settled
      rw [List.map_cons, List.nodup_cons] at nodup
      have row := (clean.typed t listed x there).patched patches
      obtain ⟨address, replaces⟩ := updateRecord_replaces row settledHere (unreached x List.mem_cons_self)
        (own x List.mem_cons_self x List.mem_cons_self) first
      have other : ∀ y ∈ rest, y.1 ≠ x.1 := fun y member same => nodup.1 (same ▸ List.mem_map_of_mem member)
      have storedRest' : ∀ y ∈ rest, y ∈ (s₁ t.name).rows := by
        intro y member
        rw [replaces.rows]
        exact List.mem_map.mpr ⟨y, storedRest y member, if_neg (other y member)⟩
      have unreached' : ∀ y ∈ rest, ∀ t' ∈ db.schema.tables, ∀ z ∈ (s₁ t'.name).rows,
          (t'.name = t.name → z.1 ≠ y.1) → db.Unreached t patch y.2 t'.name z.2 := by
        intro y member t' listed' z here apart
        by_cases same : t'.name = t.name
        · rw [same, replaces.rows] at here
          obtain ⟨w, member', rfl⟩ := List.mem_map.mp here
          by_cases moved : w.1 = x.1
          · rw [if_pos moved, same]
            exact own y (List.mem_cons_of_mem _ member) x List.mem_cons_self
          · rw [if_neg moved] at apart ⊢
            exact unreached y (List.mem_cons_of_mem _ member) t' listed' w (same ▸ member') apart
        · rw [replaces.others t'.name same] at here
          exact unreached y (List.mem_cons_of_mem _ member) t' listed' z here apart
      have own' : ∀ y ∈ rest, ∀ z ∈ rest, db.Unreached t patch y.2 t.name (patchValues patch z.2) :=
        fun y member z member' => own y (List.mem_cons_of_mem _ member) z (List.mem_cons_of_mem _ member')
      obtain ⟨clean', others, rows⟩ := ih (replaces.clean clean listed there row) nodup.2 storedRest' settledRest
        unreached' own' second
      refine ⟨clean', fun name apart => (others name apart).trans (replaces.others name apart), ?_⟩
      rw [rows, replaces.rows, List.map_map]
      apply List.map_congr_left
      intro y member
      dsimp only [Function.comp]
      by_cases here : y.1 = x.1
      · obtain rfl := List.inj_on_of_nodup_map (clean.addresses t listed) member there here
        have inside : y.1 ∈ (y :: rest).map Prod.fst := List.mem_map_of_mem List.mem_cons_self
        have moved : address ∉ rest.map Prod.fst := by
          intro named
          obtain ⟨z, member', same⟩ := List.mem_map.mp named
          exact replaces.free z (storedRest z member') (other z member') same
        simp only [if_true, if_pos inside, if_neg moved]
      · have later : y.1 ∈ (x :: rest).map Prod.fst ↔ y.1 ∈ rest.map Prod.fst := by
          rw [List.map_cons, List.mem_cons, or_iff_right here]
        simp only [if_neg here, later]

end Update

/-- The patch of these rows rewrites no reference of another row that is shown, or of one
of these rows once it is patched. -/
def Database.ReachesNone (db : Database J F) (view : View J) (t : TableDef J) (patch : Row J) (rows : List (Row J)) :
    Prop :=
  ∀ row ∈ rows,
    (∀ t' ∈ db.schema.tables, ∀ other ∈ view t'.name, (t'.name = t.name → other ≠ row) →
      db.Unreached t patch (t.columnValues row) t'.name (t'.columnValues other)) ∧
    ∀ other ∈ rows, db.Unreached t patch (t.columnValues row) t.name (patchValues patch (t.columnValues other))

section Captured
variable {db : Database J F} {view : View J} {t : TableDef J} {s s' : DbState J}
variable {rows : List (Row J)} {pairs : List (Value J × Row J)}
variable (listed : t ∈ db.schema.tables) (clean : s.Clean db.schema) (mirrors : Mirrors db.schema view s)
variable (shown : ∀ row ∈ rows, row ∈ view t.name) (captured : Captures t rows pairs)
include listed clean mirrors shown captured

/-- The rows of the tables that reference a captured record are captured. -/
theorem Enclosed.closed (enclosed : Enclosed db.schema view t rows) {x : RecordAddress × Row J}
    (there : x ∈ (s t.name).rows) (inside : ∃ key ∈ pairs.map Prod.fst, findColumn t.primaryKey x.2 = some key)
    {references : List (DatabaseSchema.Reference J)}
    (found : db.schema.referencingColumns t.name x.2 = .ok references) {r : DatabaseSchema.Reference J}
    (member : r ∈ references) {t' : TableDef J} (lookup : db.schema.table r.table = .ok t')
    {y : RecordAddress × Row J} (stored : y ∈ (s t'.name).rows)
    (selected : db.Selects (some (.eq r.column r.value)) y.2) :
    t' = t ∧ ∃ key ∈ pairs.map Prod.fst, findColumn t.primaryKey y.2 = some key := by
  obtain ⟨row, here, same⟩ := (mirrors.captured_iff clean listed shown captured there).mpr inside
  have complete := mirrors.complete t listed row (shown row here)
  obtain ⟨references', found', each⟩ := DatabaseSchema.referencingColumns_ok listed (clean.typed t listed x there)
  obtain rfl := Except.ok.inj (found.symm.trans found')
  obtain ⟨t₁, listed₁, c, column, fk, key, points, table, name, value⟩ := (each r).mp member
  obtain ⟨listed', named⟩ := DatabaseSchema.table_ok lookup
  obtain rfl : t' = t₁ := List.inj_on_of_nodup_map db.schema.names listed' listed₁ (named.trans table)
  obtain ⟨other, there', shownAs⟩ := mirrors.shown listed' stored
  have holds : anyColumn r.column (fun v => v = r.value) y.2 = true := by
    have run : Failure.lift (.ok (anyColumn r.column (fun v => v = r.value) y.2)) = .ok true := selected
    exact Except.ok.inj (Failure.lift_eq_ok.mp run)
  obtain ⟨entry, listedEntry, entryName, entryValue⟩ := anyColumn_eq.mp holds
  have valueY : findColumn c.name y.2 = some r.value := by
    rw [← name, ← entryName, findColumn_eq (clean.typed t' listed' y stored).complete.names listedEntry, entryValue]
  rw [shownAs, (mirrors.complete t' listed' other there').findColumn_columnValues] at valueY
  rw [same, complete.findColumn_columnValues] at value
  obtain ⟨rfl, captures⟩ := enclosed row here t' listed' c column fk key points r.value value other there' valueY
  exact ⟨rfl, (mirrors.captured_iff clean listed shown captured stored).mp ⟨other, captures, shownAs⟩⟩

/-- A deletion that no reference leads out of removes the rows that are no longer shown. -/
theorem delete_mirrors {behaviour : DeleteBehavior} (enclosed : behaviour = .cascade → Enclosed db.schema view t rows)
    {fuel : ℕ} (run : db.replayOp fuel (.delete t behaviour (Database.capturedFilters t pairs)) s = .ok s') :
    s'.Clean db.schema ∧ Mirrors db.schema
      (Function.update view t.name (overlayRows (pairs.map fun row => .delete row.1) (view t.name))) s' := by
  have whole := mirrors.complete t listed
  let left (values : Row J) : Prop := ¬ ∃ key ∈ pairs.map Prod.fst, findColumn t.primaryKey values = some key
  have removed : (∀ name ≠ t.name, (s' name).rows = (s name).rows) ∧ (s' t.name).rows.Sublist (s t.name).rows ∧
      ∀ x, x ∈ (s' t.name).rows ↔ x ∈ (s t.name).rows ∧ left x.2 := by
    obtain ⟨filter, valid, empty, collects⟩ := mirrors.validated clean listed shown captured db
    rw [Database.replayOp, valid] at run
    cases filter with
    | none =>
        cases run
        refine ⟨fun _ _ => rfl, .refl _, fun x => (and_iff_left ?_).symm⟩
        rintro ⟨key, named, _⟩
        rw [empty rfl] at named
        cases named
    | some filter =>
        obtain ⟨_, checked, run⟩ := bind_eq_ok.mp run
        cases checked
        obtain ⟨⟨n, s₁⟩, deleted, run⟩ := bind_eq_ok.mp run
        cases run
        obtain ⟨records, collected, members⟩ := collects filter rfl
        have inside : ∀ x ∈ records, ∃ key ∈ pairs.map Prod.fst, findColumn t.primaryKey x.2 = some key :=
          fun x member => ((members x).mp member).2
        obtain ⟨removes, missing⟩ := delete_removes (A := fun x => ∃ key ∈ pairs.map Prod.fst,
          findColumn t.primaryKey x.2 = some key) (clean.addresses t listed) fuel
          (fun cascade x there inside references found r member t' lookup y stored selected =>
            (enclosed cascade).closed listed clean mirrors shown captured there inside found member lookup stored
              selected)
          (fun y there selected => ⟨rfl, inside y ((Database.mem_collect collected).mpr ⟨there, selected⟩)⟩)
          (.refl s) deleted
        refine ⟨removes.others, removes.sublist, fun x => ⟨fun member => ?_, fun kept => removes.keeps x kept.1 kept.2⟩⟩
        have there := removes.sublist.subset member
        exact ⟨there, fun named => missing records collected x ((members x).mpr ⟨there, named⟩) member⟩
  obtain ⟨others, sublist, members⟩ := removed
  constructor
  · apply clean.change listed others
    · exact fun x member => clean.typed t listed x (sublist.subset member)
    · exact (clean.addresses t listed).sublist (sublist.map _)
    · exact (clean.keys t listed).sublist (sublist.map _)
  · have keys : pairs.map (fun row => Operation.delete row.1) = (pairs.map Prod.fst).map (.delete (J := J)) := by
      rw [List.map_map]
      rfl
    rw [keys, overlayRows_delete whole]
    apply mirrors.change listed others
    · exact fun row member => whole row (List.mem_of_mem_filter member)
    · have rows' : (s' t.name).rows.Perm ((s t.name).rows.filter fun x => decide (left x.2)) := by
        have nodup := clean.nodup listed
        rw [List.perm_ext_iff_of_nodup (nodup.sublist sublist) (nodup.filter _)]
        intro x
        rw [members, List.mem_filter, decide_eq_true_eq]
      have shows : (view t.name).filter (fun row => decide (¬ ∃ key ∈ pairs.map Prod.fst, primaryKeyOf row = some key)) =
          (view t.name).filter fun row => decide (left (t.columnValues row)) := by
        refine List.filter_congr fun row member => ?_
        dsimp only [left]
        rw [(whole row member).findColumn_columnValues, (whole row member).primaryKeyOf_eq]
      have stores : ((s t.name).rows.filter fun x => decide (left x.2)).map Prod.snd =
          (s.view t.name).filter fun values => decide (left values) := by
        rw [DbState.view, List.filter_map]
        rfl
      have maps : ((view t.name).filter fun row => decide (left (t.columnValues row))).map t.columnValues =
          ((view t.name).map t.columnValues).filter fun values => decide (left values) := by
        rw [List.filter_map]
        rfl
      rw [shows, maps]
      refine (rows'.map Prod.snd).trans ?_
      rw [stores]
      exact (mirrors.rows t listed).filter _

/-- An update that the sanitizers leave alone and that no reference leads out of stores
the rows that are shown. -/
theorem update_mirrors {patch : Row J}
    (typed : Database.typedPatch t (patch.map fun entry => (entry.1.name, entry.2)) = .ok patch)
    (settled : ∀ row ∈ rows, t.Settled (patchValues patch (t.columnValues row)))
    (unreached : db.ReachesNone view t patch rows) {fuel : ℕ}
    (run : db.replayOp fuel (.update t patch (Database.capturedFilters t pairs)) s = .ok s') :
    s'.Clean db.schema ∧ Mirrors db.schema
      (Function.update view t.name (overlayRows (pairs.map fun row => .update row.1 patch) (view t.name))) s' := by
  have patches := typedPatch_patches typed
  have whole := mirrors.complete t listed
  let patched (values : Row J) : Row J :=
    if ∃ key ∈ pairs.map Prod.fst, findColumn t.primaryKey values = some key then patchValues patch values else values
  have stores : s'.Clean db.schema ∧ (∀ name ≠ t.name, (s' name).rows = (s name).rows) ∧
      s'.view t.name = (s.view t.name).map patched := by
    obtain ⟨filter, valid, empty, collects⟩ := mirrors.validated clean listed shown captured db
    rw [Database.replayOp, valid] at run
    cases filter with
    | none =>
        cases run
        refine ⟨clean, fun _ _ => rfl, ?_⟩
        conv_lhs => rw [← List.map_id (s.view t.name)]
        refine List.map_congr_left fun values _ => (if_neg ?_).symm
        rintro ⟨key, named, _⟩
        rw [empty rfl] at named
        cases named
    | some filter =>
        obtain ⟨_, checked, run⟩ := bind_eq_ok.mp run
        cases checked
        obtain ⟨patch', made, run⟩ := bind_eq_ok.mp run
        obtain rfl := Except.ok.inj (typed.symm.trans (Failure.lift_eq_ok.mp made))
        obtain ⟨⟨n, s₁⟩, updated, run⟩ := bind_eq_ok.mp run
        cases run
        cases fuel with
        | zero => cases updated
        | succ fuel =>
            obtain ⟨records, collected, loop⟩ := bind_eq_ok.mp updated
            obtain ⟨found, collects, members⟩ := collects filter rfl
            obtain rfl := Except.ok.inj (collected.symm.trans collects)
            have stored : ∀ x ∈ records, x ∈ (s t.name).rows := fun x member => ((members x).mp member).1
            have addresses : (records.map Prod.fst).Nodup :=
              List.Nodup.map_on (fun x here y there same =>
                List.inj_on_of_nodup_map (clean.addresses t listed) (stored x here) (stored y there) same)
                (Database.collect_nodup collected (clean.nodup listed))
            have origin : ∀ x ∈ records, ∃ row ∈ rows, x.2 = t.columnValues row := fun x member =>
              (mirrors.captured_iff clean listed shown captured (stored x member)).mpr ((members x).mp member).2
            have quiet : ∀ x ∈ records, t.Settled (patchValues patch x.2) := by
              intro x member
              obtain ⟨row, here, same⟩ := origin x member
              rw [same]
              exact settled row here
            have outside : ∀ x ∈ records, ∀ t' ∈ db.schema.tables, ∀ y ∈ (s t'.name).rows,
                (t'.name = t.name → y.1 ≠ x.1) → db.Unreached t patch x.2 t'.name y.2 := by
              intro x member t' listed' y there apart
              obtain ⟨row, here, same⟩ := origin x member
              obtain ⟨other, there', shownAs⟩ := mirrors.shown listed' there
              rw [same, shownAs]
              refine (unreached row here).1 t' listed' other there' fun name equal => apart name ?_
              obtain rfl := List.inj_on_of_nodup_map db.schema.names listed' listed name
              subst equal
              exact congrArg Prod.fst (clean.eq_of_key listed there (stored x member) (by rw [shownAs, same]))
            have inside : ∀ x ∈ records, ∀ y ∈ records,
                db.Unreached t patch x.2 t.name (patchValues patch y.2) := by
              intro x member y member'
              obtain ⟨row, here, same⟩ := origin x member
              obtain ⟨other, there, same'⟩ := origin y member'
              rw [same, same']
              exact (unreached row here).2 other there
            obtain ⟨clean', others, rows'⟩ :=
              updateRecords_rows listed patches clean addresses stored quiet outside inside loop
            refine ⟨clean', others, rows'.trans ?_⟩
            rw [DbState.view, List.map_map]
            refine List.map_congr_left fun x there => ?_
            have named : x.1 ∈ records.map Prod.fst ↔
                ∃ key ∈ pairs.map Prod.fst, findColumn t.primaryKey x.2 = some key := by
              rw [List.mem_map]
              constructor
              · rintro ⟨y, member, same⟩
                obtain rfl := List.inj_on_of_nodup_map (clean.addresses t listed) (stored y member) there same
                exact ((members y).mp member).2
              · exact fun keyed => ⟨x, (members x).mpr ⟨there, keyed⟩, rfl⟩
            dsimp only [Function.comp, patched]
            simp only [named]
  obtain ⟨clean', others, rows'⟩ := stores
  refine ⟨clean', ?_⟩
  have keys : pairs.map (fun row => Operation.update row.1 patch) =
      (pairs.map Prod.fst).map fun key => .update key patch := by
    rw [List.map_map]
    rfl
  rw [keys, overlayRows_update whole patches]
  apply mirrors.change listed others
  · intro row member
    obtain ⟨base, there, rfl⟩ := List.mem_map.mp member
    split
    · exact (whole base there).patched patches
    · exact whole base there
  · have shows : ((view t.name).map fun row => if ∃ key ∈ pairs.map Prod.fst, primaryKeyOf row = some key then
        patchValues patch row else row).map t.columnValues = ((view t.name).map t.columnValues).map patched := by
      rw [List.map_map, List.map_map]
      refine List.map_congr_left fun row member => ?_
      have complete := whole row member
      dsimp only [Function.comp, patched]
      rw [complete.findColumn_columnValues, complete.primaryKeyOf_eq]
      split
      · exact complete.columnValues_patch patches
      · rfl
    rw [shows, rows']
    exact (mirrors.rows t listed).map _

end Captured
end WasmDbms
