import WasmDbms.Migration.Pass

/-!
# Auto-increment counters across migrations

The counters of a table lie on a page of their own, by the names of their columns. A
migration changes the snapshots and does not touch that page: the counters stay in step
with the snapshot as long as it leaves the auto-increment columns as they are.
-/
namespace WasmDbms
open Result

variable {D J : Type}

/-! ## Values of an integer type -/

/-- The values of the types that can be counted. -/
inductive IsInteger : DataTypeSnapshot → Value J → Prop
  | int8 (i : Int8) : IsInteger .int8 (.int8 i)
  | int16 (i : Int16) : IsInteger .int16 (.int16 i)
  | int32 (i : Int32) : IsInteger .int32 (.int32 i)
  | int64 (i : Int64) : IsInteger .int64 (.int64 i)
  | uint8 (n : UInt8) : IsInteger .uint8 (.uint8 n)
  | uint16 (n : UInt16) : IsInteger .uint16 (.uint16 n)
  | uint32 (n : UInt32) : IsInteger .uint32 (.uint32 n)
  | uint64 (n : UInt64) : IsInteger .uint64 (.uint64 n)

/-- The greatest values of the types that can be counted. -/
inductive IsGreatest : Value J → Prop
  | int8 : IsGreatest (.int8 Int8.maxValue)
  | int16 : IsGreatest (.int16 Int16.maxValue)
  | int32 : IsGreatest (.int32 Int32.maxValue)
  | int64 : IsGreatest (.int64 Int64.maxValue)
  | uint8 : IsGreatest (.uint8 255)
  | uint16 : IsGreatest (.uint16 65535)
  | uint32 : IsGreatest (.uint32 4294967295)
  | uint64 : IsGreatest (.uint64 18446744073709551615)

theorem snapshotZero_isInteger {type : DataTypeSnapshot} {zero : Value J}
    (counts : MigrationEngine.snapshotZero type = some zero) : IsInteger type zero := by
  cases type <;> cases counts <;> constructor

/-- The next value is of the same type, unless there is none. -/
theorem nextValue_isInteger {type : DataTypeSnapshot} {v : Value J} (typed : IsInteger type v) :
    (∃ w, AutoincrementRegistry.nextValue v = .ok w ∧ IsInteger type w) ∨
      IsGreatest v ∧ ∃ name, AutoincrementRegistry.nextValue v = .error (AutoincrementRegistry.overflowError name) := by
  cases typed with
  | int8 i =>
      rw [AutoincrementRegistry.nextValue]
      split
      next last => exact .inr ⟨last ▸ .int8, _, rfl⟩
      next => exact .inl ⟨_, rfl, .int8 _⟩
  | int16 i =>
      rw [AutoincrementRegistry.nextValue]
      split
      next last => exact .inr ⟨last ▸ .int16, _, rfl⟩
      next => exact .inl ⟨_, rfl, .int16 _⟩
  | int32 i =>
      rw [AutoincrementRegistry.nextValue]
      split
      next last => exact .inr ⟨last ▸ .int32, _, rfl⟩
      next => exact .inl ⟨_, rfl, .int32 _⟩
  | int64 i =>
      rw [AutoincrementRegistry.nextValue]
      split
      next last => exact .inr ⟨last ▸ .int64, _, rfl⟩
      next => exact .inl ⟨_, rfl, .int64 _⟩
  | uint8 n =>
      rw [AutoincrementRegistry.nextValue]
      split
      next last => exact .inr ⟨last ▸ .uint8, _, rfl⟩
      next => exact .inl ⟨_, rfl, .uint8 _⟩
  | uint16 n =>
      rw [AutoincrementRegistry.nextValue]
      split
      next last => exact .inr ⟨last ▸ .uint16, _, rfl⟩
      next => exact .inl ⟨_, rfl, .uint16 _⟩
  | uint32 n =>
      rw [AutoincrementRegistry.nextValue]
      split
      next last => exact .inr ⟨last ▸ .uint32, _, rfl⟩
      next => exact .inl ⟨_, rfl, .uint32 _⟩
  | uint64 n =>
      rw [AutoincrementRegistry.nextValue]
      split
      next last => exact .inr ⟨last ▸ .uint64, _, rfl⟩
      next => exact .inl ⟨_, rfl, .uint64 _⟩

namespace MigrationEngine

/-! ## Counters in step -/

/-- The counter of a column. -/
def counter (counters : Option (AutoincrementRegistry J)) (column : String) : Option (Value J) :=
  counters.bind fun registry => registry column

/-- The auto-increment columns and their types. -/
def autos (columns : List (ColumnSnapshot (StoredValue D J))) : List (String × DataTypeSnapshot) :=
  (autoColumns columns).map fun c => (c.name, c.dataType)

/-- Counters are in step with some columns: there is one for each auto-increment column
and no other, and it is of the type of the column. -/
structure InStep (autos : List (String × DataTypeSnapshot)) (counters : Option (AutoincrementRegistry J)) : Prop where
  distinct : (autos.map Prod.fst).Nodup
  counted : ∀ column, (counter counters column).isSome ↔ column ∈ autos.map Prod.fst
  typed : ∀ auto ∈ autos, ∀ v, counter counters auto.1 = some v → IsInteger auto.2 v

theorem InStep.counter_of_mem {autos : List (String × DataTypeSnapshot)} {counters : Option (AutoincrementRegistry J)}
    (step : InStep autos counters) {auto : String × DataTypeSnapshot} (member : auto ∈ autos) :
    ∃ v, counter counters auto.1 = some v ∧ IsInteger auto.2 v := by
  obtain ⟨v, here⟩ := Option.isSome_iff_exists.mp ((step.counted auto.1).mpr (List.mem_map_of_mem member))
  exact ⟨v, here, step.typed auto member v here⟩

section Init
variable {columns : List (ColumnSnapshot (StoredValue D J))} {registry : AutoincrementRegistry J}

theorem foldl_initCounter_other {column : String} (other : column ∉ columns.map ColumnSnapshot.name) :
    columns.foldl initCounter registry column = registry column := by
  induction columns generalizing registry with
  | nil => rfl
  | cons c columns ih =>
      rw [List.map_cons, List.mem_cons, not_or] at other
      rw [List.foldl_cons, ih other.2, initCounter]
      cases snapshotZero (J := J) c.dataType with
      | some zero => exact Function.update_of_ne other.1 _ _
      | none => rfl

/-- The first zero of a column is not written over by those of other columns. -/
theorem foldl_initCounter_own (distinct : (columns.map ColumnSnapshot.name).Nodup)
    (count : ∀ c ∈ columns, (snapshotZero (J := J) c.dataType).isSome) {c : ColumnSnapshot (StoredValue D J)}
    (member : c ∈ columns) : columns.foldl initCounter registry c.name = snapshotZero c.dataType := by
  induction columns generalizing registry with
  | nil => cases member
  | cons first columns ih =>
      rw [List.map_cons, List.nodup_cons] at distinct
      rw [List.foldl_cons]
      rcases List.mem_cons.mp member with rfl | later
      · obtain ⟨zero, known⟩ := Option.isSome_iff_exists.mp (count c List.mem_cons_self)
        rw [foldl_initCounter_other distinct.1, initCounter, known]
        exact Function.update_self _ _ _
      · exact ih distinct.2 (fun x inside => count x (List.mem_cons_of_mem _ inside)) later

/-- A new table has its counters in step. -/
theorem newCounters_inStep (distinct : (columns.map ColumnSnapshot.name).Nodup)
    (count : ∀ c ∈ autoColumns columns, (snapshotZero (J := J) c.dataType).isSome) :
    InStep (autos columns) (newCounters (J := J) columns) := by
  have names : (autos columns).map Prod.fst = (autoColumns columns).map ColumnSnapshot.name := by
    rw [autos, List.map_map]
    rfl
  have once : ((autoColumns columns).map ColumnSnapshot.name).Nodup := distinct.sublist (List.filter_sublist.map _)
  have own : ∀ c ∈ autoColumns columns, counter (newCounters (J := J) columns) c.name = snapshotZero c.dataType := by
    intro c member
    unfold newCounters
    rw [if_neg fun none_ => List.ne_nil_of_mem member (List.isEmpty_iff.mp none_)]
    exact foldl_initCounter_own once count member
  have other : ∀ column, column ∉ (autoColumns columns).map ColumnSnapshot.name →
      counter (newCounters (J := J) columns) column = none := by
    intro column absent
    unfold newCounters
    split
    · rfl
    · exact foldl_initCounter_other absent
  constructor
  · rw [names]
    exact once
  · intro column
    rw [names]
    by_cases listed : column ∈ (autoColumns columns).map ColumnSnapshot.name
    · obtain ⟨c, member, rfl⟩ := List.mem_map.mp listed
      rw [own c member]
      exact iff_of_true (count c member) listed
    · rw [other column listed]
      exact iff_of_false Bool.false_ne_true listed
  · intro auto member v here
    obtain ⟨c, inside, rfl⟩ := List.mem_map.mp member
    rw [own c inside] at here
    exact snapshotZero_isInteger here

end Init

/-! ## Drawing values -/

/-- `next_autoincrement`; a table without the ledger is not the compiled one. -/
def nextAutoincrement (counters : Option (AutoincrementRegistry J)) (column : String) :
    Except (Failure J) (Value J × Option (AutoincrementRegistry J)) :=
  match counters with
  | some registry => (fun next => (next.1, some next.2)) <$> registry.next column
  | none => .error (.error (.table .schemaMismatch))

/-- The loop of `fill_auto_increment_values` over the auto-increment columns: the values
of the insertion by their columns, and the counters it leaves. -/
def fillFields : List (Field (StoredValue D J)) → Option (AutoincrementRegistry J) → List (String × Value J) →
    Except (Failure J) (List (String × Value J)) × Option (AutoincrementRegistry J)
  | [], counters, values => (.ok values, counters)
  | field :: rest, counters, values =>
      if values.any fun entry => entry.1 == field.name then fillFields rest counters values
      else match nextAutoincrement counters field.name with
        | .error e => (.error e, counters)
        | .ok (value, counters) => fillFields rest counters (values ++ [(field.name, value)])

/-- `fill_auto_increment_values`. -/
def fillFromLedger (table : TableType (StoredValue D J)) (counters : Option (AutoincrementRegistry J))
    (values : List (String × Value J)) : Except (Failure J) (List (String × Value J)) × Option (AutoincrementRegistry J) :=
  fillFields (table.fields.filter Field.autoIncrement) counters values

section Draw
variable {pairs : List (String × DataTypeSnapshot)} {counters : Option (AutoincrementRegistry J)}

theorem nextAutoincrement_eq {registry : AutoincrementRegistry J} {column : String} {v : Value J}
    (here : registry column = some v) : nextAutoincrement (some registry) column =
      (fun w => (w, some (Function.update registry column (some w)))) <$> AutoincrementRegistry.nextValue v := by
  rw [nextAutoincrement, AutoincrementRegistry.next, here]
  dsimp only
  cases AutoincrementRegistry.nextValue v <;> rfl

/-- A counter that moves on stays in step. -/
theorem InStep.update {registry : AutoincrementRegistry J} (step : InStep pairs (some registry))
    {auto : String × DataTypeSnapshot} (member : auto ∈ pairs) {w : Value J} (typed : IsInteger auto.2 w) :
    InStep pairs (some (Function.update registry auto.1 (some w))) := by
  have own : counter (some (Function.update registry auto.1 (some w))) auto.1 = some w := Function.update_self _ _ _
  have other : ∀ column, column ≠ auto.1 →
      counter (some (Function.update registry auto.1 (some w))) column = counter (some registry) column :=
    fun column apart => Function.update_of_ne apart _ _
  constructor
  · exact step.distinct
  · intro column
    rcases eq_or_ne column auto.1 with rfl | apart
    · rw [own]
      exact iff_of_true rfl (List.mem_map_of_mem member)
    · rw [other column apart]
      exact step.counted column
  · intro pair listed v now
    rcases eq_or_ne pair.1 auto.1 with same | apart
    · rw [same, own] at now
      cases now
      rw [List.inj_on_of_nodup_map step.distinct listed member same]
      exact typed
    · rw [other pair.1 apart] at now
      exact step.typed pair listed v now

/-- A draw from counters in step gives a value of the type of the column and leaves the
counters in step, unless the counter is at its greatest value. -/
theorem InStep.draw (step : InStep pairs counters) {auto : String × DataTypeSnapshot} (member : auto ∈ pairs) :
    (∃ v counters', nextAutoincrement counters auto.1 = .ok (v, counters') ∧ IsInteger auto.2 v ∧
      InStep pairs counters') ∨
    ((∃ v, counter counters auto.1 = some v ∧ IsGreatest v) ∧
      ∃ name, nextAutoincrement counters auto.1 = .error (AutoincrementRegistry.overflowError name)) := by
  obtain ⟨v, here, typed⟩ := step.counter_of_mem member
  cases counters with
  | none => cases here
  | some registry =>
      have here : registry auto.1 = some v := here
      rcases nextValue_isInteger typed with ⟨w, next, typed'⟩ | ⟨greatest, name, full⟩
      · refine .inl ⟨w, _, ?_, typed', step.update member typed'⟩
        rw [nextAutoincrement_eq here, next]
        rfl
      · refine .inr ⟨⟨v, here, greatest⟩, name, ?_⟩
        rw [nextAutoincrement_eq here, full]
        rfl

/-- What an insertion gets for the columns it leaves out: values of their types, or the
error that a counter is at its greatest value. -/
def Filled (fields : List (Field (StoredValue D J))) (values : List (String × Value J))
    (outcome : Except (Failure J) (List (String × Value J)) × Option (AutoincrementRegistry J)) : Prop :=
  (∃ drawn, outcome.1 = .ok (values ++ drawn) ∧
      (∀ entry ∈ drawn, ∃ field ∈ fields, field.name = entry.1 ∧ IsInteger field.type.snapshot entry.2) ∧
      ∀ field ∈ fields, field.name ∈ (values ++ drawn).map Prod.fst) ∨
    (∃ name, outcome.1 = .error (AutoincrementRegistry.overflowError name)) ∧
      ∃ field ∈ fields, ∃ v, counter outcome.2 field.name = some v ∧ IsGreatest v

theorem Filled.cons {field : Field (StoredValue D J)} {fields : List (Field (StoredValue D J))}
    {values : List (String × Value J)} {outcome : Except (Failure J) (List (String × Value J)) × Option (AutoincrementRegistry J)}
    (given : field.name ∈ values.map Prod.fst) (later : Filled fields values outcome) :
    Filled (field :: fields) values outcome := by
  rcases later with ⟨drawn, done, typed, all⟩ | ⟨full, last, member, greatest⟩
  · refine .inl ⟨drawn, done, fun entry inside => ?_, List.forall_mem_cons.mpr ⟨?_, all⟩⟩
    · obtain ⟨own, listed, typed⟩ := typed entry inside
      exact ⟨own, List.mem_cons_of_mem _ listed, typed⟩
    · rw [List.map_append]
      exact List.mem_append_left _ given
  · exact .inr ⟨full, last, List.mem_cons_of_mem _ member, greatest⟩

/-- Filling in from counters in step gives values of the right types, and leaves the
counters in step. -/
theorem InStep.fill {fields : List (Field (StoredValue D J))} (step : InStep pairs counters)
    (listed : ∀ field ∈ fields, (field.name, field.type.snapshot) ∈ pairs) (values : List (String × Value J)) :
    InStep pairs (fillFields fields counters values).2 ∧ Filled fields values (fillFields fields counters values) := by
  induction fields generalizing counters values with
  | nil =>
      refine ⟨step, .inl ⟨[], ?_, fun _ member => absurd member List.not_mem_nil, fun _ member => absurd member List.not_mem_nil⟩⟩
      rw [List.append_nil]
      rfl
  | cons field fields ih =>
      rw [List.forall_mem_cons] at listed
      by_cases given : values.any fun entry => entry.1 == field.name
      · rw [fillFields, if_pos given]
        obtain ⟨after, filled⟩ := ih step listed.2 values
        obtain ⟨entry, member, same⟩ := List.any_eq_true.mp given
        exact ⟨after, filled.cons (List.mem_map.mpr ⟨entry, member, beq_iff_eq.mp same⟩)⟩
      · rw [fillFields, if_neg given]
        rcases step.draw listed.1 with ⟨v, counters', drawn, typed, step'⟩ | ⟨⟨v, here, greatest⟩, name, full⟩
        · dsimp only at drawn
          rw [drawn]
          obtain ⟨after, filled⟩ := ih step' listed.2 (values ++ [(field.name, v)])
          refine ⟨after, ?_⟩
          rcases filled with ⟨more, done, each, all⟩ | ⟨full, last, member, greatest⟩
          · rw [List.append_assoc] at done all
            refine .inl ⟨[(field.name, v)] ++ more, done, ?_, List.forall_mem_cons.mpr ⟨?_, all⟩⟩
            · intro entry inside
              rcases List.mem_append.mp inside with own | later
              · rw [List.mem_singleton.mp own]
                exact ⟨field, List.mem_cons_self, rfl, typed⟩
              · obtain ⟨other, member, typed⟩ := each entry later
                exact ⟨other, List.mem_cons_of_mem _ member, typed⟩
            · rw [List.map_append]
              exact List.mem_append_right _ List.mem_cons_self
          · exact .inr ⟨full, last, List.mem_cons_of_mem _ member, greatest⟩
        · dsimp only at full
          rw [full]
          exact ⟨step, .inr ⟨⟨name, rfl⟩, field, List.mem_cons_self, v, here, greatest⟩⟩

end Draw

/-! ## Operations that leave the auto-increment columns as they are -/

section Spares
variable {columns : List (ColumnSnapshot (StoredValue D J))}

/-- An operation neither adds a column to the auto-increment ones, nor drops, renames,
converts or flags one of them. -/
def Spares (names : List String) : MigrationOp (StoredValue D J) → Prop
  | .addColumn _ column => column.autoIncrement = false
  | .dropColumn _ column | .renameColumn _ column _ | .widenColumn _ column .. | .transformColumn _ column .. =>
      column ∉ names
  | .alterColumn _ _ changes => changes.autoIncrement = none
  | .createTable .. | .dropTable .. | .addIndex .. | .dropIndex .. => True

theorem autos_cons (c : ColumnSnapshot (StoredValue D J)) :
    autos (c :: columns) = if c.autoIncrement then (c.name, c.dataType) :: autos columns else autos columns := by
  unfold autos autoColumns
  rw [List.filter_cons]
  split <;> rfl

/-- Changing a column that is not counted changes no counted one. -/
theorem autos_editColumn {column : String} {f : ColumnSnapshot (StoredValue D J) → ColumnSnapshot (StoredValue D J)}
    (other : column ∉ (autos columns).map Prod.fst) (flag : ∀ c, (f c).autoIncrement = c.autoIncrement) :
    autos (editColumn column f columns) = autos columns := by
  induction columns with
  | nil => rfl
  | cons c columns ih =>
      rw [editColumn, autos_cons]
      rw [autos_cons] at other
      by_cases counted : c.autoIncrement = true
      · rw [if_pos counted] at other ⊢
        rw [List.map_cons, List.mem_cons, not_or] at other
        rw [if_neg fun same => other.1 (beq_iff_eq.mp same).symm, autos_cons, if_pos counted, ih other.2]
      · rw [if_neg counted] at other ⊢
        split
        · rw [autos_cons, flag, if_neg counted]
        · rw [autos_cons, if_neg counted, ih other]

/-- Changing what does not concern counting changes no counted column. -/
theorem autos_editColumn_same {column : String} {f : ColumnSnapshot (StoredValue D J) → ColumnSnapshot (StoredValue D J)}
    (flag : ∀ c, (f c).autoIncrement = c.autoIncrement) (name : ∀ c, (f c).name = c.name)
    (type : ∀ c, (f c).dataType = c.dataType) : autos (editColumn column f columns) = autos columns := by
  induction columns with
  | nil => rfl
  | cons c columns ih =>
      rw [editColumn]
      split
      · rw [autos_cons, autos_cons, flag, name, type]
      · rw [autos_cons, autos_cons, ih]

theorem Spares.autos_edit {s : TableSchemaSnapshot (StoredValue D J)} {op : MigrationOp (StoredValue D J)}
    (spares : Spares ((autos s.columns).map Prod.fst) op) : autos (op.edit s).columns = autos s.columns := by
  cases op with
  | createTable name s' => rfl
  | dropTable name => rfl
  | addColumn table column =>
      have uncounted : column.autoIncrement = false := spares
      show autos (s.columns ++ [column]) = autos s.columns
      unfold autos autoColumns
      rw [List.filter_append, List.filter_cons_of_neg (by rw [uncounted]; exact Bool.false_ne_true), List.filter_nil,
        List.append_nil]
  | dropColumn table column =>
      show autos (s.columns.filter fun c => c.name != column) = autos s.columns
      unfold autos autoColumns
      rw [List.filter_filter]
      congr 1
      refine List.filter_congr fun c member => ?_
      by_cases counted : c.autoIncrement = true
      · have apart : c.name ≠ column := fun same => spares (same ▸ List.mem_map.mpr
          ⟨(c.name, c.dataType), List.mem_map.mpr ⟨c, List.mem_filter.mpr ⟨member, counted⟩, rfl⟩, rfl⟩)
        rw [bne_iff_ne.mpr apart, Bool.and_true]
      · rw [Bool.not_eq_true] at counted
        rw [counted, Bool.false_and]
  | renameColumn table old new => exact autos_editColumn spares fun _ => rfl
  | alterColumn table column changes =>
      have unflagged : changes.autoIncrement = none := spares
      refine autos_editColumn_same (fun c => ?_) (fun _ => rfl) (fun _ => rfl)
      rw [ColumnChanges.apply, unflagged, Option.getD_none]
  | widenColumn table column oldType newType => exact autos_editColumn spares fun _ => rfl
  | transformColumn table column oldType newType => exact autos_editColumn spares fun _ => rfl
  | addIndex table index =>
      rw [MigrationOp.edit]
      split <;> rfl
  | dropIndex table index => rfl

end Spares

/-! ## Runs -/

/-- The counters of a table and its snapshot are in step. -/
def Steady (e : Kept D J) : Prop := InStep (autos e.1.columns) e.2

/-- A table type has its counters in step when its table is new. -/
theorem steady_new (table : TableType (StoredValue D J))
    (count : ∀ c ∈ autoColumns table.schemaSnapshot.columns, (snapshotZero (J := J) c.dataType).isSome) :
    Steady (table.schemaSnapshot, newCounters (J := J) table.schemaSnapshot.columns) := by
  refine newCounters_inStep ?_ count
  show ((table.fields.map TableType.columnSnapshot).map ColumnSnapshot.name).Nodup
  rw [List.map_map]
  exact table.fieldNames

/-- A plan that spares the counted columns of a view keeps it in step. -/
theorem foldl_viewOp_steady {engine : MigrationEngine D J} {ops : List (MigrationOp (StoredValue D J))}
    {view : List (Kept D J)} (steady : ∀ e ∈ view, Steady e)
    (spares : ∀ op ∈ ops, ∀ e ∈ view, op.target = some e.1.name → Spares ((autos e.1.columns).map Prod.fst) op)
    (new : ∀ name s, .createTable name s ∈ ops → Steady (s, newCounters (J := J) s.columns) ∧
      ∀ op ∈ ops, op.target ≠ some s.name) :
    ∀ e ∈ ops.foldl engine.viewOp view, Steady e := by
  induction ops generalizing view with
  | nil => exact steady
  | cons op ops ih =>
      rw [List.foldl_cons]
      rw [List.forall_mem_cons] at spares
      have new' : ∀ name s, .createTable name s ∈ ops → Steady (s, newCounters (J := J) s.columns) ∧
          ∀ op ∈ ops, op.target ≠ some s.name := fun name s member =>
        have here := new name s (List.mem_cons_of_mem _ member)
        ⟨here.1, fun later inside => here.2 later (List.mem_cons_of_mem _ inside)⟩
      -- An edited entry keeps its name and its counted columns.
      have edited : ∀ e' ∈ view.map fun e => if op.target = some e.1.name then (op.edit e.1, e.2) else e,
          ∃ e ∈ view, e'.1.name = e.1.name ∧ autos e'.1.columns = autos e.1.columns ∧ e'.2 = e.2 := by
        intro e' member
        obtain ⟨e, inside, rfl⟩ := List.mem_map.mp member
        refine ⟨e, inside, ?_⟩
        split
        next own => exact ⟨MigrationOp.edit_name _ _, (spares.1 e inside own).autos_edit, rfl⟩
        next => exact ⟨rfl, rfl, rfl⟩
      have kept : (∀ e' ∈ view.map fun e => if op.target = some e.1.name then (op.edit e.1, e.2) else e, Steady e') ∧
          ∀ later ∈ ops, ∀ e' ∈ view.map fun e => if op.target = some e.1.name then (op.edit e.1, e.2) else e,
            later.target = some e'.1.name → Spares ((autos e'.1.columns).map Prod.fst) later := by
        constructor
        · intro e' member
          obtain ⟨e, inside, _, same, counters⟩ := edited e' member
          unfold Steady
          rw [same, counters]
          exact steady e inside
        · intro later inside e' member own
          obtain ⟨e, listed, named, same, _⟩ := edited e' member
          rw [same]
          exact spares.2 later inside e listed (named ▸ own)
      cases op with
      | createTable name s =>
          obtain ⟨own, untargeted⟩ := new name s List.mem_cons_self
          refine ih (List.forall_mem_append.mpr ⟨steady, List.forall_mem_singleton.mpr own⟩) ?_ new'
          intro later inside
          refine List.forall_mem_append.mpr ⟨spares.2 later inside, List.forall_mem_singleton.mpr fun target => ?_⟩
          exact absurd target (untargeted later (List.mem_cons_of_mem _ inside))
      | dropTable name =>
          refine ih (fun e member => steady e (List.mem_of_mem_filter member)) ?_ new'
          exact fun later inside e member => spares.2 later inside e (List.mem_of_mem_filter member)
      | _ => exact ih kept.1 kept.2 new'

variable [LinearOrder J] (engine : MigrationEngine D J)

/-- A migration to this schema leaves the auto-increment columns of the stored tables as
they are: its plan renames, drops, converts and flags none, and adds none to a table. -/
def KeepsAutos (schema : CompiledSchema D J) (tables : Tables D J) : Prop :=
  ∀ ops, pendingMigrations schema tables = .ok ops → ∀ op ∈ ops, ∀ t ∈ tables,
    op.target = some t.snapshot.name → Spares ((autos t.snapshot.columns).map Prod.fst) op

/-- Registrations, migrations under a condition, and writes of the current table types,
with any records and indexes these leave. -/
inductive Run (allowed : CompiledSchema D J → Tables D J → Prop) : Tables D J → Prop
  | start : Run allowed []
  | register {tables tables' : Tables D J} (run : Run allowed tables) (table : TableType (StoredValue D J))
      (registered : engine.registerTable tables table = .ok tables') : Run allowed tables'
  | migrate {tables tables' : Tables D J} (run : Run allowed tables) (schema : CompiledSchema D J)
      (allowDestructive : Bool) (condition : allowed schema tables)
      (migrated : engine.migrate schema tables allowDestructive = .ok tables') : Run allowed tables'
  | insert {tables : Tables D J} (run : Run allowed tables) (table : TableType (StoredValue D J))
      (values : List (String × Value J)) (records : List (RecordAddress × List UInt8)) (indexes : IndexTrees D J)
      (current : ∃ t ∈ tables, t.snapshot = table.schemaSnapshot) :
      Run allowed (engine.modifyTable tables table.name fun t =>
        { t with records := records, indexes := indexes, counters := (fillFromLedger table t.counters values).2 })

/-- The counters of a stored table are in step with its snapshot, and every insertion of
the current table type is filled in. -/
structure Counts (t : StoredTable D J) : Prop where
  steady : Steady (kept t)
  fills : ∀ table : TableType (StoredValue D J), table.schemaSnapshot = t.snapshot → ∀ values,
    Filled (table.fields.filter Field.autoIncrement) values (fillFromLedger table t.counters values)

variable {engine}

omit [LinearOrder J] in
theorem mem_autos {table : TableType (StoredValue D J)} {field : Field (StoredValue D J)}
    (member : field ∈ table.fields.filter Field.autoIncrement) :
    (field.name, field.type.snapshot) ∈ autos table.schemaSnapshot.columns := by
  obtain ⟨listed, counted⟩ := List.mem_filter.mp member
  exact List.mem_map.mpr ⟨TableType.columnSnapshot field,
    List.mem_filter.mpr ⟨List.mem_map_of_mem listed, counted⟩, rfl⟩

omit [LinearOrder J] in
theorem Steady.fillFromLedger {table : TableType (StoredValue D J)} {counters : Option (AutoincrementRegistry J)}
    (steady : Steady (table.schemaSnapshot, counters)) (values : List (String × Value J)) :
    Steady (table.schemaSnapshot, (fillFromLedger table counters values).2) ∧
      Filled (table.fields.filter Field.autoIncrement) values (fillFromLedger table counters values) :=
  InStep.fill steady (fun _ member => mem_autos member) values

omit [LinearOrder J] in
theorem registerTable_steady {tables tables' : Tables D J} (apart : engine.Apart tables)
    (steady : ∀ t ∈ tables, Steady (kept t)) {table : TableType (StoredValue D J)}
    (run : engine.registerTable tables table = .ok tables') :
    engine.Apart tables' ∧ ∀ t ∈ tables', Steady (kept t) := by
  unfold registerTable at run
  split at run
  next t found =>
    split at run
    · cases run
    · cases run
      exact ⟨apart, steady⟩
  next absent =>
    obtain ⟨_, _, run⟩ := bind_eq_ok.mp run
    obtain ⟨_, _, run⟩ := bind_eq_ok.mp run
    obtain ⟨_, _, run⟩ := bind_eq_ok.mp run
    split at run
    · cases run
    next count =>
      cases run
      refine ⟨apart.append absent, List.forall_mem_append.mpr ⟨steady, List.forall_mem_singleton.mpr ?_⟩⟩
      refine steady_new table fun c member => ?_
      rw [Bool.not_eq_true, List.any_eq_false] at count
      exact Option.isNone_eq_false_iff.mp (Bool.eq_false_iff.mpr (count c member))

theorem migrate_steady {schema : CompiledSchema D J} {tables tables' : Tables D J} {allowDestructive : Bool}
    (apart : engine.Apart tables) (steady : ∀ t ∈ tables, Steady (kept t)) (keeps : KeepsAutos schema tables)
    (run : engine.migrate schema tables allowDestructive = .ok tables') :
    engine.Apart tables' ∧ ∀ t ∈ tables', Steady (kept t) := by
  obtain ⟨ops, planned, apart', stored, typed⟩ := migrate_kept apart run
  refine ⟨apart', fun t listed => ?_⟩
  have member : kept t ∈ (orderOps ops).foldl engine.viewOp (tables.map kept) := by
    rw [← stored]
    exact List.mem_map_of_mem listed
  refine foldl_viewOp_steady (List.forall_mem_map.mpr steady) ?_ ?_ (kept t) member
  · intro op inside
    exact List.forall_mem_map.mpr fun u there => keeps ops planned op (mem_orderOps.mp inside) u there
  · intro name s created
    have created := mem_orderOps.mp created
    rcases mem_pendingMigrations planned created with ⟨table, _, same, fresh⟩ | ⟨u, _, target⟩ | ⟨u, _, same⟩
    · cases same
      refine ⟨steady_new table fun c counted => ?_, fun op inside target => ?_⟩
      · have checked := typed _ _ created
        unfold validateCounterTypes at checked
        split at checked
        next => cases checked
        next none_ => exact Option.isNone_eq_false_iff.mp (Bool.eq_false_iff.mpr (List.find?_eq_none.mp none_ c counted))
      · rcases mem_pendingMigrations planned (mem_orderOps.mp inside) with ⟨_, _, rfl, _⟩ | ⟨u, there, own⟩ | ⟨u, _, rfl⟩
        · cases target
        · rw [own] at target
          exact fresh u there (Option.some.inj target)
        · cases target
    · cases target
    · cases same

/-- As long as migrations leave the auto-increment columns of the stored tables as they
are, every table has its counters in step, and every insertion is filled in. -/
theorem counts_of_run {tables : Tables D J} (run : Run engine KeepsAutos tables) : ∀ t ∈ tables, Counts t := by
  have steady : engine.Apart tables ∧ ∀ t ∈ tables, Steady (kept t) := by
    induction run with
    | start => exact ⟨List.nodup_nil, fun _ member => absurd member List.not_mem_nil⟩
    | register run table registered ih => exact registerTable_steady ih.1 ih.2 registered
    | migrate run schema allowDestructive keeps migrated ih => exact migrate_steady ih.1 ih.2 keeps migrated
    | @insert tables run table values records indexes current ih =>
        obtain ⟨own, listed, same⟩ := current
        have named : own.snapshot.name = table.name := congrArg TableSchemaSnapshot.name same
        refine ⟨ih.1.of_names ?_, ?_⟩
        · rw [modifyTable, List.map_map]
          refine List.map_congr_left fun t _ => ?_
          rw [Function.comp_apply]
          split <;> rfl
        · refine List.forall_mem_map.mpr fun t there => ?_
          split
          next print =>
            obtain rfl := ih.1.eq there listed ((beq_iff_eq.mp print).trans (congrArg engine.fingerprint named.symm))
            have before := ih.2 t there
            unfold kept at before ⊢
            dsimp only
            rw [same] at before ⊢
            exact (before.fillFromLedger values).1
          next => exact ih.2 t there
  intro t listed
  refine ⟨steady.2 t listed, fun table same values => ?_⟩
  have here := steady.2 t listed
  unfold kept at here
  rw [← same] at here
  exact (here.fillFromLedger values).2

end MigrationEngine

/-- Every run leaves every table with its counters in step, and every insertion is filled
in. -/
def AlwaysCounts [LinearOrder J] (engine : MigrationEngine D J) : Prop :=
  ∀ tables, MigrationEngine.Run engine (fun _ _ => True) tables → ∀ t ∈ tables, MigrationEngine.Counts t

/-! ### A counted column is renamed -/

namespace Invoices
open MigrationEngine

abbrev Cell := Contacts.Cell

/-- `seq: Uint32`, or its new name, with `#[autoincrement]`. -/
def seq (name : String) (renamedFrom : List String) : Field Cell :=
  ⟨name, .uint32, false, true, false, false, none, none, renamedFrom⟩

theorem names_nodup : ["id", "seq"].Nodup := by decide

theorem new_names_nodup : ["id", "number"].Nodup := by decide

def invoices : TableType Cell :=
  ⟨"invoices", "id", [Contacts.field "id" .uint32, seq "seq" []], [["id"]], none, names_nodup⟩

/-- `seq` is now `number`, with `renamed_from = ["seq"]`. -/
def renamed : TableType Cell :=
  ⟨"invoices", "id", [Contacts.field "id" .uint32, seq "number" ["seq"]], [["id"]], none, new_names_nodup⟩

theorem tables_nodup (t : TableType Cell) : ([t].map TableType.name).Nodup := List.nodup_singleton _

def schemaOf (t : TableType Cell) : CompiledSchema {bytes : List UInt8 // bytes.length = 16} Unit :=
  ⟨[t], tables_nodup t, fun _ _ => none, fun _ _ _ => .ok none⟩

/-- Records go to the end of the first page; the fingerprint of a name is its length. -/
def engine : MigrationEngine {bytes : List UInt8 // bytes.length = 16} Unit where
  formats := Contacts.formats
  fingerprint := String.length
  place records _ _ := .ok ⟨2, records.length⟩
  checkKey _ := .ok ()
  select _ _ _ := .ok []

def stored : Tables {bytes : List UInt8 // bytes.length = 16} Unit := [newTable invoices.schemaSnapshot]

/-- The snapshot is the new one, the counter that of the old name. -/
def stale : Tables {bytes : List UInt8 // bytes.length = 16} Unit :=
  [⟨renamed.schemaSnapshot, [], [(["id"], [])], newCounters invoices.schemaSnapshot.columns⟩]

theorem registered : engine.registerTable [] invoices = .ok stored := by rfl

theorem diffIndexes_same (table name : String) (unique : Bool) :
    diffIndexes (V := Cell) table [⟨[name], unique⟩] [⟨[name], unique⟩] = [] := by
  have same : indexEq ⟨[name], unique⟩ ⟨[name], unique⟩ = true := by
    rw [indexEq, List.mergeSort_singleton, BEq.refl, BEq.refl]
    rfl
  simp [diffIndexes, same]

theorem pending : pendingMigrations (schemaOf renamed) stored = .ok [.renameColumn "invoices" "seq" "number"] := by
  have columns : diffColumns (schemaOf renamed) invoices.schemaSnapshot renamed.schemaSnapshot =
      .ok [.renameColumn "invoices" "seq" "number"] := by rfl
  have turn : diffCompiled (schemaOf renamed) (stored.map StoredTable.snapshot) renamed.schemaSnapshot =
      .ok [.renameColumn "invoices" "seq" "number"] := by
    show diffTable (schemaOf renamed) invoices.schemaSnapshot renamed.schemaSnapshot = _
    rw [diffTable, columns]
    exact congrArg (fun ops => Except.ok ([MigrationOp.renameColumn "invoices" "seq" "number"] ++ ops))
      (diffIndexes_same "invoices" "id" true)
  show (do
    let perTable ← [renamed.schemaSnapshot].mapM (diffCompiled (schemaOf renamed) (stored.map StoredTable.snapshot))
    return perTable.flatten ++ _) = _
  rw [List.mapM_cons, turn]
  rfl

theorem migrated : engine.migrate (schemaOf renamed) stored false = .ok stale := by
  rw [migrate, pending]
  show engine.applyOps (schemaOf renamed) stored (orderOps [.renameColumn "invoices" "seq" "number"]) = _
  rw [orderOps, List.mergeSort_singleton]
  rfl

/-- The next insertion finds no counter for `number` and panics. -/
theorem number_uncounted : ¬ AlwaysCounts engine := by
  intro always
  have run : Run engine (fun _ _ => True) stale :=
    .migrate (.register .start invoices registered) (schemaOf renamed) false trivial migrated
  have panics : (fillFromLedger renamed (newCounters invoices.schemaSnapshot.columns) []).1 = .error .panics := by rfl
  rcases (always stale run _ List.mem_cons_self).fills renamed rfl [] with ⟨_, done, _⟩ | ⟨⟨name, full⟩, _⟩
  · cases panics.symm.trans done
  · cases panics.symm.trans full

theorem created : engine.migrate (schemaOf invoices) [] false = .ok stored := by
  show engine.applyOps (schemaOf invoices) [] (orderOps [.createTable "invoices" invoices.schemaSnapshot]) = _
  rw [orderOps, List.mergeSort_singleton]
  rfl

theorem current : ∃ t ∈ stored, t.snapshot = invoices.schemaSnapshot := ⟨_, List.mem_cons_self, rfl⟩

/-- The table after a record has been inserted. -/
def inserted : StoredTable {bytes : List UInt8 // bytes.length = 16} Unit where
  snapshot := invoices.schemaSnapshot
  records := [(⟨2, 0⟩, [7, 0, 0, 0, 1, 0, 0, 0])]
  indexes := [(["id"], [([.uint32 7], ⟨2, 0⟩)])]
  counters := (fillFromLedger invoices (newCounters invoices.schemaSnapshot.columns) [("id", .uint32 7)]).2

/-- The table is created by a migration. -/
theorem invoices_count : Counts inserted :=
  counts_of_run (.insert (.migrate .start (schemaOf invoices) false
    (fun _ _ _ _ _ listed => absurd listed List.not_mem_nil) created) invoices [("id", .uint32 7)] inserted.records
      inserted.indexes current) inserted List.mem_cons_self

end Invoices
end WasmDbms
