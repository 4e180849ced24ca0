import WasmDbms.Db.AutoIncrement
import WasmDbms.Db.OverlayRows
import WasmDbms.Db.Query

/-!
# The columns of the rows a query returns

Stored rows have the columns of their table, in its order, and patches keep them. The
generated values of an inserted row come behind the given ones, and a transaction
shows the row like this.
-/
namespace WasmDbms
open Result

variable {J F : Type} [LinearOrder J]

section Rows
variable {row row' : Row J} {columns : List ColumnDef} {ops : List (Operation J)}

theorem replayFrom_columns {key : Value J} (run : replayFrom key row ops = some row') :
    row'.map Prod.fst = row.map Prod.fst := by
  induction ops generalizing key row with
  | nil =>
      cases run
      rfl
  | cons op rest ih =>
      unfold replayFrom at run
      split at run
      · exact ih run
      · cases op with
        | insert => cases run
        | delete => cases run
        | update key updates => rw [ih run, patchValues_columns]

theorem replay_columns (run : replay row ops = some row') : row'.map Prod.fst = row.map Prod.fst := by
  obtain ⟨key, _, run⟩ := Option.bind_eq_some_iff.mp run
  exact replayFrom_columns run

/-- The rows a reader with an overlay returns have the columns of the stored rows and of
the inserted ones. -/
theorem overlayRows_columns {stored : List (Row J)} (rows : ∀ row ∈ stored, row.map Prod.fst = columns)
    (inserted : ∀ key record, Operation.insert key record ∈ ops → record.map Prod.fst = columns)
    (member : row ∈ overlayRows ops stored) : row.map Prod.fst = columns := by
  rcases List.mem_append.mp member with old | new
  · obtain ⟨first, there, run⟩ := List.mem_filterMap.mp old
    rw [replay_columns run, rows first there]
  · clear member rows
    induction ops with
    | nil => cases new
    | cons op rest ih =>
        have later := ih fun key record member => inserted key record (List.mem_cons_of_mem _ member)
        cases op with
        | insert key record =>
            rw [iterInserted] at new
            rcases List.mem_append.mp new with here | new
            · rw [replay_columns (Option.mem_toList.mp here), inserted key record List.mem_cons_self]
            · exact later new
        | delete => exact later new
        | update => exact later new

end Rows

/-! ## Generated columns -/

/-- The columns an insertion leaves to be generated stand behind all others in the
table. -/
def LeftOutLast (t : TableDef J) (values : Row J) : Prop :=
  ∃ generated, t.columns = values.map Prod.fst ++ generated ∧ ∀ column ∈ generated, column.autoIncrement = true

section Fill
variable {values filled : Row J}

omit [LinearOrder J] in
/-- The generated columns come behind the given ones. -/
theorem fillColumns_columns {table : String} {columns : List ColumnDef}
    (names : (columns.map ColumnDef.name).Nodup) {registry : AutoincrementRegistry J}
    (run : (fillColumns table columns registry values).result = .ok filled) :
    filled.map Prod.fst = values.map Prod.fst ++
      columns.filter fun column => !values.any fun entry => entry.1.name == column.name := by
  induction columns generalizing registry values with
  | nil =>
      cases run
      rw [List.filter_nil, List.append_nil]
  | cons column rest ih =>
      rw [List.map_cons, List.nodup_cons] at names
      rw [fillColumns] at run
      split at run
      next given => rw [ih names.2 run, List.filter_cons_of_neg (by simp [given])]
      next absent =>
        split at run
        next => cases run
        next value registry' drawn =>
          have later := ih names.2 run
          rw [later, List.filter_cons_of_pos (by simpa using absent), List.map_append, List.append_assoc]
          refine congrArg (values.map Prod.fst ++ column :: ·) (List.filter_congr fun other member => ?_)
          have apart : (column.name == other.name) = false :=
            beq_false_of_ne fun same => names.1 (same ▸ List.mem_map_of_mem member)
          rw [List.any_append, List.any_cons, List.any_nil, apart, Bool.or_false, Bool.or_false]

omit [LinearOrder J] in
/-- A filled row lists the columns of its table if and only if those that were left out
are its last ones. -/
theorem filled_lists_columns {t : TableDef J} {registry : AutoincrementRegistry J}
    (run : (fillAutoIncrementValues t registry values).result = .ok filled) :
    filled.map Prod.fst = t.columns ↔ LeftOutLast t values := by
  have names : ((t.columns.filter fun column => column.autoIncrement).map ColumnDef.name).Nodup :=
    t.columnNames.sublist (List.filter_sublist.map _)
  have columns := fillColumns_columns names run
  rw [columns]
  constructor
  · intro same
    refine ⟨_, same.symm, fun column member => ?_⟩
    exact (List.mem_filter.mp (List.mem_filter.mp member).1).2
  · rintro ⟨generated, split, auto⟩
    rw [split]
    refine congrArg (values.map Prod.fst ++ ·) ?_
    have given : ∀ column ∈ values.map Prod.fst, (values.any fun entry => entry.1.name == column.name) = true := by
      intro column member
      obtain ⟨entry, there, rfl⟩ := List.mem_map.mp member
      exact List.any_eq_true.mpr ⟨entry, there, beq_self_eq_true _⟩
    have unique := t.columnNames
    rw [split, List.map_append, List.nodup_append] at unique
    have absent : ∀ column ∈ generated, (values.any fun entry => entry.1.name == column.name) = false := by
      intro column member
      refine List.any_eq_false.mpr fun entry there => ?_
      have apart := unique.2.2 _ (List.mem_map_of_mem (List.mem_map_of_mem there)) _ (List.mem_map_of_mem member)
      simpa using apart
    rw [List.filter_filter, List.filter_append]
    have none_ : (values.map Prod.fst).filter (fun column =>
        (!values.any fun entry => entry.1.name == column.name) && column.autoIncrement) = [] :=
      List.filter_eq_nil_iff.mpr fun column member => by simp [given column member]
    have all : generated.filter (fun column =>
        (!values.any fun entry => entry.1.name == column.name) && column.autoIncrement) = generated :=
      List.filter_eq_self.mpr fun column member => by simp [absent column member, auto column member]
    rw [none_, all, List.nil_append]

end Fill

/-! ## Runs -/

/-- The rows the overlay of a transaction has inserted list the columns of their tables,
and its operations are on tables of the database. -/
structure Transaction.Columned (db : Database J F) (tx : Transaction J F) : Prop where
  listed : ∀ op ∈ tx.operations, op.table ∈ db.schema.tables
  inserted : ∀ t ∈ db.schema.tables, ∀ key record,
    Operation.insert key record ∈ tx.overlay t.name → record.map Prod.fst = t.columns

namespace Transaction.Columned
variable {db : Database J F} {tx : Transaction J F}

omit [LinearOrder J] in
theorem new [LinearOrder J] {db : Database J F} : (Transaction.new : Transaction J F).Columned db :=
  ⟨fun _ member => absurd member List.not_mem_nil, fun _ _ _ _ member => absurd member List.not_mem_nil⟩

/-- Changes of a table whose inserted rows list its columns. -/
theorem record (columned : tx.Columned db) {t : TableDef J} (listed : t ∈ db.schema.tables)
    {changes : List (Operation J)} (inserted : ∀ key record, Operation.insert key record ∈ changes →
      record.map Prod.fst = t.columns) {op : TransactionOp J F} (table : op.table = t) :
    (tx.record t changes op).Columned db := by
  constructor
  · intro op' member
    rcases List.mem_append.mp member with old | new
    · exact columned.listed op' old
    · obtain rfl := List.mem_singleton.mp new
      exact table ▸ listed
  · intro t' listed' key row member
    change Operation.insert key row ∈ Function.update tx.overlay t.name (tx.overlay t.name ++ changes) t'.name at member
    by_cases same : t'.name = t.name
    · obtain rfl := List.inj_on_of_nodup_map db.schema.names listed' listed same
      rw [Function.update_self] at member
      rcases List.mem_append.mp member with old | new
      · exact columned.inserted t' listed' key row old
      · exact inserted key row new
    · rw [Function.update_of_ne same] at member
      exact columned.inserted t' listed' key row member

end Transaction.Columned

/-- The insertions staged in a transaction leave out last columns only. -/
def Call.LeavesOutLast : Call J F → Prop
  | .insert (some _) t values => LeftOutLast t values
  | _ => True

namespace Engine
variable {db : Database J F}

/-- A call that meets the condition, whether it succeeds or not. -/
def OrderedStep (db : Database J F) (e e' : Engine J F) : Prop :=
  ∃ fuel c, Call.Listed db.schema c ∧ c.LeavesOutLast ∧ e' = (e.call db fuel c).2.1

/-- The stored records are typed and the open transactions list their columns. -/
structure Columned (db : Database J F) (ctx : Context J F) : Prop where
  typed : ctx.state.Typed db.schema
  transactions : ∀ id tx, ctx.transactions id = some tx → tx.Columned db

namespace Columned
variable {ctx ctx' : Context J F}

theorem withState (columned : Columned db ctx) {s : DbState J} (typed : s.Typed db.schema) :
    Columned db (ctx.withState s) := ⟨typed, columned.transactions⟩

theorem withTransaction (columned : Columned db ctx) {id : ℕ} {tx : Option (Transaction J F)}
    (own : ∀ tx', tx = some tx' → tx'.Columned db) : Columned db (ctx.withTransaction id tx) := by
  refine ⟨columned.typed, fun k tx' isOpen => ?_⟩
  change Function.update ctx.transactions id tx k = some tx' at isOpen
  by_cases here : k = id
  · subst here
    rw [Function.update_self] at isOpen
    exact own tx' isOpen
  · rw [Function.update_of_ne here] at isOpen
    exact columned.transactions k tx' isOpen

theorem closes (columned : Columned db ctx) {id : ℕ} : Columned db (ctx.withTransaction id none) :=
  columned.withTransaction fun _ none_ => by cases none_

theorem call_fails (columned : Columned db ctx) {fuel : ℕ} {c : Call J F} {e : Failure J}
    (run : ctx.call db fuel c = (.error e, ctx')) : Columned db ctx' := by
  obtain ⟨_, rfl | ⟨id, rfl⟩⟩ := Context.call_fails run
  · exact columned
  · exact columned.closes

theorem insert (columned : Columned db ctx) {id : Option ℕ} {t : TableDef J} (listed : t ∈ db.schema.tables)
    {values : Row J} (columns : id ≠ none → values.map Prod.fst = t.columns) {fuel n : ℕ}
    (run : ctx.perform db fuel (.insert id t values) = .ok (n, ctx')) : Columned db ctx' := by
  cases id with
  | none =>
      obtain ⟨s, inserted, run⟩ := bind_eq_ok.mp run
      cases run
      exact columned.withState (insert_typed columned.typed listed inserted)
  | some id =>
      obtain ⟨sanitized, made, run⟩ := bind_eq_ok.mp run
      obtain ⟨tx, found, run⟩ := bind_eq_ok.mp run
      obtain ⟨_, _, run⟩ := bind_eq_ok.mp run
      obtain ⟨tx', staged, run⟩ := bind_eq_ok.mp run
      cases run
      obtain ⟨key, _, staged⟩ := bind_eq_ok.mp (Failure.lift_eq_ok.mp staged)
      cases staged
      have kept : sanitized.map Prod.fst = t.columns :=
        (sanitizeValues_columns (Failure.lift_eq_ok.mp made)).trans (columns (fun none_ => by cases none_))
      refine columned.withTransaction fun tx' own => ?_
      cases own
      refine (columned.transactions id tx (Context.transaction_ok found)).record listed ?_ rfl
      intro key row member
      cases List.mem_singleton.mp member
      exact kept

/-- The calls other than insertions. -/
theorem perform (columned : Columned db ctx) {fuel n : ℕ} {c : Call J F} (listed : c.Listed db.schema)
    (other : ∀ id t values, c ≠ .insert id t values) (run : ctx.perform db fuel c = .ok (n, ctx')) :
    Columned db ctx' := by
  cases c with
  | insert id t values => exact absurd rfl (other id t values)
  | begin =>
      cases run
      have opened : Columned db (ctx.withTransaction ctx.nextTransactionId (some .new)) :=
        columned.withTransaction fun tx own => by
          cases own
          exact .new
      exact ⟨opened.typed, opened.transactions⟩
  | update id t patch filter =>
      cases id with
      | none =>
          obtain ⟨⟨m, s⟩, updated, run⟩ := bind_eq_ok.mp run
          cases run
          exact columned.withState (update_typed columned.typed listed updated)
      | some id =>
          obtain ⟨tx, found, run⟩ := bind_eq_ok.mp run
          obtain ⟨rows, _, run⟩ := bind_eq_ok.mp run
          cases run
          refine columned.withTransaction fun tx' own => ?_
          cases own
          refine (columned.transactions id tx (Context.transaction_ok found)).record listed ?_ rfl
          intro key row member
          obtain ⟨_, _, update⟩ := List.mem_map.mp member
          cases update
  | delete id t behaviour filter =>
      cases id with
      | none =>
          obtain ⟨⟨m, s⟩, deleted, run⟩ := bind_eq_ok.mp run
          cases run
          exact columned.withState (delete_typed columned.typed listed deleted)
      | some id =>
          obtain ⟨tx, found, run⟩ := bind_eq_ok.mp run
          obtain ⟨rows, _, run⟩ := bind_eq_ok.mp run
          cases run
          refine columned.withTransaction fun tx' own => ?_
          cases own
          refine (columned.transactions id tx (Context.transaction_ok found)).record listed ?_ rfl
          intro key row member
          obtain ⟨_, _, delete⟩ := List.mem_map.mp member
          cases delete
  | commit id =>
      obtain ⟨tx, found, run⟩ := bind_eq_ok.mp run
      obtain ⟨s, replayed, run⟩ := bind_eq_ok.mp run
      cases run
      have operations := (columned.transactions id tx (Context.transaction_ok found)).listed
      exact columned.closes.withState (WasmDbms.replayAll_typed columned.typed operations replayed)
  | rollback id =>
      cases run
      exact columned.closes

end Columned

theorem replayOp_typed {op : TransactionOp J F} {s s' : DbState J} (typed : s.Typed db.schema)
    (listed : op.table ∈ db.schema.tables) {fuel : ℕ} {counters : Counters J}
    (run : (replayOp db fuel op s counters).result = .ok s') : s'.Typed db.schema := by
  cases op with
  | insert t values =>
      rw [replayOp] at run
      split at run
      next => cases run
      next given _ =>
        obtain ⟨filled, _, inserted⟩ := bind_eq_ok.mp run
        exact insert_typed typed listed inserted
  | delete t behaviour filters => exact WasmDbms.replayOp_typed typed listed run
  | update t patch filters => exact WasmDbms.replayOp_typed typed listed run

theorem replayAll_typed {ops : List (TransactionOp J F)} {s s' : DbState J} (typed : s.Typed db.schema)
    (listed : ∀ op ∈ ops, op.table ∈ db.schema.tables) {fuel : ℕ} {counters : Counters J}
    (run : (replayAll db fuel ops s counters).result = .ok s') : s'.Typed db.schema := by
  induction ops generalizing s counters with
  | nil =>
      cases run
      exact typed
  | cons op rest ih =>
      rw [List.forall_mem_cons] at listed
      rw [replayAll] at run
      dsimp only at run
      split at run
      next => cases run
      next s₁ first => exact ih (replayOp_typed typed listed.1 first) listed.2 run

/-- A step keeps the columns. -/
theorem OrderedStep.columned {e e' : Engine J F} (step : OrderedStep db e e') (columned : Columned db e.context) :
    Columned db e'.context := by
  obtain ⟨fuel, c, listed, last, rfl⟩ := step
  have called : ∀ c : Call J F, c.Listed db.schema → (∀ id t values, c ≠ .insert id t values) →
      Columned db (e.context.call db fuel c).2 := by
    intro c listed other
    generalize run : e.context.call db fuel c = called
    obtain ⟨r, ctx'⟩ := called
    cases r with
    | error failure => exact columned.call_fails run
    | ok n => exact columned.perform listed other (Context.perform_of_call run)
  cases c with
  | insert id t values =>
      rw [call]
      dsimp only
      split
      next => exact columned
      next filled run =>
        generalize inserted : e.context.call db fuel (.insert id t filled) = called
        obtain ⟨r, ctx'⟩ := called
        cases r with
        | error failure => exact columned.call_fails inserted
        | ok n =>
            refine columned.insert listed (fun staged => ?_) (Context.perform_of_call inserted)
            obtain ⟨k, rfl⟩ := Option.ne_none_iff_exists'.mp staged
            exact (filled_lists_columns run).mpr last
  | commit id =>
      rw [call]
      split
      next => exact columned.closes
      next tx found =>
        dsimp only
        split
        next => exact columned.closes
        next s replayed =>
          have operations := (columned.transactions id tx (Context.transaction_ok found)).listed
          exact columned.closes.withState (replayAll_typed columned.typed operations replayed)
  | begin => exact called _ listed fun _ _ _ other => by cases other
  | update => exact called _ listed fun _ _ _ other => by cases other
  | delete => exact called _ listed fun _ _ _ other => by cases other
  | rollback => exact called _ listed fun _ _ _ other => by cases other

/-- In every run in which the insertions staged in transactions leave out last columns
only, a query lists the columns of its table in their order, in any open transaction and
outside of them. -/
theorem select_lists_columns {start e : Engine J F} (typed : start.context.state.Typed db.schema)
    (closed : ∀ id, start.context.transactions id = none)
    (run : Relation.ReflTransGen (OrderedStep db) start e) :
    ∀ t ∈ db.schema.tables, ∀ tx, (∀ tx', tx = some tx' → ∃ id, e.context.transactions id = some tx') →
      ∀ query rows, db.selectColumns tx e.context.state t query = .ok rows →
        ∀ row ∈ rows, row.map Prod.fst = t.columns := by
  have columned : Columned db e.context := by
    induction run with
    | refl => exact ⟨typed, fun id tx isOpen => by cases (closed id).symm.trans isOpen⟩
    | tail _ step ih => exact step.columned ih
  intro t listed tx isOpen query rows selected row member
  have stored : ∀ x ∈ (e.context.state t.name).rows, x.2.map Prod.fst = t.columns :=
    fun x there => (columned.typed t listed x there).names
  have visited := Database.selectColumns_subset selected member
  cases tx with
  | none =>
      obtain ⟨x, there, rfl⟩ := List.mem_map.mp visited
      exact stored x (Database.mem_access there)
  | some tx =>
      obtain ⟨id, here⟩ := isOpen tx rfl
      refine overlayRows_columns ?_ ((columned.transactions id tx here).inserted t listed)
        (db.visitRows t query.filter _ _ row visited)
      intro row member
      obtain ⟨x, there, rfl⟩ := List.mem_map.mp member
      exact stored x there

end Engine

/-! ## Tickets with the number in front or behind -/

namespace Tickets

theorem empty_typed : empty.Typed schema := fun _ _ _ member => absurd member List.not_mem_nil

def ticket (number : UInt32) (text : String) : Row ℕ := [(label, .text text), (id, .uint32 number)]

/-- A transaction that inserts a ticket shows its columns in order. -/
theorem select_lists_label_id : ∃ (e : Engine ℕ Empty) (tx : Transaction ℕ Empty) (rows : List (Row ℕ)),
    e.context.transactions 0 = some tx ∧
    db.selectColumns (some tx) e.context.state table .all = .ok rows ∧ rows ≠ [] ∧
    ∀ row ∈ rows, row.map Prod.fst = [label, id] := by
  have begins : Engine.OrderedStep db (counting 0) ((counting 0).call db 1 .begin).2.1 :=
    ⟨1, .begin, trivial, trivial, rfl⟩
  have inserts : Engine.OrderedStep db ((counting 0).call db 1 .begin).2.1
      (((counting 0).call db 1 .begin).2.1.call db 1 (issue (some 0) "b")).2.1 :=
    ⟨1, issue (some 0) "b", List.mem_singleton.mpr rfl,
      ⟨[id], rfl, fun column member => by rw [List.mem_singleton.mp member]; rfl⟩, rfl⟩
  have listed := Engine.select_lists_columns empty_typed (fun _ => rfl) (.tail (.single begins) inserts) table
    (List.mem_singleton.mpr rfl)
  let tx : Transaction ℕ Empty := (Transaction.new.record table [.insert (.uint32 1) (ticket 1 "b")]
    (.insert table (ticket 1 "b")))
  refine ⟨_, tx, [ticket 1 "b"], (rfl : (((counting 0).call db 1 .begin).2.1.call db 1
    (issue (some 0) "b")).2.1.context.transactions 0 = some tx), rfl, List.cons_ne_nil _ _, ?_⟩
  exact listed (some tx) (fun _ own => ⟨0, own⟩) .all _ rfl

theorem leadingNames : ([id, label].map ColumnDef.name).Nodup := by decide

theorem leadingKey : ∀ c ∈ [id, label], c.primaryKey = true → c.name = "id" := by decide

theorem leadingKeyed : ∃ c ∈ [id, label], c.name = "id" ∧ c.primaryKey = true := ⟨id, List.mem_cons_self, rfl, rfl⟩

/-- Tickets with the number in front. -/
def leading : TableDef ℕ :=
  { table with
    columns := [id, label]
    columnNames := leadingNames
    keyed := leadingKeyed
    oneKey := leadingKey }

theorem leadingPlain : ∀ c ∈ leading.columns, c.foreignKey = none := by decide

theorem leadingLocal : ∀ t ∈ [leading], ∀ c ∈ t.columns, ∀ fk, c.foreignKey = some fk → fk.localColumn = c.name := by
  intro t listed c column fk key
  obtain rfl := List.mem_singleton.mp listed
  rw [leadingPlain c column] at key
  cases key

theorem leadingForeign : ∀ t ∈ [leading], ∀ c ∈ t.columns, ∀ fk, c.foreignKey = some fk →
    ∀ t' ∈ [leading], t'.name = fk.foreignTable → ∃ c' ∈ t'.columns, c'.name = fk.foreignColumn := by
  intro t listed c column fk key
  obtain rfl := List.mem_singleton.mp listed
  rw [leadingPlain c column] at key
  cases key

theorem leadingTable : ([leading].map TableDef.name).Nodup := List.nodup_singleton _

def leadingDb : Database ℕ Empty := .scanning ⟨[leading], leadingTable, leadingLocal, leadingForeign⟩ db.predicates

/-- The transaction shows the label of the ticket in front of its number. -/
theorem select_misplaces_id : ∃ e₁ e₂ tx rows,
    (counting 0).call leadingDb 1 .begin = (.ok 0, e₁, []) ∧
    e₁.call leadingDb 1 (.insert (some 0) leading [(label, .text "a")]) =
      (.ok 0, e₂, [⟨"tickets", "id", .uint32 1⟩]) ∧
    e₂.context.transactions 0 = some tx ∧
    leadingDb.selectColumns (some tx) e₂.context.state leading .all = .ok rows ∧
    ∃ row ∈ rows, row.map Prod.fst = [label, id] ∧ row.map Prod.fst ≠ leading.columns :=
  ⟨_, _, _, _, rfl, rfl, rfl, rfl, _, List.mem_cons_self, rfl,
    fun same => absurd (List.head_eq_of_cons_eq same) (by decide)⟩

end Tickets
end WasmDbms
