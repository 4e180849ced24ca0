import WasmDbms.Db.Captured
import WasmDbms.Db.Termination

/-!
# Captured rows at commit

An update or a deletion staged in a transaction is applied at commit only when each row
it has captured is found exactly once by all its columns that are no foreign keys.
-/
namespace WasmDbms
open Result

variable {J F : Type} [LinearOrder J]

/-- A call that stages an update or a deletion, and the operation it adds for some
filters. -/
inductive Call.Stages (id : ℕ) (t : TableDef J) (filter : Option (Filter J F)) :
    Call J F → (List (Filter J F) → TransactionOp J F) → Prop
  | update (patch : Row J) : Stages id t filter (.update (some id) t patch filter) (.update t patch)
  | delete (behaviour : DeleteBehavior) :
      Stages id t filter (.delete (some id) t behaviour filter) (.delete t behaviour)

section Commit
open Context

variable {db : Database J F} {ctx ctx' : Context J F} {fuel id n : ℕ} {t : TableDef J}

/-- What a call that stages an operation leaves in its transaction. -/
theorem Call.Stages.perform {c : Call J F} {make : List (Filter J F) → TransactionOp J F}
    {filter : Option (Filter J F)} (stages : c.Stages id t filter make)
    (run : ctx.call db fuel c = (.ok n, ctx')) :
    ∃ tx tx' rows pairs, ctx.transactions id = some tx ∧ db.selectInside tx ctx.state t filter = .ok rows ∧
      Captures t rows pairs ∧ n = rows.length ∧ ctx'.transactions id = some tx' ∧
      tx'.operations = tx.operations ++ [make (Database.capturedFilters t pairs)] := by
  have performed := perform_of_call run
  cases stages with
  | update patch =>
      obtain ⟨tx, found, performed⟩ := bind_eq_ok.mp performed
      obtain ⟨pairs, existing, performed⟩ := bind_eq_ok.mp performed
      cases performed
      obtain ⟨rows, selected, captured⟩ := existingRowsForFilter_ok existing
      exact ⟨tx, _, rows, pairs, transaction_ok found, selected, captured, captured.length_eq.symm,
        Function.update_self .., rfl⟩
  | delete behaviour =>
      obtain ⟨tx, found, performed⟩ := bind_eq_ok.mp performed
      obtain ⟨pairs, existing, performed⟩ := bind_eq_ok.mp performed
      cases performed
      obtain ⟨rows, selected, captured⟩ := existingRowsForFilter_ok existing
      exact ⟨tx, _, rows, pairs, transaction_ok found, selected, captured, captured.length_eq.symm,
        Function.update_self .., rfl⟩

/-- An operation that starts with the check of its filters fails when the check does. -/
theorem Call.Stages.replay_fails {c : Call J F} {make : List (Filter J F) → TransactionOp J F}
    {filter : Option (Filter J F)} (stages : c.Stages id t filter make) {filters : List (Filter J F)}
    {s : DbState J} {e : Failure J} (fails : db.validatedTransactionFilter t filters s = .error e) :
    db.replayOp fuel (make filters) s = .error e := by
  cases stages <;> rw [Database.replayOp, fails] <;> rfl

/-- Between an update or a deletion staged in a transaction of any run and the commit
of the transaction, the table having no foreign keys: the captured rows are found as
they were just before the operation is applied, and only these are changed, or the
commit fails with a conflict. A commit that fails changes nothing. -/
theorem commit_finds_captured {start ctx₀ ctx₁ ctx₂ ctx₃ : Context J F}
    (typed : start.state.Typed db.schema) (closed : ∀ id, start.transactions id = none)
    (before : Steps db start ctx₀) {filter : Option (Filter J F)} {c : Call J F}
    {make : List (Filter J F) → TransactionOp J F} (stages : c.Stages id t filter make)
    (listed : t ∈ db.schema.tables) (staged : ctx₀.call db fuel c = (.ok n, ctx₁))
    (between : Steps db ctx₁ ctx₂) {fuel' : ℕ} {tx : Transaction J F} (here : ctx₂.transactions id = some tx)
    {r : Except (Failure J) ℕ} (commit : ctx₂.call db fuel' (.commit id) = (r, ctx₃))
    (plain : ∀ c ∈ t.columns, c.foreignKey = none) :
    ∃ tx₀ rows filters earlier later, ctx₀.transactions id = some tx₀ ∧
      db.selectInside tx₀ ctx₀.state t filter = .ok rows ∧ n = rows.length ∧
      tx.operations = earlier ++ make filters :: later ∧
      (∀ s, db.replayAll fuel' earlier ctx₂.state = .ok s →
        db.FindsCaptured t filters rows s ∨ r = .error (Database.conflict t)) ∧
      (∀ k, r = .ok k → ∃ s, db.replayAll fuel' earlier ctx₂.state = .ok s ∧ db.FindsCaptured t filters rows s) ∧
      (∀ e, r = .error e → ctx₃.state = ctx₂.state) := by
  have sound₀ : Sound db ctx₀ := Steps.sound ⟨typed, fun id h => absurd (closed id) h,
    fun id tx h => by rw [closed id] at h; cases h⟩ before
  have listedCall : c.Listed db.schema := by cases stages <;> exact listed
  have sound₁ := (call_effect sound₀ listedCall staged).sound sound₀
  obtain ⟨tx₀, tx₁, rows, pairs, open₀, selected, captured, counted, open₁, added⟩ := stages.perform staged
  obtain ⟨later, grown⟩ := Steps.operations sound₁ open₁ between here
  have operations : tx.operations = tx₀.operations ++ make (Database.capturedFilters t pairs) :: later := by
    rw [grown, added, List.append_assoc, List.singleton_append]
  have sound₂ := Steps.sound sound₁ between
  have outcome : r = (db.replayAll fuel' tx.operations ctx₂.state).map fun _ => 0 := by
    cases replayed : db.replayAll fuel' tx.operations ctx₂.state with
    | error e =>
        rw [call_commit_error here replayed] at commit
        cases commit
        rfl
    | ok s =>
        rw [call_commit_ok here replayed] at commit
        cases commit
        rfl
  rw [operations, replayAll_append] at outcome
  have typedEarlier : ∀ s, db.replayAll fuel' tx₀.operations ctx₂.state = .ok s → s.Typed db.schema := fun s run =>
    replayAll_typed sound₂.typed (fun op member => sound₂.listed id tx here op
      (operations ▸ List.mem_append_left _ member)) run
  have checked : ∀ s, db.replayAll fuel' tx₀.operations ctx₂.state = .ok s →
      db.FindsCaptured t (Database.capturedFilters t pairs) rows s ∨ r = .error (Database.conflict t) := by
    intro s run
    refine (findsCaptured_or_conflict (recognized_of_plain (typedEarlier s run) listed plain) captured).imp_right fun fails => ?_
    have stops : db.replayAll fuel' (make (Database.capturedFilters t pairs) :: later) s =
        .error (Database.conflict t) := by
      rw [Database.replayAll, stages.replay_fails fails]
      rfl
    rw [outcome, run]
    exact congrArg (Except.map _) stops
  refine ⟨tx₀, rows, _, _, later, open₀, selected, counted, operations, checked, ?_, ?_⟩
  · rintro k rfl
    cases run : db.replayAll fuel' tx₀.operations ctx₂.state with
    | error e =>
        rw [run] at outcome
        cases outcome
    | ok s => exact ⟨s, rfl, (checked s run).resolve_right fun same => by cases same⟩
  · rintro e rfl
    exact (call_fails commit).1

end Commit

/-! ## A table without foreign keys -/

namespace Items

def id : ColumnDef := ⟨"id", .uint32, false, false, true, false, none⟩

def label : ColumnDef := ⟨"label", .text, false, false, false, false, none⟩

theorem columnNames : ([id, label].map ColumnDef.name).Nodup := by decide

theorem oneKey : ∀ c ∈ [id, label], c.primaryKey = true → c.name = "id" := by decide

theorem keyed : ∃ c ∈ [id, label], c.name = "id" ∧ c.primaryKey = true := ⟨id, List.mem_cons_self, rfl, rfl⟩

theorem indexNames : ([⟨["id"]⟩].map IndexDef.columns).Nodup := List.nodup_singleton _

theorem keyIndex : ([⟨["id"]⟩] : List IndexDef) ≠ [] := List.cons_ne_nil _ _

/-- Items with a label. -/
def table : TableDef ℕ where
  name := "items"
  columns := [id, label]
  primaryKey := "id"
  indexes := [⟨["id"]⟩]
  sanitizer _ := none
  validator _ := none
  columnNames := columnNames
  keyed := keyed
  oneKey := oneKey
  indexNames := indexNames
  keyIndex := keyIndex

theorem plain : ∀ c ∈ table.columns, c.foreignKey = none := by decide

def schema : DatabaseSchema ℕ where
  tables := [table]
  names := by decide
  local_ t listed c column fk key := by
    obtain rfl := List.mem_singleton.mp listed
    rw [plain c column] at key
    cases key
  foreign t listed c column fk key := by
    obtain rfl := List.mem_singleton.mp listed
    rw [plain c column] at key
    cases key

def db : Database ℕ Empty := .scanning schema ⟨fun _ => .error "", fun f => f.elim, fun f => f.elim⟩

def item (key : UInt32) (text : String) : Row ℕ := [(id, .uint32 key), (label, .text text)]

/-- One item. -/
def single : DbState ℕ := fun name =>
  if name = "items" then ⟨[(⟨0, 0⟩, item 1 "a")], [(["id"], [([.uint32 1], ⟨0, 0⟩)])]⟩ else ⟨[], []⟩

theorem single_typed : single.Typed schema := by
  intro t listed x member
  obtain rfl := List.mem_singleton.mp listed
  obtain rfl := List.mem_singleton.mp member
  refine ⟨rfl, ?_⟩
  intro entry member
  have cases : entry = (id, .uint32 1) ∨ entry = (label, .text "a") := by simpa [item] using member
  rcases cases with rfl | rfl
  · exact .inl rfl
  · exact .inl rfl

/-- A transaction has just begun. -/
def opened : Context ℕ Empty := ⟨single, Function.update (fun _ => none) 0 (some .new), 1⟩

/-- The transaction has renamed the item. -/
def renamed : Context ℕ Empty :=
  opened.withTransaction 0 (some (Transaction.new.update table [(label, .text "b")] [(.uint32 1, item 1 "a")]))

/-- The commit finds the item as it was. -/
theorem commit_finds_captured_item : ∃ filters, db.FindsCaptured table filters [item 1 "a"] single := by
  have opens : Context.Steps db ⟨single, fun _ => none, 0⟩ opened :=
    .single ⟨1, .begin, .ok 0, trivial, rfl, nofun⟩
  have staged : opened.call db 1 (.update (some 0) table [(label, .text "b")] none) = (.ok 1, renamed) := rfl
  have commit : renamed.call db 2 (.commit 0) = (.ok 0, (renamed.call db 2 (.commit 0)).2) := rfl
  obtain ⟨tx₀, rows, filters, earlier, later, open₀, selected, _, operations, _, found, _⟩ :=
    commit_finds_captured single_typed (fun _ => rfl) opens (.update [(label, .text "b")])
      (List.mem_singleton.mpr rfl) staged .refl rfl commit plain
  obtain ⟨s, replayed, finds⟩ := found 0 rfl
  cases open₀
  have visible : db.selectInside .new single table none = .ok [item 1 "a"] := rfl
  obtain rfl := Except.ok.inj (selected.symm.trans visible)
  have short := congrArg List.length operations
  rw [List.length_append, List.length_cons] at short
  have alone : earlier = [] := List.eq_nil_of_length_eq_zero (by
    have one : (Transaction.new.update table [(label, .text "b")] [(.uint32 1, item 1 "a")] :
      Transaction ℕ Empty).operations.length = 1 := rfl
    omega)
  subst alone
  cases replayed
  exact ⟨filters, finds⟩

end Items

namespace Nodes

/-- The parent of a node is not captured: the update of it by another call is
overwritten by the commit. -/
theorem commit_overwrites_update : ∃ ctx₁ ctx₂ ctx₃ ctx₄,
    (⟨single, fun _ => none, 0⟩ : Context ℕ Empty).call db 2 .begin = (.ok 0, ctx₁) ∧
    ctx₁.call db 2 (.update (some 0) table [(parent, .null)] none) = (.ok 1, ctx₂) ∧
    db.selectInside .new single table none = .ok [node 1 .null] ∧
    ctx₂.call db 2 (.update none table [(parent, .uint32 1)] none) = (.ok 1, ctx₃) ∧
    (∀ x ∈ (ctx₃.state "nodes").rows, x.2 ≠ table.columnValues (node 1 .null)) ∧
    ctx₃.call db 2 (.commit 0) = (.ok 0, ctx₄) ∧ ctx₄.state "nodes" = single "nodes" := by
  refine ⟨_, _, _, _, rfl, rfl, rfl, rfl, ?_, rfl, rfl⟩
  intro x member
  have member : x ∈ [((⟨0, 0⟩ : RecordAddress), node 1 (.uint32 1))] := member
  obtain rfl := List.mem_singleton.mp member
  intro same
  have parents := congrArg (findColumn "parent") same
  cases parents

end Nodes

end WasmDbms
