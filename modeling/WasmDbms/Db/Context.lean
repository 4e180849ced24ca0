import Mathlib.Logic.Relation
import WasmDbms.Db.Transaction

/-!
# Runs of a context

Calls outside of transactions and in open ones, in any order. The stored records keep
the columns of their tables, and an open transaction only gets more operations.
-/
namespace WasmDbms
open Result

variable {J F : Type} [LinearOrder J]

/-- The stored records have a property. -/
def DbState.Holds (schema : DatabaseSchema J) (P : TableDef J → Row J → Prop) (s : DbState J) : Prop :=
  ∀ t ∈ schema.tables, ∀ x ∈ (s t.name).rows, P t x.2

/-- The stored records have the columns of their tables. -/
def DbState.Typed (schema : DatabaseSchema J) (s : DbState J) : Prop :=
  ∀ t ∈ schema.tables, ∀ x ∈ (s t.name).rows, RowOf t.columns x.2

/-- A record that was stored: made of values the sanitizers returned. -/
def TableDef.Written (table : TableDef J) (row : Row J) : Prop :=
  ∃ values sanitized, table.sanitizeValues values = .ok sanitized ∧ table.fromValues sanitized = .ok row

omit [LinearOrder J] in
theorem TableDef.Written.row {table : TableDef J} {row : Row J} (written : table.Written row) :
    RowOf table.columns row := by
  obtain ⟨_, _, _, made⟩ := written
  exact fromValues_row made

namespace TransactionOp

def table : TransactionOp J F → TableDef J
  | insert t _ | delete t _ _ | update t _ _ => t

end TransactionOp

section Holds
variable {db : Database J F} {s s' : DbState J} {t : TableDef J} {P : TableDef J → Row J → Prop}

omit [LinearOrder J] in
theorem DbState.Holds.update {schema : DatabaseSchema J} (holds : s.Holds schema P) (listed : t ∈ schema.tables)
    {data : TableData J} (rows : ∀ x ∈ data.rows, P t x.2) :
    DbState.Holds schema P (Function.update s t.name data) := by
  intro t' listed' x member
  by_cases same : t'.name = t.name
  · obtain rfl := List.inj_on_of_nodup_map schema.names listed' listed same
    rw [Function.update_self] at member
    exact rows x member
  · rw [Function.update_of_ne same] at member
    exact holds t' listed' x member

theorem delete_holds (holds : s.Holds db.schema P) (listed : t ∈ db.schema.tables) {fuel : ℕ}
    {behaviour : DeleteBehavior} {filter : Option (Filter J F)} {n : ℕ}
    (run : db.delete fuel t behaviour filter s = .ok (n, s')) : s'.Holds db.schema P := by
  refine delete_rule (R := fun a b => a.Holds db.schema P → b.Holds db.schema P) (fun _ h => h)
    (fun _ _ _ first second h => second (first h)) ?_ listed run holds
  intro t listed address values s s' run holds
  obtain ⟨indexes, _, run⟩ := bind_eq_ok.mp run
  obtain rfl := pure_eq_ok.mp run
  exact holds.update listed fun x member => holds t listed x (List.mem_of_mem_filter member)

variable (stored : ∀ t row, TableDef.Written t row → P t row)
include stored

theorem insert_holds (holds : s.Holds db.schema P) (listed : t ∈ db.schema.tables) {values : Row J}
    (run : db.insert t values s = .ok s') : s'.Holds db.schema P := by
  obtain ⟨sanitized, cleaned, run⟩ := bind_eq_ok.mp run
  obtain ⟨_, _, run⟩ := bind_eq_ok.mp run
  obtain ⟨record, made, run⟩ := bind_eq_ok.mp run
  obtain ⟨indexes, _, run⟩ := bind_eq_ok.mp run
  obtain rfl := pure_eq_ok.mp run
  refine holds.update listed fun x member => ?_
  rcases List.mem_append.mp member with old | new
  · exact holds t listed x old
  · obtain rfl := List.mem_singleton.mp new
    exact stored t record ⟨values, sanitized, Failure.lift_eq_ok.mp cleaned, Failure.lift_eq_ok.mp made⟩

/-- A record that takes the place of another keeps the property of all. -/
theorem replaceRecord_holds (holds : s.Holds db.schema P) (listed : t ∈ db.schema.tables) {address : RecordAddress}
    {old new record : Row J} (written : TableDef.Written t record)
    (run : db.replaceRecord t address old new record s = .ok s') : s'.Holds db.schema P := by
  obtain ⟨indexes, _, run⟩ := bind_eq_ok.mp run
  obtain rfl := pure_eq_ok.mp run
  refine holds.update listed fun x member => ?_
  obtain ⟨y, there, rfl⟩ := List.mem_map.mp member
  split
  · exact stored t record written
  · exact holds t listed y there

theorem update_holds (holds : s.Holds db.schema P) (listed : t ∈ db.schema.tables) {fuel : ℕ} {patch : Row J}
    {filter : Option (Filter J F)} {n : ℕ} (run : db.update fuel t patch filter s = .ok (n, s')) :
    s'.Holds db.schema P := by
  refine update_rule (R := fun a b => a.Holds db.schema P → b.Holds db.schema P) (fun _ h => h)
    (fun _ _ _ first second h => second (first h)) ?_ listed run holds
  intro t listed address old patched new record s s' sanitized made run holds
  exact replaceRecord_holds stored holds listed ⟨patched, new, sanitized, made⟩ run

theorem replayOp_holds {op : TransactionOp J F} (holds : s.Holds db.schema P) (listed : op.table ∈ db.schema.tables)
    {fuel : ℕ} (run : db.replayOp fuel op s = .ok s') : s'.Holds db.schema P := by
  cases op with
  | insert t values =>
      obtain ⟨_, _, run⟩ := bind_eq_ok.mp run
      obtain ⟨record, _, run⟩ := bind_eq_ok.mp run
      exact insert_holds stored holds listed run
  | delete t behaviour filters =>
      obtain ⟨filter, _, run⟩ := bind_eq_ok.mp run
      cases filter with
      | none =>
          cases run
          exact holds
      | some filter =>
          obtain ⟨⟨n, s₁⟩, deleted, run⟩ := bind_eq_ok.mp run
          cases run
          exact delete_holds holds listed deleted
  | update t patch filters =>
      obtain ⟨filter, _, run⟩ := bind_eq_ok.mp run
      cases filter with
      | none =>
          cases run
          exact holds
      | some filter =>
          obtain ⟨patch, _, run⟩ := bind_eq_ok.mp run
          obtain ⟨⟨n, s₁⟩, updated, run⟩ := bind_eq_ok.mp run
          cases run
          exact update_holds stored holds listed updated

theorem replayAll_holds {ops : List (TransactionOp J F)} (holds : s.Holds db.schema P)
    (listed : ∀ op ∈ ops, op.table ∈ db.schema.tables) {fuel : ℕ}
    (run : db.replayAll fuel ops s = .ok s') : s'.Holds db.schema P := by
  induction ops generalizing s with
  | nil =>
      cases run
      exact holds
  | cons op rest ih =>
      rw [List.forall_mem_cons] at listed
      obtain ⟨s₁, first, run⟩ := bind_eq_ok.mp run
      exact ih (replayOp_holds stored holds listed.1 first) listed.2 run

end Holds

section Typed
variable {db : Database J F} {s s' : DbState J} {t : TableDef J} (typed : s.Typed db.schema)
include typed

theorem insert_typed (listed : t ∈ db.schema.tables) {values : Row J} (run : db.insert t values s = .ok s') :
    s'.Typed db.schema :=
  insert_holds (fun _ _ => TableDef.Written.row) typed listed run

theorem delete_typed (listed : t ∈ db.schema.tables) {fuel : ℕ} {behaviour : DeleteBehavior}
    {filter : Option (Filter J F)} {n : ℕ} (run : db.delete fuel t behaviour filter s = .ok (n, s')) :
    s'.Typed db.schema :=
  delete_holds typed listed run

theorem update_typed (listed : t ∈ db.schema.tables) {fuel : ℕ} {patch : Row J} {filter : Option (Filter J F)}
    {n : ℕ} (run : db.update fuel t patch filter s = .ok (n, s')) : s'.Typed db.schema :=
  update_holds (fun _ _ => TableDef.Written.row) typed listed run

theorem replayOp_typed {op : TransactionOp J F} (listed : op.table ∈ db.schema.tables) {fuel : ℕ}
    (run : db.replayOp fuel op s = .ok s') : s'.Typed db.schema :=
  replayOp_holds (fun _ _ => TableDef.Written.row) typed listed run

theorem replayAll_typed {ops : List (TransactionOp J F)} (listed : ∀ op ∈ ops, op.table ∈ db.schema.tables)
    {fuel : ℕ} (run : db.replayAll fuel ops s = .ok s') : s'.Typed db.schema :=
  replayAll_holds (fun _ _ => TableDef.Written.row) typed listed run

end Typed

/-- The operations before a position are replayed first. -/
theorem replayAll_append {db : Database J F} {fuel : ℕ} {earlier later : List (TransactionOp J F)} {s : DbState J} :
    db.replayAll fuel (earlier ++ later) s =
      (db.replayAll fuel earlier s >>= fun s => db.replayAll fuel later s) := by
  induction earlier generalizing s with
  | nil => rfl
  | cons op rest ih =>
      rw [List.cons_append, Database.replayAll, Database.replayAll]
      cases db.replayOp fuel op s with
      | error e => rfl
      | ok s₁ => exact ih

/-- The tables a call names are those of the database. -/
def Call.Listed (schema : DatabaseSchema J) : Call J F → Prop
  | .insert _ t _ | .update _ t _ _ | .delete _ t _ _ => t ∈ schema.tables
  | _ => True

namespace Context

/-- One call that returns, with a value or with an error. -/
def Step (db : Database J F) (ctx ctx' : Context J F) : Prop :=
  ∃ fuel c r, Call.Listed db.schema c ∧ ctx.call db fuel c = (r, ctx') ∧ r ≠ .error .diverges

abbrev Steps (db : Database J F) : Context J F → Context J F → Prop := Relation.ReflTransGen (Step db)

/-- What holds in every context of a run. -/
structure Sound (db : Database J F) (ctx : Context J F) : Prop where
  typed : ctx.state.Typed db.schema
  below : ∀ id, ctx.transactions id ≠ none → id < ctx.nextTransactionId
  listed : ∀ id tx, ctx.transactions id = some tx → ∀ op ∈ tx.operations, op.table ∈ db.schema.tables

/-- What a call does to a transaction: nothing, or it closes it, opens it, or adds an
operation to it. -/
inductive Moves (db : Database J F) (id next next' : ℕ) :
    Option (Transaction J F) → Option (Transaction J F) → Prop
  | stays (tx) : Moves db id next next' tx tx
  | closes (tx) : Moves db id next next' tx none
  | opens (tx) (fresh : id = next) (later : next < next') : Moves db id next next' tx (some .new)
  | grows (tx tx' : Transaction J F) (op) (listed : op.table ∈ db.schema.tables)
      (adds : tx'.operations = tx.operations ++ [op]) : Moves db id next next' (some tx) (some tx')

/-- What a call does to a context. -/
structure Effect (db : Database J F) (ctx ctx' : Context J F) : Prop where
  typed : ctx'.state.Typed db.schema
  next : ctx.nextTransactionId ≤ ctx'.nextTransactionId
  moves : ∀ id, Moves db id ctx.nextTransactionId ctx'.nextTransactionId (ctx.transactions id) (ctx'.transactions id)

section Calls
variable {db : Database J F} {ctx ctx' : Context J F}

omit [LinearOrder J] in
theorem transaction_ok {id : ℕ} {tx : Transaction J F} (found : ctx.transaction id = .ok tx) :
    ctx.transactions id = some tx := by
  unfold transaction at found
  split at found
  next tx' there =>
    cases found
    exact there
  next => cases found

theorem Effect.withState {s : DbState J} (typed : s.Typed db.schema) : Effect db ctx (ctx.withState s) :=
  ⟨typed, Nat.le_refl _, fun _ => .stays _⟩

theorem Effect.withTransaction (typed : ctx.state.Typed db.schema) {id : ℕ} {tx : Option (Transaction J F)}
    (move : Moves db id ctx.nextTransactionId ctx.nextTransactionId (ctx.transactions id) tx) :
    Effect db ctx (ctx.withTransaction id tx) := by
  refine ⟨typed, Nat.le_refl _, fun k => ?_⟩
  change Moves db k _ _ _ (Function.update ctx.transactions id tx k)
  by_cases here : k = id
  · subst here
    rw [Function.update_self]
    exact move
  · rw [Function.update_of_ne here]
    exact .stays _

/-- A call that adds an operation to an open transaction. -/
theorem Effect.stages (typed : ctx.state.Typed db.schema) {id : ℕ} {tx tx' : Transaction J F}
    (found : ctx.transaction id = .ok tx) (op : TransactionOp J F) (listed : op.table ∈ db.schema.tables)
    (adds : tx'.operations = tx.operations ++ [op]) : Effect db ctx (ctx.withTransaction id (some tx')) := by
  apply Effect.withTransaction typed
  rw [transaction_ok found]
  exact .grows tx tx' op listed adds

theorem perform_effect (sound : Sound db ctx) {fuel : ℕ} {c : Call J F} (listed : c.Listed db.schema) {n : ℕ}
    (run : ctx.perform db fuel c = .ok (n, ctx')) : Effect db ctx ctx' := by
  have typed := sound.typed
  cases c with
  | begin =>
      cases run
      refine ⟨typed, Nat.le_succ _, fun k => ?_⟩
      change Moves db k _ _ _ (Function.update ctx.transactions ctx.nextTransactionId (some .new) k)
      by_cases here : k = ctx.nextTransactionId
      · subst here
        rw [Function.update_self]
        exact .opens _ rfl (Nat.lt_succ_self _)
      · rw [Function.update_of_ne here]
        exact .stays _
  | insert id t values =>
      cases id with
      | none =>
          obtain ⟨s, inserted, run⟩ := bind_eq_ok.mp run
          cases run
          exact .withState (insert_typed typed listed inserted)
      | some id =>
          obtain ⟨sanitized, _, run⟩ := bind_eq_ok.mp run
          obtain ⟨tx, found, run⟩ := bind_eq_ok.mp run
          obtain ⟨_, _, run⟩ := bind_eq_ok.mp run
          obtain ⟨tx', staged, run⟩ := bind_eq_ok.mp run
          cases run
          obtain ⟨key, _, staged⟩ := bind_eq_ok.mp (Failure.lift_eq_ok.mp staged)
          cases staged
          exact .stages typed found (.insert t sanitized) listed rfl
  | update id t patch filter =>
      cases id with
      | none =>
          obtain ⟨⟨m, s⟩, updated, run⟩ := bind_eq_ok.mp run
          cases run
          exact .withState (update_typed typed listed updated)
      | some id =>
          obtain ⟨tx, found, run⟩ := bind_eq_ok.mp run
          obtain ⟨rows, _, run⟩ := bind_eq_ok.mp run
          cases run
          exact .stages typed found (.update t patch _) listed rfl
  | delete id t behaviour filter =>
      cases id with
      | none =>
          obtain ⟨⟨m, s⟩, deleted, run⟩ := bind_eq_ok.mp run
          cases run
          exact .withState (delete_typed typed listed deleted)
      | some id =>
          obtain ⟨tx, found, run⟩ := bind_eq_ok.mp run
          obtain ⟨rows, _, run⟩ := bind_eq_ok.mp run
          cases run
          exact .stages typed found (.delete t behaviour _) listed rfl
  | commit id =>
      obtain ⟨tx, found, run⟩ := bind_eq_ok.mp run
      obtain ⟨s, replayed, run⟩ := bind_eq_ok.mp run
      cases run
      have closed : Effect db ctx (ctx.withTransaction id none) := .withTransaction typed (.closes _)
      exact ⟨replayAll_typed typed (sound.listed id tx (transaction_ok found)) replayed, closed.next, closed.moves⟩
  | rollback id =>
      cases run
      exact .withTransaction typed (.closes _)

/-- A call that returns a value. -/
theorem perform_of_call {fuel : ℕ} {c : Call J F} {n : ℕ} (run : ctx.call db fuel c = (.ok n, ctx')) :
    ctx.perform db fuel c = .ok (n, ctx') := by
  unfold call at run
  split at run
  next =>
    cases run
    assumption
  next => split at run <;> cases run

section Commit
variable {fuel id : ℕ} {tx : Transaction J F} (here : ctx.transactions id = some tx)
include here

theorem perform_commit : ctx.perform db fuel (.commit id) = (db.replayAll fuel tx.operations ctx.state >>=
    fun s => pure (0, (ctx.withTransaction id none).withState s)) := by
  have found : ctx.transaction id = .ok tx := by rw [transaction, here]
  rw [perform, found]
  rfl

/-- A commit whose operations can be replayed. -/
theorem call_commit_ok {s : DbState J} (replayed : db.replayAll fuel tx.operations ctx.state = .ok s) :
    ctx.call db fuel (.commit id) = (.ok 0, (ctx.withTransaction id none).withState s) := by
  rw [call, perform_commit here, replayed]
  rfl

/-- A commit that fails closes its transaction. -/
theorem call_commit_error {e : Failure J} (replayed : db.replayAll fuel tx.operations ctx.state = .error e) :
    ctx.call db fuel (.commit id) = (.error e, ctx.withTransaction id none) := by
  rw [call, perform_commit here, replayed]
  rfl

end Commit

/-- A call that fails leaves the stored tables as they are. -/
theorem call_fails {fuel : ℕ} {c : Call J F} {e : Failure J} (run : ctx.call db fuel c = (.error e, ctx')) :
    ctx'.state = ctx.state ∧ (ctx' = ctx ∨ ∃ id, ctx' = ctx.withTransaction id none) := by
  unfold call at run
  split at run
  next => cases run
  next =>
    cases c with
    | commit id =>
        cases run
        exact ⟨rfl, .inr ⟨id, rfl⟩⟩
    | _ =>
        cases run
        exact ⟨rfl, .inl rfl⟩

theorem call_effect (sound : Sound db ctx) {fuel : ℕ} {c : Call J F} (listed : c.Listed db.schema)
    {r : Except (Failure J) ℕ} (run : ctx.call db fuel c = (r, ctx')) : Effect db ctx ctx' := by
  cases r with
  | error e =>
      obtain ⟨_, rfl | ⟨id, rfl⟩⟩ := call_fails run
      · exact ⟨sound.typed, Nat.le_refl _, fun _ => .stays _⟩
      · exact .withTransaction sound.typed (.closes _)
  | ok n => exact perform_effect sound listed (perform_of_call run)

/-- A step keeps the context sound. -/
theorem Effect.sound (sound : Sound db ctx) (effect : Effect db ctx ctx') : Sound db ctx' := by
  refine ⟨effect.typed, ?_, ?_⟩
  · intro id isOpen
    have move := effect.moves id
    generalize before : ctx.transactions id = tx, after : ctx'.transactions id = tx' at move
    cases move with
    | stays =>
        rw [after, ← before] at isOpen
        exact Nat.lt_of_lt_of_le (sound.below id isOpen) effect.next
    | closes => exact absurd after isOpen
    | opens _ fresh later => exact fresh ▸ later
    | grows => exact Nat.lt_of_lt_of_le (sound.below id (by rw [before]; exact nofun)) effect.next
  · intro id tx isOpen op member
    have move := effect.moves id
    generalize before : ctx.transactions id = old at move
    rw [isOpen] at move
    cases move with
    | stays => exact sound.listed id tx before op member
    | opens => cases member
    | grows old _ new listed adds =>
        rw [adds] at member
        rcases List.mem_append.mp member with earlier | added
        · exact sound.listed id old before op earlier
        · obtain rfl := List.mem_singleton.mp added
          exact listed

/-- Every context of a run is sound. -/
theorem Steps.sound (sound : Sound db ctx) (steps : Steps db ctx ctx') : Sound db ctx' := by
  induction steps with
  | refl => exact sound
  | tail _ step ih =>
      obtain ⟨_, _, _, listed, run, _⟩ := step
      exact (call_effect ih listed run).sound ih

section Holds
variable {P : TableDef J → Row J → Prop} (stored : ∀ t row, TableDef.Written t row → P t row)
include stored

theorem perform_holds (sound : Sound db ctx) (holds : ctx.state.Holds db.schema P) {fuel : ℕ} {c : Call J F}
    (listed : c.Listed db.schema) {n : ℕ} (run : ctx.perform db fuel c = .ok (n, ctx')) :
    ctx'.state.Holds db.schema P := by
  cases c with
  | begin =>
      cases run
      exact holds
  | insert id t values =>
      cases id with
      | none =>
          obtain ⟨s, inserted, run⟩ := bind_eq_ok.mp run
          cases run
          exact insert_holds stored holds listed inserted
      | some id =>
          obtain ⟨sanitized, _, run⟩ := bind_eq_ok.mp run
          obtain ⟨tx, _, run⟩ := bind_eq_ok.mp run
          obtain ⟨_, _, run⟩ := bind_eq_ok.mp run
          obtain ⟨tx', _, run⟩ := bind_eq_ok.mp run
          cases run
          exact holds
  | update id t patch filter =>
      cases id with
      | none =>
          obtain ⟨⟨m, s⟩, updated, run⟩ := bind_eq_ok.mp run
          cases run
          exact update_holds stored holds listed updated
      | some id =>
          obtain ⟨tx, _, run⟩ := bind_eq_ok.mp run
          obtain ⟨rows, _, run⟩ := bind_eq_ok.mp run
          cases run
          exact holds
  | delete id t behaviour filter =>
      cases id with
      | none =>
          obtain ⟨⟨m, s⟩, deleted, run⟩ := bind_eq_ok.mp run
          cases run
          exact delete_holds holds listed deleted
      | some id =>
          obtain ⟨tx, _, run⟩ := bind_eq_ok.mp run
          obtain ⟨rows, _, run⟩ := bind_eq_ok.mp run
          cases run
          exact holds
  | commit id =>
      obtain ⟨tx, found, run⟩ := bind_eq_ok.mp run
      obtain ⟨s, replayed, run⟩ := bind_eq_ok.mp run
      cases run
      exact replayAll_holds stored holds (sound.listed id tx (transaction_ok found)) replayed
  | rollback id =>
      cases run
      exact holds

/-- What holds of every record that is written holds of every record that a run stores. -/
theorem Steps.holds (sound : Sound db ctx) (holds : ctx.state.Holds db.schema P) (steps : Steps db ctx ctx') :
    ctx'.state.Holds db.schema P := by
  induction steps with
  | refl => exact holds
  | tail path step ih =>
      obtain ⟨fuel, c, r, listed, run, _⟩ := step
      cases r with
      | error e =>
          rw [(call_fails run).1]
          exact ih
      | ok n => exact perform_holds stored (Steps.sound sound path) ih listed (perform_of_call run)

end Holds

/-- A transaction that is still open has its operations, and those added since. -/
theorem Steps.operations (sound : Sound db ctx) {id : ℕ} {tx : Transaction J F}
    (here : ctx.transactions id = some tx) (steps : Steps db ctx ctx') {tx' : Transaction J F}
    (there : ctx'.transactions id = some tx') : ∃ later, tx'.operations = tx.operations ++ later := by
  have bounded : id < ctx.nextTransactionId := sound.below id (by rw [here]; exact nofun)
  have both : id < ctx'.nextTransactionId ∧ ∀ tx', ctx'.transactions id = some tx' →
      ∃ later, tx'.operations = tx.operations ++ later := by
    clear there
    induction steps with
    | refl =>
        refine ⟨bounded, fun tx' there => ⟨[], ?_⟩⟩
        rw [here] at there
        cases there
        rw [List.append_nil]
    | tail path step ih =>
        obtain ⟨_, _, _, listed, run, _⟩ := step
        have effect := call_effect (Steps.sound sound path) listed run
        refine ⟨Nat.lt_of_lt_of_le ih.1 effect.next, fun tx' there => ?_⟩
        have move := effect.moves id
        generalize before : Context.transactions _ id = old at move
        rw [there] at move
        cases move with
        | stays => exact ih.2 tx' before
        | opens _ fresh => exact absurd fresh (Nat.ne_of_lt ih.1)
        | grows old _ op _ adds =>
            obtain ⟨later, earlier⟩ := ih.2 old before
            exact ⟨later ++ [op], by rw [adds, earlier, List.append_assoc]⟩
  exact both.2 tx' there

end Calls
end Context
end WasmDbms
