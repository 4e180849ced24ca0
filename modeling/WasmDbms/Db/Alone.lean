import WasmDbms.Db.Conflict
import WasmDbms.Db.Replay

/-!
# A transaction that runs alone

From the begin of a transaction to its commit no other call writes a table. What the
transaction shows is what its commit stores, and each captured row is found again, as
long as its calls meet the conditions under which one operation does.
-/
namespace WasmDbms
open Result

variable {J F : Type} [LinearOrder J]

/-- The values of a call have the types of the columns. -/
def Call.WellTyped : Call J F → Prop
  | .insert _ t values => Complete t values
  | .update _ t patch _ => Database.typedPatch t (patch.map fun entry => (entry.1.name, entry.2)) = .ok patch
  | _ => True

/-- A call that stages an operation in the transaction. -/
def Call.Within (id : ℕ) : Call J F → Prop
  | .insert k _ _ | .update k _ _ _ | .delete k _ _ _ => k = some id
  | _ => False

/-- A call that writes no table and is not in the transaction. -/
def Call.Elsewhere (id : ℕ) : Call J F → Prop
  | .begin => True
  | .insert (some k) _ _ | .update (some k) _ _ _ | .delete (some k) _ _ _ | .rollback k => k ≠ id
  | _ => False

/-- The sanitizers leave what the call stages as it is, and no cascade and no rewriting
of references leads out of the rows it captures. -/
def Call.Faithful (db : Database J F) (tx : Transaction J F) (s : DbState J) : Call J F → Prop
  | .insert _ t values => ∀ sanitized, t.sanitizeValues values = .ok sanitized →
      (∀ entry ∈ sanitized, entry.1.Admits entry.2) ∧ t.Settled (t.columnValues sanitized)
  | .update _ t patch filter => ∀ rows, db.selectInside tx s t filter = .ok rows →
      (∀ row ∈ rows, t.Settled (patchValues patch (t.columnValues row))) ∧ db.ReachesNone (tx.view s) t patch rows
  | .delete _ t behaviour filter => behaviour = .cascade → ∀ rows, db.selectInside tx s t filter = .ok rows →
      Enclosed db.schema (tx.view s) t rows
  | _ => True

namespace TransactionOp

/-- Each captured row is found once, and the check of them passes. -/
def Found (db : Database J F) (s : DbState J) : TransactionOp J F → Prop
  | .insert _ _ => True
  | .update t _ filters | .delete t _ filters =>
      (∀ filter ∈ filters, ∃ row, db.select s.view t (some filter) = .ok [row]) ∧
        ∃ whole, db.validatedTransactionFilter t filters s = .ok whole

end TransactionOp

namespace Context

/-- A call between the begin of a transaction and its commit. -/
def AloneStep (db : Database J F) (id : ℕ) (ctx ctx' : Context J F) : Prop :=
  ∃ fuel c r, Call.Listed db.schema c ∧ c.WellTyped ∧ ctx.call db fuel c = (r, ctx') ∧
    (c.Elsewhere id ∨ c.Within id ∧ ∀ tx, ctx.transactions id = some tx → c.Faithful db tx ctx.state)

abbrev Alone (db : Database J F) (id : ℕ) : Context J F → Context J F → Prop :=
  Relation.ReflTransGen (AloneStep db id)

end Context

/-- What holds of a transaction that runs alone, on these stored tables. -/
structure Staged (db : Database J F) (s : DbState J) (tx : Transaction J F) : Prop where
  changes : ∀ t ∈ db.schema.tables, Changes t (tx.overlay t.name)
  replays : ∀ fuel s', db.replayAll fuel tx.operations s = .ok s' →
    s'.Clean db.schema ∧ Mirrors db.schema (tx.view s) s'
  finds : ∀ earlier op later, tx.operations = earlier ++ op :: later →
    ∀ fuel s', db.replayAll fuel earlier s = .ok s' → op.Found db s'

section Staged
variable {db : Database J F} {s : DbState J} {tx : Transaction J F} {t : TableDef J}

theorem Staged.new (clean : s.Clean db.schema) : Staged db s .new := by
  refine ⟨fun _ _ => nofun, ?_, ?_⟩
  · intro fuel s' run
    cases run
    refine ⟨clean, ⟨?_, ?_⟩⟩ <;> intro t listed
    all_goals
      have record : ∀ row ∈ (s t.name).rows.map Prod.snd, Complete t row := by
        intro row member
        obtain ⟨x, there, rfl⟩ := List.mem_map.mp member
        exact (clean.typed t listed x there).complete
      have same : Transaction.view (F := F) .new s t.name = s.view t.name := overlayRows_nil record
      rw [same]
    · exact clean.typed.mirrors.complete t listed
    · exact clean.typed.mirrors.rows t listed
  · intro earlier op later empty
    cases earlier <;> cases empty

/-- What the transaction shows after some more changes. -/
theorem view_record (typed : s.Typed db.schema) (listed : t ∈ db.schema.tables) (changes : Changes t (tx.overlay t.name))
    {new : List (Operation J)} {op : TransactionOp J F} :
    (tx.record t new op).view s = Function.update (tx.view s) t.name (overlayRows new (tx.view s t.name)) := by
  funext name
  have record : ∀ row ∈ (s t.name).rows.map Prod.snd, Complete t row := by
    intro row member
    obtain ⟨x, there, rfl⟩ := List.mem_map.mp member
    exact (typed t listed x there).complete
  have view : (tx.record t new op).view s name =
      overlayRows (Function.update tx.overlay t.name (tx.overlay t.name ++ new) name) ((s name).rows.map Prod.snd) := rfl
  rw [view]
  by_cases here : name = t.name
  · subst here
    rw [Function.update_self, Function.update_self]
    exact overlayRows_append record changes
  · rw [Function.update_of_ne here, Function.update_of_ne here]
    rfl

/-- One more operation. -/
theorem Staged.record (typed : s.Typed db.schema) (staged : Staged db s tx) (listed : t ∈ db.schema.tables)
    {new : List (Operation J)} (changes : Changes t new) {op : TransactionOp J F}
    (step : ∀ fuel s₁, s₁.Clean db.schema → Mirrors db.schema (tx.view s) s₁ → op.Found db s₁ ∧
      ∀ s₂, db.replayOp fuel op s₁ = .ok s₂ → s₂.Clean db.schema ∧
        Mirrors db.schema (Function.update (tx.view s) t.name (overlayRows new (tx.view s t.name))) s₂) :
    Staged db s (tx.record t new op) := by
  refine ⟨?_, ?_, ?_⟩
  · intro t' listed'
    have overlay : (tx.record t new op).overlay = Function.update tx.overlay t.name (tx.overlay t.name ++ new) := rfl
    rw [overlay]
    by_cases here : t'.name = t.name
    · obtain rfl := List.inj_on_of_nodup_map db.schema.names listed' listed here
      rw [Function.update_self]
      exact List.forall_mem_append.mpr ⟨staged.changes t' listed, changes⟩
    · rw [Function.update_of_ne here]
      exact staged.changes t' listed'
  · intro fuel s' run
    have split : db.replayAll fuel (tx.operations ++ [op]) s = .ok s' := run
    rw [replayAll_append] at split
    obtain ⟨s₁, earlier, last⟩ := bind_eq_ok.mp split
    obtain ⟨s₂, applied, done⟩ := bind_eq_ok.mp last
    cases done
    obtain ⟨clean, mirrors⟩ := staged.replays fuel s₁ earlier
    rw [view_record typed listed (staged.changes t listed)]
    exact (step fuel s₁ clean mirrors).2 s' applied
  · intro earlier op' later operations fuel s' run
    have operations : tx.operations ++ [op] = earlier ++ op' :: later := operations
    rcases later.eq_nil_or_concat' with rfl | ⟨rest, last, rfl⟩
    · obtain ⟨rfl, same⟩ := List.append_inj' operations rfl
      cases same
      obtain ⟨clean, mirrors⟩ := staged.replays fuel s' run
      exact (step fuel s' clean mirrors).1
    · rw [← List.cons_append, ← List.append_assoc] at operations
      exact staged.finds earlier op' rest (List.append_inj' operations rfl).1 fuel s' run

/-! ## The calls -/

theorem selectMatching_subset {filter : Option (Filter J F)} {rows found : List (Row J)}
    (run : db.selectMatching filter rows = .ok found) : found ⊆ rows := by
  induction rows generalizing found with
  | nil =>
      cases run
      exact List.Subset.refl _
  | cons row rest ih =>
      obtain ⟨keep, _, run⟩ := bind_eq_ok.mp run
      obtain ⟨others, later, run⟩ := bind_eq_ok.mp run
      cases run
      split
      · exact List.cons_subset_cons _ (ih later)
      · exact List.subset_cons_of_subset _ (ih later)

/-- The rows a query returns in a transaction are shown. -/
theorem selectInside_shown {filter : Option (Filter J F)} {rows : List (Row J)}
    (run : db.selectInside tx s t filter = .ok rows) : ∀ row ∈ rows, row ∈ tx.view s t.name :=
  fun row member => db.visitRows t filter _ _ row (selectMatching_subset run member)

/-- The check of captured rows that are shown passes. -/
theorem Mirrors.found {view : View J} (listed : t ∈ db.schema.tables) (clean : s.Clean db.schema)
    (mirrors : Mirrors db.schema view s) {rows : List (Row J)} {pairs : List (Value J × Row J)}
    (shown : ∀ row ∈ rows, row ∈ view t.name) (captured : Captures t rows pairs) :
    (∀ filter ∈ Database.capturedFilters t pairs, ∃ row, db.select s.view t (some filter) = .ok [row]) ∧
      ∃ whole, db.validatedTransactionFilter t (Database.capturedFilters t pairs) s = .ok whole := by
  constructor
  · intro filter member
    obtain ⟨row, only⟩ := mirrors.finds_once clean listed shown captured db member
    exact ⟨row, by rw [Database.select, selectMatching_eq fun _ _ => captured.total member, only]⟩
  · obtain ⟨whole, valid, _⟩ := mirrors.validated clean listed shown captured db
    exact ⟨whole, valid⟩

variable (clean : s.Clean db.schema) (staged : Staged db s tx) (listed : t ∈ db.schema.tables)
include clean staged listed

/-- A staged insertion. -/
theorem Staged.insert {values sanitized : Row J} (typed : Complete t values)
    (made : t.sanitizeValues values = .ok sanitized) (admits : ∀ entry ∈ sanitized, entry.1.Admits entry.2)
    (settled : t.Settled (t.columnValues sanitized)) {tx' : Transaction J F}
    (run : tx.insert t sanitized = .ok tx') : Staged db s tx' := by
  have complete : Complete t sanitized := ⟨by rw [sanitizeValues_columns made]; exact typed.columns, admits⟩
  obtain ⟨key, found, run⟩ := bind_eq_ok.mp run
  cases run
  have keyed : primaryKeyOf sanitized = some key := by
    rw [complete.primaryKeyOf_eq]
    unfold TableDef.keyOf at found
    split at found
    next key' there =>
      cases found
      exact there
    next => cases found
  refine staged.record clean.typed listed ?_ fun fuel s₁ clean₁ mirrors => ⟨trivial, fun s₂ applied => ?_⟩
  · exact List.forall_mem_singleton.mpr ⟨complete, keyed⟩
  · obtain ⟨_, _, inserted⟩ := bind_eq_ok.mp applied
    exact insert_mirrors listed clean₁ mirrors complete settled keyed inserted

variable {filter : Option (Filter J F)} {rows : List (Row J)} {pairs : List (Value J × Row J)}
variable (selected : db.selectInside tx s t filter = .ok rows) (captured : Captures t rows pairs)
include selected captured

/-- A staged update. -/
theorem Staged.update {patch : Row J}
    (typed : Database.typedPatch t (patch.map fun entry => (entry.1.name, entry.2)) = .ok patch)
    (settled : ∀ row ∈ rows, t.Settled (patchValues patch (t.columnValues row)))
    (unreached : db.ReachesNone (tx.view s) t patch rows) : Staged db s (tx.update t patch pairs) := by
  have shown := selectInside_shown selected
  refine staged.record clean.typed listed ?_ fun fuel s₁ clean₁ mirrors =>
    ⟨mirrors.found listed clean₁ shown captured, fun s₂ applied => ?_⟩
  · intro op member
    obtain ⟨pair, _, rfl⟩ := List.mem_map.mp member
    exact typedPatch_patches typed
  · exact update_mirrors listed clean₁ mirrors shown captured typed settled unreached applied

/-- A staged deletion. -/
theorem Staged.delete {behaviour : DeleteBehavior}
    (enclosed : behaviour = .cascade → Enclosed db.schema (tx.view s) t rows) :
    Staged db s (tx.delete t behaviour pairs) := by
  have shown := selectInside_shown selected
  refine staged.record clean.typed listed ?_ fun fuel s₁ clean₁ mirrors =>
    ⟨mirrors.found listed clean₁ shown captured, fun s₂ applied => ?_⟩
  · intro op member
    obtain ⟨pair, _, rfl⟩ := List.mem_map.mp member
    trivial
  · exact delete_mirrors listed clean₁ mirrors shown captured enclosed applied

end Staged

namespace Context

section Alone
variable {db : Database J F} {ctx ctx' : Context J F} {id : ℕ}

/-- What holds in every context between the begin and the commit. -/
structure Waiting (db : Database J F) (s : DbState J) (id : ℕ) (ctx : Context J F) : Prop where
  state : ctx.state = s
  below : id < ctx.nextTransactionId
  staged : ∀ tx, ctx.transactions id = some tx → Staged db s tx

theorem Waiting.withTransaction {s : DbState J} (waiting : Waiting db s id ctx) {k : ℕ}
    {tx' : Option (Transaction J F)} (own : k = id → ∀ tx, tx' = some tx → Staged db s tx) :
    Waiting db s id (ctx.withTransaction k tx') := by
  refine ⟨waiting.state, waiting.below, fun tx isOpen => ?_⟩
  have isOpen : Function.update ctx.transactions k tx' id = some tx := isOpen
  by_cases here : id = k
  · subst here
    rw [Function.update_self] at isOpen
    exact own rfl tx isOpen
  · rw [Function.update_of_ne here] at isOpen
    exact waiting.staged tx isOpen

theorem Waiting.elsewhere {s : DbState J} (waiting : Waiting db s id ctx) {fuel n : ℕ} {c : Call J F}
    (elsewhere : c.Elsewhere id) (run : ctx.perform db fuel c = .ok (n, ctx')) : Waiting db s id ctx' := by
  cases c with
  | begin =>
      cases run
      have opened : Waiting db s id (ctx.withTransaction ctx.nextTransactionId (some .new)) :=
        waiting.withTransaction fun same => absurd same (Nat.ne_of_gt waiting.below)
      exact ⟨opened.state, Nat.lt_succ_of_lt waiting.below, opened.staged⟩
  | insert k t values =>
      cases k with
      | none => cases elsewhere
      | some k =>
          obtain ⟨_, _, run⟩ := bind_eq_ok.mp run
          obtain ⟨_, _, run⟩ := bind_eq_ok.mp run
          obtain ⟨_, _, run⟩ := bind_eq_ok.mp run
          obtain ⟨_, _, run⟩ := bind_eq_ok.mp run
          cases run
          exact waiting.withTransaction fun same => absurd same elsewhere
  | update k t patch filter =>
      cases k with
      | none => cases elsewhere
      | some k =>
          obtain ⟨_, _, run⟩ := bind_eq_ok.mp run
          obtain ⟨_, _, run⟩ := bind_eq_ok.mp run
          cases run
          exact waiting.withTransaction fun same => absurd same elsewhere
  | delete k t behaviour filter =>
      cases k with
      | none => cases elsewhere
      | some k =>
          obtain ⟨_, _, run⟩ := bind_eq_ok.mp run
          obtain ⟨_, _, run⟩ := bind_eq_ok.mp run
          cases run
          exact waiting.withTransaction fun same => absurd same elsewhere
  | commit k => cases elsewhere
  | rollback k =>
      cases run
      exact waiting.withTransaction fun same => absurd same elsewhere

theorem Waiting.within {s : DbState J} (clean : s.Clean db.schema) (waiting : Waiting db s id ctx) {fuel n : ℕ}
    {c : Call J F} (listed : c.Listed db.schema) (typed : c.WellTyped) (within : c.Within id)
    (faithful : ∀ tx, ctx.transactions id = some tx → c.Faithful db tx ctx.state)
    (run : ctx.perform db fuel c = .ok (n, ctx')) : Waiting db s id ctx' := by
  obtain rfl := waiting.state
  cases c with
  | begin | commit | rollback => cases within
  | insert k t values =>
      obtain rfl : k = some id := within
      obtain ⟨sanitized, made, run⟩ := bind_eq_ok.mp run
      obtain ⟨tx, found, run⟩ := bind_eq_ok.mp run
      obtain ⟨_, _, run⟩ := bind_eq_ok.mp run
      obtain ⟨tx', inserted, run⟩ := bind_eq_ok.mp run
      cases run
      have isOpen := transaction_ok found
      obtain ⟨admits, settled⟩ := faithful tx isOpen sanitized (Failure.lift_eq_ok.mp made)
      have staged := (waiting.staged tx isOpen).insert clean listed typed (Failure.lift_eq_ok.mp made) admits settled
        (Failure.lift_eq_ok.mp inserted)
      exact waiting.withTransaction fun _ _ same => Option.some.inj same ▸ staged
  | update k t patch filter =>
      obtain rfl : k = some id := within
      obtain ⟨tx, found, run⟩ := bind_eq_ok.mp run
      obtain ⟨pairs, existing, run⟩ := bind_eq_ok.mp run
      cases run
      have isOpen := transaction_ok found
      obtain ⟨rows, selected, captured⟩ := existingRowsForFilter_ok existing
      obtain ⟨settled, unreached⟩ := faithful tx isOpen rows selected
      have staged := (waiting.staged tx isOpen).update clean listed selected captured typed settled unreached
      exact waiting.withTransaction fun _ _ same => Option.some.inj same ▸ staged
  | delete k t behaviour filter =>
      obtain rfl : k = some id := within
      obtain ⟨tx, found, run⟩ := bind_eq_ok.mp run
      obtain ⟨pairs, existing, run⟩ := bind_eq_ok.mp run
      cases run
      have isOpen := transaction_ok found
      obtain ⟨rows, selected, captured⟩ := existingRowsForFilter_ok existing
      have staged := (waiting.staged tx isOpen).delete clean listed selected captured
        fun cascade => faithful tx isOpen cascade rows selected
      exact waiting.withTransaction fun _ _ same => Option.some.inj same ▸ staged

/-- A call between the begin and the commit. -/
theorem Waiting.step {s : DbState J} (clean : s.Clean db.schema) (waiting : Waiting db s id ctx)
    (step : AloneStep db id ctx ctx') : Waiting db s id ctx' := by
  obtain ⟨fuel, c, r, listed, typed, run, which⟩ := step
  cases r with
  | error e =>
      obtain ⟨_, rfl | ⟨k, rfl⟩⟩ := call_fails run
      · exact waiting
      · exact waiting.withTransaction fun _ _ => nofun
  | ok n =>
      have performed := perform_of_call run
      rcases which with elsewhere | ⟨within, faithful⟩
      · exact waiting.elsewhere elsewhere performed
      · exact waiting.within clean listed typed within faithful performed

/-- All calls between the begin and the commit. -/
theorem Waiting.alone {s : DbState J} (clean : s.Clean db.schema) (waiting : Waiting db s id ctx)
    (alone : Alone db id ctx ctx') : Waiting db s id ctx' := by
  induction alone with
  | refl => exact waiting
  | tail _ step ih => exact ih.step clean step

theorem waiting_of_begin {fuel : ℕ} (clean : ctx.state.Clean db.schema)
    (begins : ctx.call db fuel .begin = (.ok id, ctx')) : Waiting db ctx.state id ctx' := by
  cases perform_of_call begins
  refine ⟨rfl, Nat.lt_succ_self _, fun tx isOpen => ?_⟩
  have isOpen : Function.update ctx.transactions ctx.nextTransactionId (some .new) ctx.nextTransactionId = some tx :=
    isOpen
  rw [Function.update_self] at isOpen
  cases isOpen
  exact .new clean

end Alone

section Commit
variable {db : Database J F} {ctx ctx₀ ctx₁ ctx₂ : Context J F} {fuel fuel' id n : ℕ} {tx : Transaction J F}

/-- What a query without a filter returns in the transaction is what it shows. -/
theorem selectInside_all {s s' : DbState J} {t : TableDef J} (listed : t ∈ db.schema.tables)
    (clean : s'.Clean db.schema) (mirrors : Mirrors db.schema (tx.view s) s') :
    ∃ rows, db.selectInside tx s t none = .ok rows ∧ rows.Perm (tx.view s t.name) := by
  have keys : ((tx.view s t.name).map fun row => findColumn t.primaryKey row).Nodup := by
    have stored := (mirrors.rows t listed).map fun row => findColumn t.primaryKey row
    rw [List.map_map] at stored
    have same : (tx.view s t.name).map ((fun row => findColumn t.primaryKey row) ∘ t.columnValues) =
        (tx.view s t.name).map fun row => findColumn t.primaryKey row :=
      List.map_congr_left fun row member => (mirrors.complete t listed row member).findColumn_columnValues _
    rw [← same]
    refine stored.nodup_iff.mp ?_
    rw [DbState.view, List.map_map]
    exact clean.keys t listed
  obtain ⟨visits, all⟩ := db.visitAll t none (s t.name).rows (tx.overlay t.name) keys
  refine ⟨_, selectMatching_none, visits.antisymm ?_⟩
  exact List.subperm_of_subset (.of_map _ keys) fun row member => all row member fun _ given => by cases given

/-- A transaction that runs alone, on clean tables and with calls whose values the
sanitizers leave as they are and whose cascades and rewritten references stay within the
rows they capture: the commit stores the rows that a query in the transaction returns. -/
theorem commit_stores_view (clean : ctx.state.Clean db.schema) (begins : ctx.call db fuel .begin = (.ok id, ctx₀))
    (alone : Alone db id ctx₀ ctx₁) (here : ctx₁.transactions id = some tx)
    (commit : ctx₁.call db fuel' (.commit id) = (.ok n, ctx₂)) {t : TableDef J} (listed : t ∈ db.schema.tables) :
    ∃ rows, db.selectInside tx ctx₁.state t none = .ok rows ∧
      (ctx₂.state.view t.name).Perm (rows.map t.columnValues) := by
  have waiting := (waiting_of_begin clean begins).alone clean alone
  cases replayed : db.replayAll fuel' tx.operations ctx₁.state with
  | error e =>
      rw [call_commit_error here replayed] at commit
      cases commit
  | ok s =>
      rw [call_commit_ok here replayed] at commit
      cases commit
      rw [waiting.state] at replayed
      obtain ⟨clean', mirrors⟩ := (waiting.staged tx here).replays fuel' s replayed
      obtain ⟨rows, seen, shows⟩ := selectInside_all listed clean' mirrors
      refine ⟨rows, by rw [waiting.state, seen], ?_⟩
      exact (mirrors.rows t listed).trans (shows.map _).symm

/-- The first operation that fails. -/
theorem replayAll_fails {ops : List (TransactionOp J F)} {s : DbState J} {e : Failure J}
    (run : db.replayAll fuel ops s = .error e) : ∃ earlier op later s', ops = earlier ++ op :: later ∧
      db.replayAll fuel earlier s = .ok s' ∧ db.replayOp fuel op s' = .error e := by
  induction ops generalizing s with
  | nil => cases run
  | cons op rest ih =>
      rcases bind_eq_error.mp run with here | ⟨s₁, first, later⟩
      · exact ⟨[], op, rest, s, rfl, rfl, here⟩
      · obtain ⟨earlier, op', after, s', rfl, replayed, fails⟩ := ih later
        refine ⟨op :: earlier, op', after, s', rfl, ?_, fails⟩
        rw [Database.replayAll, first]
        exact replayed

/-- Under the same conditions each row version that was captured is found exactly once
when its operation is replayed, so that a commit that fails does so after this check. -/
theorem commit_without_conflict (clean : ctx.state.Clean db.schema)
    (begins : ctx.call db fuel .begin = (.ok id, ctx₀)) (alone : Alone db id ctx₀ ctx₁)
    (here : ctx₁.transactions id = some tx) {r : Except (Failure J) ℕ}
    (commit : ctx₁.call db fuel' (.commit id) = (r, ctx₂)) :
    (∀ earlier op later, tx.operations = earlier ++ op :: later → ∀ s,
      db.replayAll fuel' earlier ctx₁.state = .ok s → op.Found db s) ∧
    ∀ e, r = .error e → ∃ earlier op later s, tx.operations = earlier ++ op :: later ∧
      db.replayAll fuel' earlier ctx₁.state = .ok s ∧ op.Found db s ∧ db.replayOp fuel' op s = .error e := by
  have waiting := (waiting_of_begin clean begins).alone clean alone
  have finds : ∀ earlier op later, tx.operations = earlier ++ op :: later → ∀ s,
      db.replayAll fuel' earlier ctx₁.state = .ok s → op.Found db s := by
    intro earlier op later operations s run
    rw [waiting.state] at run
    exact (waiting.staged tx here).finds earlier op later operations fuel' s run
  refine ⟨finds, fun e fails => ?_⟩
  cases replayed : db.replayAll fuel' tx.operations ctx₁.state with
  | ok s =>
      rw [call_commit_ok here replayed] at commit
      cases commit
      cases fails
  | error e' =>
      rw [call_commit_error here replayed] at commit
      cases commit
      cases fails
      obtain ⟨earlier, op, later, s, operations, run, stops⟩ := replayAll_fails replayed
      exact ⟨earlier, op, later, s, operations, run, finds earlier op later operations s run, stops⟩

end Commit
end Context

/-! ## A table with labels -/

namespace Items

theorem single_clean : single.Clean schema := by
  refine ⟨single_typed, ?_, ?_⟩ <;> intro t listed <;> obtain rfl := List.mem_singleton.mp listed
  · exact List.nodup_singleton _
  · exact List.nodup_singleton _

theorem begins : (⟨single, fun _ => none, 0⟩ : Context ℕ Empty).call db 1 .begin = (.ok 0, opened) := rfl

/-- The call that renames the item. -/
theorem alone_renamed : Context.Alone db 0 opened renamed := by
  refine .single ⟨1, .update (some 0) table [(label, .text "b")] none, .ok 1, List.mem_singleton.mpr rfl, rfl, rfl,
    .inr ⟨rfl, fun tx isOpen rows selected => ?_⟩⟩
  cases isOpen
  have visible : db.selectInside .new single table none = .ok [item 1 "a"] := rfl
  obtain rfl := Except.ok.inj (selected.symm.trans visible)
  constructor
  · intro row member
    obtain rfl := List.mem_singleton.mp member
    rfl
  · have free : ∀ row new, db.rewrites table row new = .ok [] := fun _ _ => rfl
    have none_ : ∀ row name other, db.Unreached table [(label, .text "b")] row name other := by
      intro row name other changes found r member
      rw [free] at found
      cases found
      cases member
    exact fun row _ => ⟨fun _ _ _ _ _ => none_ _ _ _, fun _ _ => none_ _ _ _⟩

/-- The label that is shown is stored. -/
theorem commit_stores_label : ∃ tx rows, renamed.transactions 0 = some tx ∧
    db.selectInside tx single table none = .ok rows ∧
    ((renamed.call db 2 (.commit 0)).2.state.view "items").Perm (rows.map table.columnValues) := by
  have commit : renamed.call db 2 (.commit 0) = (.ok 0, (renamed.call db 2 (.commit 0)).2) := rfl
  obtain ⟨rows, seen, stored⟩ := Context.commit_stores_view single_clean begins alone_renamed rfl commit
    (List.mem_singleton.mpr rfl)
  exact ⟨_, rows, rfl, seen, stored⟩

/-- The item is found again. -/
theorem commit_finds_item : TransactionOp.Found db single
    (.update table [(label, .text "b")] [table.capturedRowFilter (.uint32 1) (item 1 "a")]) :=
  (Context.commit_without_conflict single_clean begins alone_renamed rfl
    (rfl : renamed.call db 2 (.commit 0) = (.ok 0, (renamed.call db 2 (.commit 0)).2))).1 [] _ [] rfl single rfl

/-- `TrimSanitizer`. -/
def trim : Value ℕ → Value ℕ
  | .text s => .text (String.ofList
      ((s.toList.dropWhile Char.isWhitespace).reverse.dropWhile Char.isWhitespace).reverse)
  | v => v

/-- Items whose labels are trimmed. -/
def trimmed : TableDef ℕ :=
  { table with sanitizer := fun name => if name = "label" then some fun v => .ok (trim v) else none }

def trimming : Database ℕ Empty :=
  .scanning { schema with
    tables := [trimmed]
    names := List.nodup_singleton _
    local_ := fun t listed c column => by
      obtain rfl := List.mem_singleton.mp listed
      exact schema.local_ table (List.mem_singleton.mpr rfl) c column
    foreign := fun t listed c column fk key => by
      obtain rfl := List.mem_singleton.mp listed
      rw [plain c column] at key
      cases key } db.predicates

/-- The transaction shows the label it was given, the commit stores the trimmed one. -/
theorem commit_trims_label : ∃ ctx₁ ctx₂ ctx₃ tx rows,
    (⟨single, fun _ => none, 0⟩ : Context ℕ Empty).call trimming 2 .begin = (.ok 0, ctx₁) ∧
    ctx₁.call trimming 2 (.update (some 0) trimmed [(label, .text " b ")] none) = (.ok 1, ctx₂) ∧
    ctx₂.transactions 0 = some tx ∧ trimming.selectInside tx ctx₂.state trimmed none = .ok rows ∧
    ctx₂.call trimming 2 (.commit 0) = (.ok 0, ctx₃) ∧
    ¬ (ctx₃.state.view "items").Perm (rows.map trimmed.columnValues) := by
  refine ⟨_, _, _, _, _, rfl, rfl, rfl, rfl, rfl, ?_⟩
  intro perm
  have same : [item 1 "b"] = [item 1 " b "] := List.perm_singleton.mp perm
  have labels : some (Value.text "b" : Value ℕ) = some (.text " b ") :=
    congrArg (findColumn "label") (List.head_eq_of_cons_eq same)
  exact absurd (Value.text.inj (Option.some.inj labels)) (by decide)

/-- The later deletion in the same transaction captures the label it was given, and the
commit does not find it. -/
theorem commit_conflicts_alone : ∃ ctx₁ ctx₂ ctx₃ ctx₄,
    (⟨single, fun _ => none, 0⟩ : Context ℕ Empty).call trimming 2 .begin = (.ok 0, ctx₁) ∧
    ctx₁.call trimming 2 (.update (some 0) trimmed [(label, .text " b ")] none) = (.ok 1, ctx₂) ∧
    ctx₂.call trimming 2 (.delete (some 0) trimmed .restrict none) = (.ok 1, ctx₃) ∧
    ctx₃.call trimming 2 (.commit 0) = (.error (Database.conflict trimmed), ctx₄) :=
  ⟨_, _, _, _, rfl, rfl, rfl, rfl⟩

end Items
end WasmDbms
