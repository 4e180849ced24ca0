import WasmDbms.Db.Store

/-!
# Deletion

`delete` with its two behaviours. A cascade deletes the referencing records of each
collected record before the record itself; nested calls work on the state the
calls before them have left. The fuel bounds the depth of the nesting.
-/
namespace WasmDbms

variable {J F : Type} [LinearOrder J]

inductive DeleteBehavior where
  | cascade
  | restrict
  deriving DecidableEq, Repr

/-- `delete_index`. -/
def deleteIndex (indexes : List IndexDef) (address : RecordAddress) (values : Row J) (ledger : IndexLedger J) :
    Except (DbmsError J) (IndexLedger J) :=
  indexes.foldlM (fun ledger index =>
    ledger.delete index.columns (indexKey index.columns values) address) ledger

/-- Removes a record and its index entries. -/
def deleteRecord (table : TableDef J) (address : RecordAddress) (values : Row J) (s : DbState J) :
    Except (Failure J) (DbState J) := do
  let indexes ← Failure.lift (deleteIndex table.indexes address values (s table.name).indexes)
  return Function.update s table.name ⟨(s table.name).rows.filter fun x => x.1 ≠ address, indexes⟩

namespace Database
variable (db : Database J F)

/-- `has_foreign_key_references`. -/
def hasForeignKeyReferences (table : TableDef J) (values : Row J) (s : DbState J) : Except (Failure J) Bool := do
  let references ← Failure.lift (db.schema.referencingColumns table.name values)
  references.anyM fun r => do
    let t ← Failure.lift (db.schema.table r.table)
    let rows ← db.collectMatchingRecords t (some (.eq r.column r.value)) s
    return !rows.isEmpty

/-- The deletes of `delete_foreign_keys_cascade`, by `follow`. -/
def deleteReferences (follow : DatabaseSchema.Reference J → DbState J → Except (Failure J) (ℕ × DbState J)) :
    List (DatabaseSchema.Reference J) → DbState J → Except (Failure J) (ℕ × DbState J)
  | [], s => .ok (0, s)
  | r :: rest, s => do
      let (n, s) ← follow r s
      let (m, s) ← deleteReferences follow rest s
      return (n + m, s)

/-- What happens to the references of a record before it is removed. -/
def resolveReferences (behaviour : DeleteBehavior)
    (follow : DatabaseSchema.Reference J → DbState J → Except (Failure J) (ℕ × DbState J))
    (table : TableDef J) (values : Row J) (s : DbState J) : Except (Failure J) (ℕ × DbState J) :=
  match behaviour with
  | .cascade => do
      let references ← Failure.lift (db.schema.referencingColumns table.name values)
      deleteReferences follow references s
  | .restrict => do
      if ← db.hasForeignKeyReferences table values s then
        throw (.error (.query (.foreignKeyConstraintViolation table.name table.primaryKey)))
      else return (0, s)

/-- The loop of `delete` over the collected records. -/
def deleteRecords (behaviour : DeleteBehavior)
    (follow : DatabaseSchema.Reference J → DbState J → Except (Failure J) (ℕ × DbState J))
    (table : TableDef J) : List (RecordAddress × Row J) → DbState J → Except (Failure J) (ℕ × DbState J)
  | [], s => .ok (0, s)
  | (address, values) :: rest, s => do
      let (n, s) ← db.resolveReferences behaviour follow table values s
      let s ← deleteRecord table address values s
      let (m, s) ← deleteRecords behaviour follow table rest s
      return (n + m, s)

/-- `delete`: the number of records it deleted and the state it leaves. -/
def delete : ℕ → TableDef J → DeleteBehavior → Option (Filter J F) → DbState J →
    Except (Failure J) (ℕ × DbState J)
  | 0, _, _, _, _ => .error .diverges
  | fuel + 1, table, behaviour, filter, s => do
      let records ← db.collectMatchingRecords table filter s
      let follow (r : DatabaseSchema.Reference J) (s : DbState J) : Except (Failure J) (ℕ × DbState J) := do
        let t ← Failure.lift (db.schema.table r.table)
        delete fuel t .cascade (some (.eq r.column r.value)) s
      let (n, s) ← db.deleteRecords behaviour follow table records s
      return (records.length + n, s)

end Database

/-! ## What a deletion preserves -/

section Rule
open Result

variable {db : Database J F} {behaviour : DeleteBehavior} {R : DbState J → DbState J → Prop}
variable (refl : ∀ s, R s s) (trans : ∀ a b c, R a b → R b c → R a c)

section Loops
variable {follow : DatabaseSchema.Reference J → DbState J → Except (Failure J) (ℕ × DbState J)}
variable (nested : ∀ r s n s', follow r s = .ok (n, s') → R s s')
include refl trans nested

omit [LinearOrder J] in
theorem deleteReferences_rule {references : List (DatabaseSchema.Reference J)} {s s' : DbState J} {n : ℕ}
    (run : Database.deleteReferences follow references s = .ok (n, s')) : R s s' := by
  induction references generalizing s n with
  | nil =>
      cases run
      exact refl _
  | cons r rest ih =>
      obtain ⟨⟨m, s₁⟩, first, run⟩ := bind_eq_ok.mp run
      obtain ⟨⟨k, s₂⟩, second, run⟩ := bind_eq_ok.mp run
      cases run
      exact trans _ _ _ (nested r s m s₁ first) (ih second)

theorem resolveReferences_rule {t : TableDef J} {values : Row J} {s s' : DbState J} {n : ℕ}
    (run : db.resolveReferences behaviour follow t values s = .ok (n, s')) : R s s' := by
  cases behaviour with
  | cascade =>
      obtain ⟨references, _, run⟩ := bind_eq_ok.mp run
      exact deleteReferences_rule refl trans nested run
  | restrict =>
      obtain ⟨b, _, run⟩ := bind_eq_ok.mp run
      cases b <;> cases run
      exact refl _

theorem deleteRecords_rule {t : TableDef J}
    (step : ∀ address values s s', deleteRecord t address values s = .ok s' → R s s')
    {records : List (RecordAddress × Row J)} {s s' : DbState J} {n : ℕ}
    (run : db.deleteRecords behaviour follow t records s = .ok (n, s')) : R s s' := by
  induction records generalizing s n with
  | nil =>
      cases run
      exact refl _
  | cons x rest ih =>
      obtain ⟨⟨m, s₁⟩, first, run⟩ := bind_eq_ok.mp run
      obtain ⟨s₂, gone, run⟩ := bind_eq_ok.mp run
      obtain ⟨⟨k, s₃⟩, second, run⟩ := bind_eq_ok.mp run
      cases run
      have resolved := resolveReferences_rule refl trans nested first
      exact trans _ _ _ resolved (trans _ _ _ (step x.1 x.2 s₁ s₂ gone) (ih second))

end Loops

include refl trans in
/-- What the removal of one record preserves, a deletion does. -/
theorem delete_rule
    (step : ∀ t ∈ db.schema.tables, ∀ address values s s', deleteRecord t address values s = .ok s' → R s s')
    {fuel : ℕ} {t : TableDef J} (listed : t ∈ db.schema.tables) {filter : Option (Filter J F)} {s s' : DbState J}
    {n : ℕ} (run : db.delete fuel t behaviour filter s = .ok (n, s')) : R s s' := by
  induction fuel generalizing t behaviour filter s s' n with
  | zero => cases run
  | succ fuel ih =>
      obtain ⟨records, _, run⟩ := bind_eq_ok.mp run
      obtain ⟨⟨m, s₁⟩, loop, run⟩ := bind_eq_ok.mp run
      cases run
      refine deleteRecords_rule refl trans ?_ (step t listed) loop
      intro r s n s' nested
      obtain ⟨t', lookup, nested⟩ := bind_eq_ok.mp nested
      exact ih (DatabaseSchema.table_ok (Failure.lift_eq_ok.mp lookup)).1 nested

end Rule
end WasmDbms
