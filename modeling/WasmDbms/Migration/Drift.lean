import WasmDbms.Migration.Counters

/-!
# Drift

A context remembers, for the compiled schema it was asked about last, whether the
stored schema differs from it. The schemas are compared by their hashes.
-/
namespace WasmDbms

variable {D J : Type}

abbrev Snapshots (D J : Type) := List (TableSchemaSnapshot (StoredValue D J))

/-- The stored tables, the hash in the schema registry, and the cached answer with the
hash of the compiled schema it is for. -/
structure DbmsContext (D J : Type) where
  tables : Tables D J
  schemaHash : UInt64
  drift : Option (UInt64 × Bool)
  migrating : Bool

/-- What is called on a context or on a handle with a compiled schema. -/
inductive ContextCall (D J : Type) where
  | openHandle (schema : CompiledSchema D J)
  | registerTable (table : TableType (StoredValue D J))
  | migrate (schema : CompiledSchema D J) (allowDestructive : Bool)
  | hasDrift (schema : CompiledSchema D J)

namespace DbmsContext

/-- The stored snapshots. -/
def stored (ctx : DbmsContext D J) : Snapshots D J := ctx.tables.map StoredTable.snapshot

def cachedDriftFor (ctx : DbmsContext D J) (compiledHash : UInt64) : Option Bool :=
  match ctx.drift with
  | some (hash, drifted) => if hash = compiledHash then some drifted else none
  | none => none

def setDrift (ctx : DbmsContext D J) (compiledHash : UInt64) (value : Bool) : DbmsContext D J :=
  { ctx with drift := some (compiledHash, value) }

def clearDrift (ctx : DbmsContext D J) : DbmsContext D J := { ctx with drift := none }

/-- A context on a fresh memory: the registry of an empty schema page. -/
def fresh : DbmsContext D J := ⟨[], 0, none, false⟩

section Hash
variable (digest : Snapshots D J → UInt64)

/-- `compute_hash`: the digest of the snapshots by name. -/
def computeHash (snapshots : Snapshots D J) : UInt64 :=
  digest (snapshots.mergeSort fun a b => decide (a.name ≤ b.name))

/-- `prime_drift_cache`, with which a handle is opened. -/
def primeDriftCache (ctx : DbmsContext D J) (schema : CompiledSchema D J) : DbmsContext D J :=
  let compiledHash := computeHash digest schema.snapshots
  ctx.setDrift compiledHash (ctx.schemaHash != compiledHash)

/-- `drift_check`. -/
def driftCheck (ctx : DbmsContext D J) (schema : CompiledSchema D J) : Bool × DbmsContext D J :=
  if ctx.migrating then (false, ctx)
  else
    let compiledHash := computeHash digest schema.snapshots
    match ctx.cachedDriftFor compiledHash with
    | some cached => (cached, ctx)
    | none =>
        let drifted := ctx.schemaHash != compiledHash
        (drifted, ctx.setDrift compiledHash drifted)

/-- `ensure_no_drift`, with which every read and write starts: the refusal is `SchemaDrift`. -/
def ensureNoDrift (ctx : DbmsContext D J) (schema : CompiledSchema D J) : Option Unit :=
  if (ctx.driftCheck digest schema).1 then none else some ()

variable (engine : MigrationEngine D J)

/-- `register_table`: the hash is refreshed when the table is new. -/
def registerTable (ctx : DbmsContext D J) (table : TableType (StoredValue D J)) : DbmsContext D J :=
  match engine.find ctx.tables table.name with
  | some _ => ctx
  | none =>
      match engine.registerTable ctx.tables table with
      | .ok tables =>
          { ctx with tables := tables, schemaHash := computeHash digest (tables.map StoredTable.snapshot) }
      | .error _ => ctx

variable [LinearOrder J]

/-- `migrate`: the registry is loaded again after `apply`, whose failure restores the
memory; the cached answer is dropped after a success only. -/
def migrate (ctx : DbmsContext D J) (schema : CompiledSchema D J) (allowDestructive : Bool) : DbmsContext D J :=
  match engine.migrate schema ctx.tables allowDestructive with
  | .ok tables => clearDrift
      ⟨tables, computeHash digest (tables.map StoredTable.snapshot), ctx.drift, false⟩
  | .error _ => { ctx with migrating := false }

def call (ctx : DbmsContext D J) : ContextCall D J → DbmsContext D J
  | .openHandle schema => ctx.primeDriftCache digest schema
  | .registerTable table => ctx.registerTable digest engine table
  | .migrate schema allowDestructive => ctx.migrate digest engine schema allowDestructive
  | .hasDrift schema => (ctx.driftCheck digest schema).2

end Hash

/-! ## Runs -/

/-- The compiled snapshots are the stored ones, in any order. -/
def UpToDate (ctx : DbmsContext D J) (schema : CompiledSchema D J) : Prop := ctx.stored.Perm schema.snapshots

section Run
variable (digest : Snapshots D J → UInt64) (engine : MigrationEngine D J)

/-- The stored hash is that of the stored snapshots, or nothing has been stored yet. -/
def Hashed (ctx : DbmsContext D J) : Prop :=
  ctx.schemaHash = computeHash digest ctx.stored ∨ ctx.tables = [] ∧ ctx.schemaHash = 0

/-- A context as it is made, on a memory from before. -/
structure Created (ctx : DbmsContext D J) : Prop where
  hashed : ctx.Hashed digest
  uncached : ctx.drift = none
  idle : ctx.migrating = false

/-- The cached answer is that of the stored hash. -/
structure Sound (ctx : DbmsContext D J) : Prop where
  hashed : ctx.Hashed digest
  cached : ∀ hash drifted, ctx.drift = some (hash, drifted) → drifted = (ctx.schemaHash != hash)
  idle : ctx.migrating = false

/-- A registration spares the cached answer: it is for a schema that has the stored hash
before and after it, or neither before nor after. -/
def Spares (ctx : DbmsContext D J) : ContextCall D J → Prop
  | .registerTable table => ∀ hash drifted, ctx.drift = some (hash, drifted) →
      (ctx.schemaHash = hash ↔ (ctx.registerTable digest engine table).schemaHash = hash)
  | _ => True

/-- The hashes tell the stored snapshots from the compiled ones. -/
def TellsApart (ctx : DbmsContext D J) (schema : CompiledSchema D J) : Prop :=
  ctx.schemaHash = computeHash digest schema.snapshots → ctx.UpToDate schema

/-- The question is not that of an empty schema to a registry that was never written. -/
def Answerable (ctx : DbmsContext D J) (schema : CompiledSchema D J) : Prop :=
  schema.tables = [] → ctx.schemaHash = computeHash digest ctx.stored

variable {digest engine}

theorem Created.sound {ctx : DbmsContext D J} (created : ctx.Created digest) : ctx.Sound digest where
  hashed := created.hashed
  cached hash drifted known := by
    rw [created.uncached] at known
    cases known
  idle := created.idle

theorem sound_setDrift {ctx : DbmsContext D J} (sound : ctx.Sound digest) (hash : UInt64) :
    (ctx.setDrift hash (ctx.schemaHash != hash)).Sound digest where
  hashed := sound.hashed
  cached hash' drifted known := by
    cases known
    rfl
  idle := sound.idle

theorem Sound.cachedDriftFor {ctx : DbmsContext D J} (sound : ctx.Sound digest) {hash : UInt64} {drifted : Bool}
    (known : ctx.cachedDriftFor hash = some drifted) : drifted = (ctx.schemaHash != hash) := by
  unfold DbmsContext.cachedDriftFor at known
  split at known
  next hash' drifted' entry =>
    split at known
    next same =>
      cases known
      subst same
      exact sound.cached _ _ entry
    next => cases known
  next => cases known

/-- The answer is that of the stored hash, cached or not. -/
theorem Sound.driftCheck {ctx : DbmsContext D J} (sound : ctx.Sound digest) (schema : CompiledSchema D J) :
    (ctx.driftCheck digest schema).1 = (ctx.schemaHash != computeHash digest schema.snapshots) ∧
      (ctx.driftCheck digest schema).2.Sound digest := by
  rw [DbmsContext.driftCheck, sound.idle, if_neg Bool.false_ne_true]
  dsimp only
  split
  next cached known => exact ⟨sound.cachedDriftFor known, sound⟩
  next => exact ⟨rfl, sound_setDrift sound _⟩

theorem Sound.registerTable {ctx : DbmsContext D J} (sound : ctx.Sound digest) {table : TableType (StoredValue D J)}
    (spares : ctx.Spares digest engine (.registerTable table)) : (ctx.registerTable digest engine table).Sound digest := by
  have kept : (ctx.registerTable digest engine table).drift = ctx.drift := by
    unfold DbmsContext.registerTable
    split
    · rfl
    · split <;> rfl
  have idle : (ctx.registerTable digest engine table).migrating = ctx.migrating := by
    unfold DbmsContext.registerTable
    split
    · rfl
    · split <;> rfl
  refine ⟨?_, fun hash drifted known => ?_, idle.trans sound.idle⟩
  · unfold DbmsContext.registerTable
    split
    · exact sound.hashed
    · split
      · exact .inl rfl
      · exact sound.hashed
  · rw [kept] at known
    rw [sound.cached hash drifted known]
    apply Bool.eq_iff_iff.mpr
    rw [bne_iff_ne, bne_iff_ne]
    exact not_congr (spares hash drifted known)

variable [LinearOrder J]

theorem Sound.migrate {ctx : DbmsContext D J} (sound : ctx.Sound digest) (schema : CompiledSchema D J)
    (allowDestructive : Bool) : (ctx.migrate digest engine schema allowDestructive).Sound digest := by
  unfold DbmsContext.migrate
  split
  · refine ⟨.inl rfl, fun hash drifted known => ?_, rfl⟩
    cases known
  · exact ⟨sound.hashed, sound.cached, rfl⟩

theorem Sound.call {ctx : DbmsContext D J} (sound : ctx.Sound digest) {c : ContextCall D J}
    (spares : ctx.Spares digest engine c) : (ctx.call digest engine c).Sound digest := by
  cases c with
  | openHandle schema => exact sound_setDrift sound _
  | registerTable table => exact sound.registerTable spares
  | migrate schema allowDestructive => exact sound.migrate schema allowDestructive
  | hasDrift schema => exact (sound.driftCheck schema).2

variable (digest engine) in
/-- The contexts after the calls of a run whose registrations spare the cached answer. -/
inductive Run (ctx₀ : DbmsContext D J) : DbmsContext D J → Prop
  | start : Run ctx₀ ctx₀
  | call {ctx : DbmsContext D J} (run : Run ctx₀ ctx) (c : ContextCall D J) (spares : ctx.Spares digest engine c) :
      Run ctx₀ (ctx.call digest engine c)

theorem Run.sound {ctx₀ ctx : DbmsContext D J} (run : Run digest engine ctx₀ ctx) (created : ctx₀.Created digest) :
    ctx.Sound digest := by
  induction run with
  | start => exact created.sound
  | call _ c spares ih => exact ih.call spares

omit [LinearOrder J] in
/-- Two lists of the same snapshots have the same hash. -/
theorem computeHash_perm {a b : Snapshots D J} (same : a.Perm b)
    (distinct : (b.map TableSchemaSnapshot.name).Nodup) : computeHash digest a = computeHash digest b := by
  have ordered : ∀ l : Snapshots D J,
      (l.mergeSort fun a b => decide (a.name ≤ b.name)).Pairwise fun a b => a.name ≤ b.name := by
    intro l
    refine (@List.pairwise_mergeSort _ (fun a b => decide (a.name ≤ b.name)) ?_ ?_ l).imp of_decide_eq_true
    · intro a b c first second
      exact decide_eq_true ((of_decide_eq_true first).trans (of_decide_eq_true second))
    · intro a b
      rcases le_total a.name b.name with le | le
      · simp [le]
      · simp [le]
  refine congrArg digest (List.Perm.eq_of_pairwise ?_ (ordered a) (ordered b)
    ((List.mergeSort_perm a _).trans (same.trans (List.mergeSort_perm b _).symm)))
  intro s t inA inB below above
  have sIn : s ∈ b := same.mem_iff.mp (List.mem_mergeSort.mp inA)
  exact List.inj_on_of_nodup_map distinct sIn (List.mem_mergeSort.mp inB) (le_antisymm below above)

omit [LinearOrder J] in
/-- The stored hash is that of a compiled schema exactly when the schema is up to date. -/
theorem Sound.hash_eq_iff {ctx : DbmsContext D J} (sound : ctx.Sound digest) {schema : CompiledSchema D J}
    (answerable : ctx.Answerable digest schema) (apart : ctx.TellsApart digest schema) :
    ctx.schemaHash = computeHash digest schema.snapshots ↔ ctx.UpToDate schema := by
  refine ⟨apart, fun current => ?_⟩
  have distinct : (schema.snapshots.map TableSchemaSnapshot.name).Nodup := by
    rw [CompiledSchema.snapshots, List.map_map]
    exact schema.names
  rcases sound.hashed with hashed | ⟨empty, _⟩
  · exact hashed.trans (computeHash_perm current distinct)
  · have none : schema.tables = [] := by
      have blank : ctx.stored = [] := by rw [stored, empty, List.map_nil]
      rw [UpToDate, blank] at current
      exact List.map_eq_nil_iff.mp current.symm.eq_nil
    exact (answerable none).trans (computeHash_perm current distinct)

/-- After a run whose registrations spare the cached answer, a handle reports drift exactly
when the stored snapshots differ from its own, and its reads and writes are let through
exactly when they do not. -/
theorem hasDrift_of_run {ctx₀ ctx : DbmsContext D J} (created : ctx₀.Created digest)
    (run : Run digest engine ctx₀ ctx) (schema : CompiledSchema D J) (answerable : ctx.Answerable digest schema)
    (apart : ctx.TellsApart digest schema) :
    ((ctx.driftCheck digest schema).1 = true ↔ ¬ ctx.UpToDate schema) ∧
      (ctx.ensureNoDrift digest schema = some () ↔ ctx.UpToDate schema) := by
  have sound := run.sound created
  have answer : (ctx.driftCheck digest schema).1 = true ↔ ¬ ctx.UpToDate schema := by
    rw [(sound.driftCheck schema).1, bne_iff_ne]
    exact not_congr (sound.hash_eq_iff answerable apart)
  refine ⟨answer, ?_⟩
  unfold ensureNoDrift
  split
  next drifted => exact iff_of_false (fun passed => nomatch passed) (answer.mp drifted)
  next clean =>
    have current : ctx.UpToDate schema := by
      by_contra stale
      exact clean (answer.mpr stale)
    exact iff_of_true rfl current

end Run
end DbmsContext

/-- After every run of calls on a context every handle reports drift exactly when the
stored snapshots differ from its own, if the hashes tell them apart. -/
def AlwaysReportsDrift [LinearOrder J] (engine : MigrationEngine D J) : Prop :=
  ∀ (digest : Snapshots D J → UInt64) (ctx₀ : DbmsContext D J), ctx₀.Created digest →
    ∀ (calls : List (ContextCall D J)) (schema : CompiledSchema D J),
      let ctx := calls.foldl (DbmsContext.call digest engine) ctx₀
      ctx.TellsApart digest schema → ((ctx.driftCheck digest schema).1 = true ↔ ¬ ctx.UpToDate schema)

/-! ### A table is registered behind an open handle -/

namespace OpenHandle
open DbmsContext Invoices

abbrev Bytes16 := {bytes : List UInt8 // bytes.length = 16}

/-- A digest that counts the snapshots. -/
def counted (snapshots : Snapshots Bytes16 Unit) : UInt64 := .ofNat (1 + snapshots.length)

theorem computeHash_counted (snapshots : Snapshots Bytes16 Unit) :
    computeHash counted snapshots = .ofNat (1 + snapshots.length) := by
  rw [computeHash, counted, List.length_mergeSort]

theorem fresh_created : (fresh : DbmsContext Bytes16 Unit).Created counted := ⟨.inr ⟨rfl, rfl⟩, rfl, rfl⟩

/-- The table is registered, and then a handle is opened. -/
def registeredFirst : DbmsContext Bytes16 Unit :=
  (fresh.registerTable counted engine invoices).primeDriftCache counted (schemaOf invoices)

theorem register_fresh (drift : Option (UInt64 × Bool)) :
    DbmsContext.registerTable counted engine ⟨[], 0, drift, false⟩ invoices = ⟨Invoices.stored, 2, drift, false⟩ := by
  have unlisted : engine.find [] invoices.name = none := rfl
  unfold DbmsContext.registerTable
  dsimp only
  rw [unlisted, registered]
  dsimp only
  rw [computeHash_counted]
  rfl

theorem stored_upToDate (hash : UInt64) (drift : Option (UInt64 × Bool)) :
    UpToDate ⟨Invoices.stored, hash, drift, false⟩ (schemaOf invoices) := .refl _

/-- The handle was told of drift when it was opened, and is told so after its table has
been registered. -/
theorem stale_answer : ¬ AlwaysReportsDrift engine := by
  intro always
  have current : (DbmsContext.call counted engine (fresh.call counted engine (.openHandle (schemaOf invoices)))
      (.registerTable invoices)) = ⟨Invoices.stored, 2, some (2, true), false⟩ := by
    have primed : fresh.call counted engine (.openHandle (schemaOf invoices)) = ⟨[], 0, some (2, true), false⟩ := by
      show primeDriftCache counted fresh (schemaOf invoices) = _
      rw [primeDriftCache, computeHash_counted]
      rfl
    rw [primed]
    exact register_fresh _
  have answer := always counted fresh fresh_created [.openHandle (schemaOf invoices), .registerTable invoices]
    (schemaOf invoices)
  rw [List.foldl_cons, List.foldl_cons, List.foldl_nil, current] at answer
  have told : (driftCheck counted ⟨Invoices.stored, 2, some (2, true), false⟩ (schemaOf invoices)).1 = true := by
    rw [driftCheck, computeHash_counted]
    rfl
  exact (answer fun _ => stored_upToDate _ _).mp told (stored_upToDate _ _)

/-- The reads and writes of a handle opened after the registration are let through. -/
theorem registered_first_passes :
    registeredFirst.ensureNoDrift counted (schemaOf invoices) = some () ↔ registeredFirst.UpToDate (schemaOf invoices) := by
  have registeredRun : DbmsContext.Run counted engine fresh (fresh.call counted engine (.registerTable invoices)) :=
    .call .start _ fun _ _ known => nomatch known
  have opened : DbmsContext.Run counted engine fresh registeredFirst :=
    .call registeredRun (.openHandle (schemaOf invoices)) trivial
  have reached : registeredFirst = ⟨Invoices.stored, 2, some (2, false), false⟩ := by
    rw [registeredFirst, fresh, register_fresh, primeDriftCache, computeHash_counted]
    rfl
  refine (hasDrift_of_run fresh_created opened (schemaOf invoices) ?_ ?_).2
  · intro none
    cases none
  · rw [reached]
    exact fun _ => stored_upToDate _ _

end OpenHandle
end WasmDbms
