import WasmDbms.Db.Delete
import WasmDbms.Lib.Cascade

/-!
# Cascading deletion

Deletion with `Cascade` follows the references of the records. It is the cascading
removal of `Lib.Cascade` over the stored records, with the foreign key columns as
edges: the index entries tell when a collected record is not there any more.
-/
namespace WasmDbms
open Cascade

variable {J F : Type} [LinearOrder J]

/-- A database with the tables of its schema. -/
structure DbState.Valid (schema : DatabaseSchema J) (s : DbState J) : Prop where
  stored : ∀ t ∈ schema.tables, Stored t (s t.name)
  others : ∀ name, (∀ t ∈ schema.tables, t.name ≠ name) → s name = ⟨[], []⟩

/-- A record with the place it is stored at. -/
structure Entry (J : Type) where
  table : String
  address : RecordAddress
  values : Row J

/-- The stored records. -/
def DbState.live (s : DbState J) : Set (Entry J) := { x | (x.address, x.values) ∈ (s x.table).rows }

open Classical in
/-- The database with some of its records only. -/
noncomputable def DbState.restrict (s : DbState J) (S : Set (Entry J)) : DbState J := fun name =>
  ⟨(s name).rows.filter fun r => decide (⟨name, r.1, r.2⟩ ∈ S),
    (s name).indexes.map fun index =>
      (index.1, index.2.filter fun e => decide (∃ values, ⟨name, e.2, values⟩ ∈ S))⟩

section Ledger

omit [LinearOrder J] in
theorem modify_middle {before after : IndexLedger J} {columns : List String} {entries : List (IndexEntry J)}
    {f : List (IndexEntry J) → Except (DbmsError J) (List (IndexEntry J))}
    (fresh : columns ∉ before.map Prod.fst) :
    IndexLedger.modify columns f (before ++ (columns, entries) :: after) =
      (f entries).map fun entries => before ++ (columns, entries) :: after := by
  induction before with
  | nil =>
      rw [List.nil_append, IndexLedger.modify, if_pos rfl]
      cases f entries <;> rfl
  | cons index before ih =>
      rw [List.map_cons, List.mem_cons, not_or] at fresh
      rw [List.cons_append, IndexLedger.modify, if_neg (fun same => fresh.1 same.symm), ih fresh.2]
      cases f entries <;> rfl

/-- The entries of a record are deleted from all indexes when they are there. -/
theorem deleteIndex_eq {indexes : List IndexDef} {before after : IndexLedger J} {address : RecordAddress}
    {values : Row J} (names : after.map Prod.fst = indexes.map IndexDef.columns)
    (nodup : ((before ++ after).map Prod.fst).Nodup)
    (there : ∀ index ∈ after, (indexKey index.1 values, address) ∈ index.2) :
    deleteIndex indexes address values (before ++ after) =
      .ok (before ++ after.map fun index => (index.1, index.2.erase (indexKey index.1 values, address))) := by
  induction indexes generalizing before after with
  | nil =>
      rw [List.map_nil, List.map_eq_nil_iff] at names
      subst names
      rfl
  | cons index indexes ih =>
      obtain ⟨⟨columns, entries⟩, rest, rfl, same, tail⟩ := List.map_eq_cons_iff.mp names
      obtain rfl : columns = index.columns := same
      rw [List.forall_mem_cons] at there
      have fresh : index.columns ∉ before.map Prod.fst := by
        intro member
        rw [List.map_append, List.nodup_append] at nodup
        exact nodup.2.2 _ member _ List.mem_cons_self rfl
      have first : IndexLedger.delete (before ++ (index.columns, entries) :: rest) index.columns
          (indexKey index.columns values) address =
          .ok ((before ++ [(index.columns, entries.erase (indexKey index.columns values, address))]) ++ rest) := by
        rw [IndexLedger.delete, modify_middle fresh, if_pos there.1, List.append_assoc]
        rfl
      have names' : ((before ++ [(index.columns, entries.erase (indexKey index.columns values, address))]) ++
          rest).map Prod.fst |>.Nodup := by
        simpa using nodup
      have again := ih tail names' there.2
      unfold deleteIndex at again ⊢
      rw [List.foldlM_cons, first]
      refine again.trans ?_
      rw [List.append_assoc]
      rfl

theorem deleteIndex_missing {indexes : List IndexDef} {ledger : IndexLedger J} {address : RecordAddress}
    {values : Row J} (names : ledger.map Prod.fst = indexes.map IndexDef.columns) (some_ : indexes ≠ [])
    (gone : ∀ index ∈ ledger, (indexKey index.1 values, address) ∉ index.2) :
    deleteIndex indexes address values ledger = .error (.memory .entryNotFound) := by
  cases indexes with
  | nil => exact absurd rfl some_
  | cons index indexes =>
      obtain ⟨⟨columns, entries⟩, rest, rfl, same, _⟩ := List.map_eq_cons_iff.mp names
      obtain rfl : columns = index.columns := same
      rw [List.forall_mem_cons] at gone
      unfold deleteIndex
      rw [List.foldlM_cons, IndexLedger.delete, IndexLedger.modify, if_pos rfl, if_neg gone.1]
      rfl

end Ledger

section Record
variable {table : TableDef J} {data : TableData J}

omit [LinearOrder J] in
theorem values_unique {rows : List (RecordAddress × Row J)} (nodup : (rows.map Prod.fst).Nodup)
    {x y : RecordAddress × Row J} (hx : x ∈ rows) (hy : y ∈ rows) (same : x.1 = y.1) : x = y :=
  List.inj_on_of_nodup_map nodup hx hy same

/-- The index entries are those of the records. -/
theorem Stored.mem_entries (stored : Stored table data) {index : List String × List (IndexEntry J)}
    (listed : index ∈ data.indexes) {e : IndexEntry J} :
    e ∈ index.2 ↔ ∃ r ∈ data.rows, e = (indexKey index.1 r.2, r.1) := by
  rw [(stored.indexed.2 index listed).perm.mem_iff, List.mem_map]
  constructor
  · rintro ⟨r, member, rfl⟩
    exact ⟨r, member, rfl⟩
  · rintro ⟨r, member, rfl⟩
    exact ⟨r, member, rfl⟩

theorem Stored.entries_nodup (stored : Stored table data) {index : List String × List (IndexEntry J)}
    (listed : index ∈ data.indexes) : index.2.Nodup := by
  rw [(stored.indexed.2 index listed).perm.nodup_iff]
  refine List.Nodup.of_map Prod.snd ?_
  rw [List.map_map]
  exact stored.addresses

end Record

section Restrict
variable {schema : DatabaseSchema J} {s : DbState J} {S : Set (Entry J)} {t : TableDef J}

open Classical in
/-- Taking a record away from a table, and its entries from the indexes. -/
theorem restrict_without (stored : Stored t (s t.name)) (within : S ⊆ s.live)
    {x : RecordAddress × Row J} (member : x ∈ (s t.name).rows) :
    (⟨(s.restrict S t.name).rows.filter fun r => r.1 ≠ x.1,
      (s.restrict S t.name).indexes.map fun index =>
        (index.1, index.2.erase (indexKey index.1 x.2, x.1))⟩ : TableData J) =
      s.restrict (S \ {⟨t.name, x.1, x.2⟩}) t.name := by
  have same : ∀ r ∈ (s t.name).rows, r.1 = x.1 → r = x :=
    fun r kept => values_unique stored.addresses kept member
  unfold DbState.restrict
  congr 1
  · rw [List.filter_filter]
    apply List.filter_congr
    intro r kept
    have apart : r.1 ≠ x.1 ↔ (⟨t.name, r.1, r.2⟩ : Entry J) ≠ ⟨t.name, x.1, x.2⟩ := by
      refine not_congr ⟨fun address => by rw [same r kept address], fun equal => congrArg Entry.address equal⟩
    rw [Bool.eq_iff_iff]
    simp only [Bool.and_eq_true, decide_eq_true_eq]
    rw [apart, and_comm]
    rfl
  · rw [List.map_map]
    apply List.map_congr_left
    intro index listed
    refine Prod.ext rfl ?_
    dsimp only [Function.comp]
    rw [((stored.entries_nodup listed).filter _).erase_eq_filter, List.filter_filter]
    apply List.filter_congr
    intro e kept
    obtain ⟨r, row, rfl⟩ := (stored.mem_entries listed).mp kept
    rw [Bool.eq_iff_iff, Bool.and_eq_true, bne_iff_ne, decide_eq_true_eq, decide_eq_true_eq]
    constructor
    · rintro ⟨apart, values, there⟩
      refine ⟨values, there, ?_⟩
      intro equal
      exact apart (by rw [same r row (congrArg Entry.address equal)])
    · rintro ⟨values, there, apart⟩
      refine ⟨?_, values, there⟩
      intro equal
      have address : r.1 = x.1 := congrArg Prod.snd equal
      have held := values_unique stored.addresses (x := (r.1, values)) (within there) member address
      exact apart (by rw [← held]; rfl)

omit [LinearOrder J] in
/-- Other tables do not change. -/
theorem restrict_elsewhere {name : String} {x : Entry J} (other : x.table ≠ name) :
    s.restrict S name = s.restrict (S \ {x}) name := by
  have unaffected : ∀ address values, (⟨name, address, values⟩ : Entry J) ∈ S ↔
      (⟨name, address, values⟩ : Entry J) ∈ S \ {x} := by
    intro address values
    refine ⟨fun member => ⟨member, ?_⟩, fun member => member.1⟩
    rintro rfl
    exact other rfl
  unfold DbState.restrict
  congr 1
  · apply List.filter_congr
    intro r _
    exact decide_eq_decide.mpr (unaffected r.1 r.2)
  · apply List.map_congr_left
    intro index _
    refine Prod.ext rfl (List.filter_congr fun e _ => ?_)
    exact decide_eq_decide.mpr (exists_congr fun values => unaffected e.2 values)

open Classical in
theorem deleteRecord_restrict (valid : s.Valid schema) (listed : t ∈ schema.tables) (within : S ⊆ s.live)
    {x : RecordAddress × Row J} (member : x ∈ (s t.name).rows) :
    deleteRecord t x.1 x.2 (s.restrict S) =
      if ⟨t.name, x.1, x.2⟩ ∈ S then .ok (s.restrict (S \ {⟨t.name, x.1, x.2⟩}))
      else .error (.error (.memory .entryNotFound)) := by
  have stored := valid.stored t listed
  have only : ∀ values, ⟨t.name, x.1, values⟩ ∈ S → values = x.2 := by
    intro values there
    have same := values_unique stored.addresses (x := (x.1, values)) (within there) member rfl
    exact congrArg Prod.snd same
  have names : (s.restrict S t.name).indexes.map Prod.fst = t.indexes.map IndexDef.columns := by
    rw [← stored.indexed.1]
    simp [DbState.restrict]
  by_cases there : (⟨t.name, x.1, x.2⟩ : Entry J) ∈ S
  · have entries : ∀ index ∈ (s.restrict S t.name).indexes, (indexKey index.1 x.2, x.1) ∈ index.2 := by
      intro index restricted
      obtain ⟨original, kept, rfl⟩ := List.mem_map.mp restricted
      refine List.mem_filter.mpr ⟨(stored.mem_entries kept).mpr ⟨x, member, rfl⟩, ?_⟩
      exact decide_eq_true ⟨x.2, there⟩
    have nodup : ((s.restrict S t.name).indexes.map Prod.fst).Nodup := by
      rw [names]
      exact t.indexNames
    have deleted : deleteIndex t.indexes x.1 x.2 ([] ++ (s.restrict S t.name).indexes) = _ :=
      deleteIndex_eq names nodup entries
    rw [List.nil_append, List.nil_append] at deleted
    rw [if_pos there, deleteRecord, deleted]
    refine congrArg Except.ok (funext fun name => ?_)
    by_cases here : name = t.name
    · subst here
      rw [Function.update_self]
      exact restrict_without stored within member
    · rw [Function.update_of_ne here]
      exact restrict_elsewhere (fun same => here same.symm)
  · have missing : ∀ index ∈ (s.restrict S t.name).indexes, (indexKey index.1 x.2, x.1) ∉ index.2 := by
      intro index restricted held
      obtain ⟨original, _, rfl⟩ := List.mem_map.mp restricted
      obtain ⟨values, kept⟩ := of_decide_eq_true (List.mem_filter.mp held).2
      exact there (only values kept ▸ kept)
    rw [if_neg there, deleteRecord, deleteIndex_missing names t.keyIndex missing]
    rfl

end Restrict

namespace Database
variable (db : Database J F)

/-- The references to a record. -/
def edges (x : Entry J) : List (DatabaseSchema.Reference J) :=
  match db.schema.referencingColumns x.table x.values with
  | .ok references => references
  | .error _ => []

/-- The stored records that hold the value of a reference. -/
def Hits (s : DbState J) (r : DatabaseSchema.Reference J) (y : Entry J) : Prop :=
  y ∈ s.live ∧ y.table = r.table ∧ db.Selects (some (.eq r.column r.value)) y.values

open Classical in
/-- The records a nested deletion collects. -/
noncomputable def gather (s : DbState J) (r : DatabaseSchema.Reference J) (S : Set (Entry J)) : List (Entry J) :=
  match db.schema.table r.table with
  | .ok t =>
      ((db.access t (some (.eq r.column r.value)) (s.restrict S t.name).rows).filter fun x =>
        decide (db.Selects (some (.eq r.column r.value)) x.2)).map fun x => ⟨t.name, x.1, x.2⟩
  | .error _ => []

end Database

section Simulation
variable {db : Database J F} {s : DbState J} (valid : s.Valid db.schema)
include valid

/-- A stored record belongs to a table of the schema. -/
theorem DbState.Valid.table {x : Entry J} (live : x ∈ s.live) :
    ∃ t ∈ db.schema.tables, t.name = x.table ∧ RowOf t.columns x.values := by
  by_cases known : ∃ t ∈ db.schema.tables, t.name = x.table
  · obtain ⟨t, listed, name⟩ := known
    refine ⟨t, listed, name, ?_⟩
    have member : (x.address, x.values) ∈ (s t.name).rows := name ▸ live
    exact (valid.stored t listed).rows _ member
  · have empty := valid.others x.table fun t listed name => known ⟨t, listed, name⟩
    have member : (x.address, x.values) ∈ (s x.table).rows := live
    rw [empty] at member
    cases member

theorem edges_ok {x : Entry J} (live : x ∈ s.live) :
    db.schema.referencingColumns x.table x.values = .ok (db.edges x) ∧
      ∀ r ∈ db.edges x, ∃ t ∈ db.schema.tables, t.name = r.table := by
  obtain ⟨t, listed, name, row⟩ := valid.table live
  obtain ⟨references, run, members⟩ := DatabaseSchema.referencingColumns_ok listed row
  rw [name] at run
  have same : db.edges x = references := by
    unfold Database.edges
    rw [run]
  rw [same]
  refine ⟨run, fun r member => ?_⟩
  obtain ⟨t', listed', _, _, _, _, _, table, _⟩ := (members r).mp member
  exact ⟨t', listed', table.symm⟩

theorem gathers : Gathers (db.Hits s) (db.gather s) := by
  have entry_inj : ∀ name, Function.Injective fun x : RecordAddress × Row J => (⟨name, x.1, x.2⟩ : Entry J) := by
    rintro name ⟨a, v⟩ ⟨b, w⟩ same
    cases same
    rfl
  refine ⟨?_, ?_⟩
  · intro r S
    unfold Database.gather
    split
    next t found =>
      obtain ⟨listed, _⟩ := DatabaseSchema.table_ok found
      refine List.Nodup.map (entry_inj _) ?_
      have rows : (s t.name).rows.Nodup := .of_map _ (valid.stored t listed).addresses
      exact (Database.access_nodup (rows.filter _)).filter _
    next => exact List.nodup_nil
  · intro r S y
    unfold Database.gather Database.Hits
    split
    next t found =>
      obtain ⟨listed, name⟩ := DatabaseSchema.table_ok found
      simp only [List.mem_map, List.mem_filter, decide_eq_true_eq, Database.access_selects, DbState.restrict,
        DbState.live, Set.mem_ofPred_eq]
      constructor
      · rintro ⟨x, ⟨⟨member, there⟩, selected⟩, rfl⟩
        exact ⟨there, member, name, selected⟩
      · rintro ⟨there, member, table, selected⟩
        obtain ⟨table', address, values⟩ := y
        obtain rfl : table' = t.name := table.trans name.symm
        exact ⟨(address, values), ⟨⟨member, there⟩, selected⟩, rfl⟩
    next e missing =>
      constructor
      · intro member
        cases member
      · rintro ⟨_, live, table, _⟩
        obtain ⟨t, listed, name, _⟩ := valid.table live
        rw [← table, ← name, DatabaseSchema.table_eq listed] at missing
        cases missing

theorem live_finite : s.live.Finite := by
  refine (List.finite_toSet (db.schema.tables.flatMap fun t =>
    (s t.name).rows.map fun x => (⟨t.name, x.1, x.2⟩ : Entry J))).subset ?_
  intro x live
  obtain ⟨t, listed, name, _⟩ := valid.table live
  have member : (x.address, x.values) ∈ (s t.name).rows := name ▸ live
  refine List.mem_flatMap.mpr ⟨t, listed, List.mem_map.mpr ⟨_, member, ?_⟩⟩
  rw [name]

omit valid in
/-- How a removal of records ends for the database. -/
noncomputable def outcome (s : DbState J) :
    Except Stop (Set (Entry J) × ℕ) → Except (Failure J) (ℕ × DbState J)
  | .ok (S, n) => .ok (n, s.restrict S)
  | .error .gone => .error (.error (.memory .entryNotFound))
  | .error .diverges => .error .diverges

section Loops
variable {follow : DatabaseSchema.Reference J → Set (Entry J) → Except Stop (Set (Entry J) × ℕ)}
variable {follow' : DatabaseSchema.Reference J → DbState J → Except (Failure J) (ℕ × DbState J)}
variable (shrinks : ∀ r S S' n, S ⊆ s.live → follow r S = .ok (S', n) → S' ⊆ s.live)

omit valid [LinearOrder J] in
include shrinks in
theorem deleteReferences_restrict {references : List (DatabaseSchema.Reference J)} {S : Set (Entry J)}
    (within : S ⊆ s.live)
    (simulates : ∀ r ∈ references, ∀ S ⊆ s.live, follow' r (s.restrict S) = outcome s (follow r S)) :
    Database.deleteReferences follow' references (s.restrict S) =
      outcome s (followAll follow references S) := by
  induction references generalizing S with
  | nil => rfl
  | cons r rest ih =>
      rw [List.forall_mem_cons] at simulates
      rw [Database.deleteReferences, simulates.1 S within, followAll]
      cases first : follow r S with
      | error e => cases e <;> rfl
      | ok result =>
          obtain ⟨S₁, n⟩ := result
          have next := ih (shrinks r S S₁ n within first) simulates.2
          simp only [outcome, bind, Except.bind, next]
          cases second : followAll follow rest S₁ with
          | error e => cases e <;> rfl
          | ok result => rfl

theorem deleteRecords_restrict {t : TableDef J} (listed : t ∈ db.schema.tables)
    (kept : ∀ is S S' n, S ⊆ s.live → followAll follow is S = .ok (S', n) → S' ⊆ s.live)
    (resolves : ∀ x ∈ s.live, ∀ S ⊆ s.live,
      Database.deleteReferences follow' (db.edges x) (s.restrict S) = outcome s (followAll follow (db.edges x) S))
    {records : List (RecordAddress × Row J)} (stored : ∀ x ∈ records, x ∈ (s t.name).rows)
    {S : Set (Entry J)} (within : S ⊆ s.live) :
    (db.deleteRecords .cascade follow' t records (s.restrict S)).map
        (fun result => (records.length + result.1, result.2)) =
      outcome s (dropAll db.edges follow (records.map fun x => ⟨t.name, x.1, x.2⟩) S) := by
  induction records generalizing S with
  | nil => rfl
  | cons x rest ih =>
      rw [List.forall_mem_cons] at stored
      have live : (⟨t.name, x.1, x.2⟩ : Entry J) ∈ s.live := stored.1
      have references := (edges_ok valid live).1
      have below := resolves _ live S within
      rw [Database.deleteRecords, Database.resolveReferences, references]
      rw [List.map_cons, dropAll]
      change Except.map _ (Database.deleteReferences follow' (db.edges ⟨t.name, x.1, x.2⟩) (s.restrict S) >>=
        fun below => deleteRecord t x.1 x.2 below.2 >>=
          fun s => db.deleteRecords .cascade follow' t rest s >>=
            fun later => pure (below.1 + later.1, later.2)) = _
      rw [below]
      cases first : followAll follow (db.edges ⟨t.name, x.1, x.2⟩) S with
      | error e => cases e <;> rfl
      | ok result =>
          obtain ⟨S₁, n⟩ := result
          have within₁ := kept _ _ _ _ within first
          simp only [outcome, bind, Except.bind]
          rw [deleteRecord_restrict valid listed within₁ stored.1]
          by_cases there : (⟨t.name, x.1, x.2⟩ : Entry J) ∈ S₁
          · have next := ih stored.2 (Set.sdiff_subset.trans within₁ : S₁ \ {⟨t.name, x.1, x.2⟩} ⊆ s.live)
            rw [if_pos there, if_pos there]
            dsimp only
            cases inner : db.deleteRecords .cascade follow' t rest (s.restrict (S₁ \ {⟨t.name, x.1, x.2⟩})) with
            | error e =>
                rw [inner] at next
                cases dropped : dropAll db.edges follow (rest.map fun x => ⟨t.name, x.1, x.2⟩)
                    (S₁ \ {⟨t.name, x.1, x.2⟩}) with
                | error stop =>
                    rw [dropped] at next
                    cases stop <;> exact next
                | ok result =>
                    rw [dropped] at next
                    cases next
            | ok result =>
                obtain ⟨k, s₂⟩ := result
                rw [inner] at next
                cases dropped : dropAll db.edges follow (rest.map fun x => ⟨t.name, x.1, x.2⟩)
                    (S₁ \ {⟨t.name, x.1, x.2⟩}) with
                | error stop =>
                    rw [dropped] at next
                    cases stop <;> cases next
                | ok result =>
                    obtain ⟨S₂, m⟩ := result
                    rw [dropped] at next
                    obtain ⟨counted, rfl⟩ := Prod.mk.inj (Except.ok.inj next)
                    refine congrArg Except.ok (Prod.ext ?_ rfl)
                    change rest.length + 1 + (n + k) = n + 1 + m
                    have : rest.length + k = m := counted
                    omega
          · rw [if_neg there, if_neg there]
            rfl

end Loops

/-- Deletion with `Cascade` is the cascading removal of the collected records. -/
theorem delete_restrict (fuel : ℕ) {t : TableDef J} (listed : t ∈ db.schema.tables)
    {filter : Option (Filter J F)} {S : Set (Entry J)} (within : S ⊆ s.live)
    {records : List (RecordAddress × Row J)}
    (collected : db.collectMatchingRecords t filter (s.restrict S) = .ok records) :
    db.delete fuel t .cascade filter (s.restrict S) =
      outcome s (cascade db.edges (db.gather s) fuel (records.map fun x => ⟨t.name, x.1, x.2⟩) S) := by
  induction fuel generalizing t filter S records with
  | zero => rfl
  | succ fuel ih =>
      have stored : ∀ x ∈ records, x ∈ (s t.name).rows := fun x member =>
        (List.mem_filter.mp ((Database.mem_collect collected).mp member).1).1
      have leaves : ∀ r S S' n, S.Finite → cascade db.edges (db.gather s) fuel (db.gather s r S) S = .ok (S', n) →
          Leaves db.edges (db.Hits s) S { y | db.Hits s r y } S' n := follow_ok (gathers valid) fuel
      have finite : ∀ {S}, S ⊆ s.live → S.Finite := fun within => (live_finite valid).subset within
      have simulates : ∀ x ∈ s.live, ∀ r ∈ db.edges x, ∀ S ⊆ s.live,
          (do
            let t ← Failure.lift (db.schema.table r.table)
            db.delete fuel t .cascade (some (.eq r.column r.value)) (s.restrict S)) =
          outcome s (cascade db.edges (db.gather s) fuel (db.gather s r S) S) := by
        intro x live r edge S within
        obtain ⟨t', listed', name⟩ := (edges_ok valid live).2 r edge
        have found := DatabaseSchema.table_eq listed'
        rw [name] at found
        rw [found]
        refine (ih listed' within (Database.collect_eq Database.evaluates_eq)).trans ?_
        unfold Database.gather
        rw [found]
      have dropped : (db.deleteRecords .cascade (fun r s => do
            let t ← Failure.lift (db.schema.table r.table)
            db.delete fuel t .cascade (some (.eq r.column r.value)) s) t records (s.restrict S)).map
          (fun result => (records.length + result.1, result.2)) = _ := deleteRecords_restrict valid listed
        (fun is S S' n within run => (followAll_ok leaves (finite within) run).subset.trans within)
        (fun x live S within => deleteReferences_restrict
          (fun r S S' n within run => (leaves r S S' n (finite within) run).subset.trans within) within
          (simulates x live)) stored within
      refine Eq.trans ?_ dropped
      rw [Database.delete, collected]
      simp only [bind, Except.bind]
      cases db.deleteRecords .cascade _ t records (s.restrict S) <;> rfl

end Simulation
end WasmDbms
