import Mathlib.Data.Fintype.Order
import WasmDbms.Db.Termination

/-!
# What a cascading deletion removes

The records that reference a removed record through any chain of foreign keys, and
when the deletion comes to its end with exactly these gone.
-/
namespace WasmDbms
open Cascade

variable {J F : Type} [LinearOrder J]

/-- The record `y` references the record `x`: a foreign key of its table to the table
of `x` holds the value of the referenced column, which is not `Null`. -/
def References (schema : DatabaseSchema J) (x y : Entry J) : Prop :=
  ∃ t ∈ schema.tables, t.name = y.table ∧ ∃ c ∈ t.columns, ∃ fk, c.foreignKey = some fk ∧
    fk.foreignTable = x.table ∧ ∃ v, v ≠ .null ∧ findColumn c.name y.values = some v ∧
    findColumn fk.foreignColumn x.values = some v

namespace Database
variable (db : Database J F)

/-- The stored records the filter selects. -/
def selected (t : TableDef J) (filter : Option (Filter J F)) (s : DbState J) : Set (Entry J) :=
  { x | x ∈ s.live ∧ x.table = t.name ∧ db.Selects filter x.values }

/-- The records that go with these: all that reference one of them through a chain. -/
def descendants (s : DbState J) (A : Set (Entry J)) : Set (Entry J) :=
  { y | ∃ x ∈ A, Relation.ReflTransGen (fun a b => References db.schema a b ∧ b ∈ s.live) x y }

open Classical in
/-- The deletion removes exactly the selected records and their descendants, and
returns how many these are. -/
def RemovesDescendants (t : TableDef J) (filter : Option (Filter J F)) (s : DbState J) : Prop :=
  ∃ n s', db.Deletes t .cascade filter s (.ok (n, s')) ∧
    n = (db.descendants s (db.selected t filter s)).ncard ∧
    ∀ name, (s' name).rows = (s name).rows.filter fun x =>
      decide (⟨name, x.1, x.2⟩ ∉ db.descendants s (db.selected t filter s))

open Classical in
/-- The records of a table that a filter selects, in the order they are collected. -/
noncomputable def batch (t : TableDef J) (filter : Option (Filter J F)) (s : DbState J) : List (Entry J) :=
  ((db.access t filter (s t.name).rows).filter fun x => decide (db.Selects filter x.2)).map
    fun x => ⟨t.name, x.1, x.2⟩

end Database

section Facts
variable {db : Database J F} {s : DbState J} (valid : s.Valid db.schema)
include valid

open Classical in
theorem restrict_live : s.restrict s.live = s := by
  funext name
  by_cases known : ∃ t ∈ db.schema.tables, t.name = name
  · obtain ⟨t, listed, rfl⟩ := known
    have stored := valid.stored t listed
    unfold DbState.restrict
    have rows : ((s t.name).rows.filter fun r => decide ((⟨t.name, r.1, r.2⟩ : Entry J) ∈ s.live)) =
        (s t.name).rows := List.filter_eq_self.mpr fun r member => decide_eq_true member
    have indexes : ((s t.name).indexes.map fun index => (index.1, index.2.filter fun e =>
        decide (∃ values, (⟨t.name, e.2, values⟩ : Entry J) ∈ s.live))) = (s t.name).indexes := by
      conv_rhs => rw [← List.map_id (s t.name).indexes]
      apply List.map_congr_left
      intro index indexed
      refine Prod.ext rfl (List.filter_eq_self.mpr fun e member => decide_eq_true ?_)
      obtain ⟨r, row, rfl⟩ := (stored.mem_entries indexed).mp member
      exact ⟨r.2, row⟩
    rw [rows, indexes]
  · have empty := valid.others name fun t listed same => known ⟨t, listed, same⟩
    unfold DbState.restrict
    rw [empty]
    rfl

omit valid in
theorem mem_batch {t : TableDef J} {filter : Option (Filter J F)} {x : Entry J} :
    x ∈ db.batch t filter s ↔ x ∈ db.selected t filter s := by
  simp only [Database.batch, List.mem_map, List.mem_filter, decide_eq_true_eq, Database.access_selects,
    Database.selected, Set.mem_ofPred_eq]
  constructor
  · rintro ⟨r, ⟨row, chosen⟩, rfl⟩
    exact ⟨row, rfl, chosen⟩
  · rintro ⟨live, table, chosen⟩
    obtain ⟨_, address, values⟩ := x
    obtain rfl := table
    exact ⟨(address, values), ⟨live, chosen⟩, rfl⟩

omit valid in
/-- An equality selects the rows that hold its value. -/
theorem selects_eq {name : String} {value : Value J} {values : Row J} (held : findColumn name values = some value) :
    db.Selects (some (.eq name value)) values := by
  unfold findColumn at held
  obtain ⟨entry, found, rfl⟩ := Option.map_eq_some_iff.mp held
  have here := List.find?_some found
  refine congrArg Except.ok ?_
  exact List.any_eq_true.mpr ⟨entry, List.mem_of_find?_eq_some found, by simpa using here⟩

/-- A record that references another is followed. -/
theorem follows_of_references {x y : Entry J} (liveX : x ∈ s.live) (liveY : y ∈ s.live)
    (references : References db.schema x y) : db.Follows s x y := by
  obtain ⟨t', listed', name', c, column, fk, key, points, v, _, held, value⟩ := references
  obtain ⟨t, listed, name, row⟩ := valid.table liveX
  obtain ⟨refs, run, members⟩ := DatabaseSchema.referencingColumns_ok listed row
  rw [name] at run
  refine ⟨⟨y.table, c.name, v⟩, ?_, liveY, rfl, ?_⟩
  · unfold Database.edges
    rw [run]
    exact (members _).mpr ⟨t', listed', c, column, fk, key, points.trans name.symm, name'.symm, rfl, value⟩
  · exact selects_eq held

/-- The deletion from the whole database. -/
theorem delete_eq_outcome (fuel : ℕ) {t : TableDef J} (listed : t ∈ db.schema.tables)
    {filter : Option (Filter J F)} (safe : db.Evaluates filter (db.access t filter (s t.name).rows)) :
    db.delete fuel t .cascade filter s =
      outcome s (cascade db.edges (db.gather s) fuel (db.batch t filter s) s.live) := by
  have collected : db.collectMatchingRecords t filter (s.restrict s.live) = _ :=
    Database.collect_eq (by rwa [restrict_live valid])
  have deleted := delete_restrict valid fuel listed subset_rfl collected
  rw [restrict_live valid] at deleted
  exact deleted

omit valid in
/-- A filter that raises an error ends the deletion. -/
theorem delete_not_evaluated {t : TableDef J} {filter : Option (Filter J F)} {behaviour : DeleteBehavior}
    (raises : ¬ db.Evaluates filter (db.access t filter (s t.name).rows)) :
    ∃ e, db.Deletes t behaviour filter s (.error (.error e)) := by
  obtain ⟨e, raised⟩ := Database.matching_fails raises
  have failed : db.collectMatchingRecords t filter s = .error (.error e) := raised
  refine ⟨e, by simp, 1, ?_⟩
  intro fuel positive
  obtain ⟨fuel, rfl⟩ : ∃ k, fuel = k + 1 := ⟨fuel - 1, by omega⟩
  rw [Database.delete, failed]
  rfl

end Facts

section Exact
variable {db : Database J F} {s : DbState J} (valid : s.Valid db.schema)
variable {t : TableDef J} (listed : t ∈ db.schema.tables) {filter : Option (Filter J F)}
include valid listed

theorem deletes_iff (safe : db.Evaluates filter (db.access t filter (s t.name).rows)) {result : Except (Failure J) (ℕ × DbState J)} :
    db.Deletes t .cascade filter s result ↔ result ≠ .error .diverges ∧
      ∃ fuel, outcome s (cascade db.edges (db.gather s) fuel (db.batch t filter s) s.live) = result := by
  refine and_congr_right fun done => ⟨?_, ?_⟩
  · rintro ⟨fuel, ends⟩
    exact ⟨fuel, (delete_eq_outcome valid fuel listed safe).symm.trans (ends fuel (Nat.le_refl _))⟩
  · rintro ⟨fuel, rfl⟩
    refine ⟨fuel, fun fuel' deep => ?_⟩
    rw [delete_eq_outcome valid fuel' listed safe]
    refine congrArg (outcome s) (cascade_le deep fun stop => ?_)
    rw [stop] at done
    exact done rfl

omit listed in
/-- What is followed from the selected records, and what is removed with them. -/
theorem followed_eq_descendants
    (closed : ∀ x ∈ db.descendants s (db.selected t filter s), ∀ y, db.Follows s x y →
      y ∈ db.descendants s (db.selected t filter s)) :
    reached db.edges (db.Hits s) s.live { x | x ∈ db.batch t filter s } =
      db.descendants s (db.selected t filter s) := by
  ext y
  constructor
  · rintro ⟨x, member, _, path⟩
    induction path with
    | refl => exact ⟨x, mem_batch.mp member, .refl⟩
    | tail _ last ih => exact closed _ ih _ last.1
  · rintro ⟨x, chosen, path⟩
    refine ⟨x, mem_batch.mpr chosen, chosen.1, ?_⟩
    have live : x ∈ s.live := chosen.1
    have both : y ∈ s.live ∧ Relation.ReflTransGen (fun a b => Child db.edges (db.Hits s) a b ∧ b ∈ s.live) x y := by
      induction path with
      | refl => exact ⟨live, .refl⟩
      | tail _ last ih =>
          exact ⟨last.2, ih.2.tail ⟨follows_of_references valid ih.1 last.2 last.1, last.2⟩⟩
    exact both.2

omit valid listed [LinearOrder J] in
open Classical in
/-- The rows that are left when records are removed. -/
theorem restrict_rows (D : Set (Entry J)) (name : String) :
    (s.restrict (s.live \ D) name).rows =
      (s name).rows.filter fun x => decide ((⟨name, x.1, x.2⟩ : Entry J) ∉ D) := by
  apply List.filter_congr
  intro x member
  rw [decide_eq_decide]
  exact ⟨fun kept => kept.2, fun free => ⟨member, free⟩⟩

omit valid listed [LinearOrder J] in
theorem eq_of_rows {S D : Set (Entry J)} (inS : S ⊆ s.live) (inD : D ⊆ s.live)
    (rows : ∀ name, (s.restrict (s.live \ S) name).rows = (s.restrict (s.live \ D) name).rows) : S = D := by
  have removed : ∀ x ∈ s.live, x ∈ S ↔ x ∈ D := by
    intro x live
    have same := congrArg (fun l => (x.address, x.values) ∈ l) (rows x.table)
    have there : (x.address, x.values) ∈ (s x.table).rows := live
    simp only [restrict_rows, List.mem_filter, there, true_and, decide_eq_true_eq, eq_iff_iff] at same
    exact not_iff_not.mp same
  ext x
  exact ⟨fun member => (removed x (inS member)).mp member, fun member => (removed x (inD member)).mpr member⟩

omit valid listed in
theorem descendants_live : db.descendants s (db.selected t filter s) ⊆ s.live := by
  rintro y ⟨x, chosen, path⟩
  cases path with
  | refl => exact chosen.1
  | tail _ last => exact last.2

/-- Deletion with `Cascade` removes the selected records with all that reference them
through a chain if and only if the filter raises no error, no collected batch has a
record after one it descends from, and a `Null` reference leads to no other record. -/
theorem cascade_removes_descendants_iff : db.RemovesDescendants t filter s ↔
    db.Evaluates filter (db.access t filter (s t.name).rows) ∧
    Orderly db.edges (db.Hits s) (db.gather s) s.live (db.batch t filter s) ∧
    ∀ x ∈ db.descendants s (db.selected t filter s), ∀ y, db.Follows s x y →
      y ∈ db.descendants s (db.selected t filter s) := by
  have finite := live_finite valid
  constructor
  · rintro ⟨n, s', deletes, _, rows⟩
    have safe : db.Evaluates filter (db.access t filter (s t.name).rows) := by
      apply Classical.byContradiction
      intro raises
      obtain ⟨e, _, fuel, fails⟩ : ∃ e, db.Deletes t .cascade filter s (.error (.error e)) :=
        delete_not_evaluated raises
      obtain ⟨_, fuel', ends⟩ := deletes
      have failed := fails (max fuel fuel') (Nat.le_max_left _ _)
      rw [ends _ (Nat.le_max_right _ _)] at failed
      cases failed
    obtain ⟨_, fuel, ended⟩ := (deletes_iff valid listed safe).mp deletes
    cases run : cascade db.edges (db.gather s) fuel (db.batch t filter s) s.live with
    | error stop =>
        rw [run] at ended
        cases stop <;> cases ended
    | ok result =>
        obtain ⟨S', m⟩ := result
        rw [run] at ended
        obtain ⟨rfl, rfl⟩ := Prod.mk.inj (Except.ok.inj ended)
        have leaves := cascade_ok (gathers valid) finite run
        refine ⟨safe, .of_ok (gathers valid) finite run, ?_⟩
        have same : reached db.edges (db.Hits s) s.live { x | x ∈ db.batch t filter s } =
            db.descendants s (db.selected t filter s) := by
          refine eq_of_rows reached_subset descendants_live fun name => ?_
          rw [← leaves.rest, rows, restrict_rows]
        intro x member y follows
        rw [← same] at member ⊢
        have live : y ∈ s.live := by
          obtain ⟨_, _, there, _⟩ := follows
          exact there
        exact reached_child member follows live
  · rintro ⟨safe, orderly, closed⟩
    have present : ∀ x ∈ db.batch t filter s, x ∈ s.live := fun x member => (mem_batch.mp member).1
    obtain ⟨fuel, ⟨S', m⟩, run⟩ := orderly.complete (gathers valid) finite present
    have leaves := cascade_ok (gathers valid) finite run
    have same := followed_eq_descendants valid closed
    refine ⟨m, s.restrict S', (deletes_iff valid listed safe).mpr ⟨by simp, fuel, by rw [run]; rfl⟩, ?_, ?_⟩
    · have counted := leaves.count
      have within : db.descendants s (db.selected t filter s) ⊆ s.live := descendants_live
      have split := Set.ncard_sdiff_add_ncard_of_subset within finite
      rw [leaves.rest, same] at counted
      omega
    · intro name
      rw [leaves.rest, same]
      exact restrict_rows _ name

end Exact

namespace Nodes

/-- The node is removed, and nothing else. -/
theorem removes_descendants_single : db.RemovesDescendants table none single := by
  refine (cascade_removes_descendants_iff single_valid (List.mem_singleton.mpr rfl)).mpr ⟨?_, ?_, ?_⟩
  · exact fun _ _ => ⟨true, rfl⟩
  · refine .of_childless (gathers single_valid) ?_ (fun x live _ _ => single_follows live)
      fun x member => (mem_batch.mp member).1
    have rows : (single "nodes").rows.Nodup := by decide
    unfold Database.batch
    refine List.Nodup.map (fun a b same => ?_) ((Database.access_nodup rows).filter _)
    exact Prod.ext (congrArg Entry.address same) (congrArg Entry.values same)
  · intro x member y follows
    exact absurd follows (single_follows (descendants_live member))

/-- A node and its child. -/
def pair : DbState ℕ :=
  Function.update single "nodes" ⟨[(⟨0, 0⟩, node 1 .null), (⟨1, 0⟩, node 2 (.uint32 1))],
    [(["id"], [([.uint32 1], ⟨0, 0⟩), ([.uint32 2], ⟨1, 0⟩)])]⟩

theorem insert_pair : db.insert table (node 2 (.uint32 1)) single = .ok pair := rfl

/-- The child goes first with the node; the batch still holds it. -/
theorem delete_pair (fuel : ℕ) :
    db.delete (fuel + 3) table .cascade none pair = .error (.error (.memory .entryNotFound)) := rfl

theorem pair_references {x y : Entry ℕ} (liveX : x ∈ pair.live) (liveY : y ∈ pair.live)
    (references : References schema x y) : x.address.page < y.address.page := by
  obtain ⟨t, listed, name, c, column, fk, key, points, v, _, held, value⟩ := references
  obtain ⟨rfl, rfl, rfl⟩ := foreign_key listed column key
  obtain ⟨_, addressX, valuesX⟩ := x
  obtain ⟨_, addressY, valuesY⟩ := y
  obtain rfl := name
  obtain rfl := points
  have memberX : (addressX, valuesX) ∈ (pair "nodes").rows := liveX
  have memberY : (addressY, valuesY) ∈ (pair "nodes").rows := liveY
  simp only [pair, Function.update_self, List.mem_cons, List.not_mem_nil, or_false, Prod.mk.injEq]
    at memberX memberY
  rcases memberX with ⟨rfl, rfl⟩ | ⟨rfl, rfl⟩ <;> rcases memberY with ⟨rfl, rfl⟩ | ⟨rfl, rfl⟩
  · cases held
    cases value
  · exact Nat.zero_lt_one
  · cases held
    cases value
  · cases held
    cases value

/-- A node and a child of it are inserted; no node references itself through a chain,
and the deletion of all nodes fails. -/
theorem cascade_fails_on_descendant : ∃ s₁ s₂, db.insert table (node 1 .null) empty = .ok s₁ ∧
    db.insert table (node 2 (.uint32 1)) s₁ = .ok s₂ ∧
    (∀ x ∈ s₂.live, ¬ Relation.TransGen (fun a b => References db.schema a b ∧ b ∈ s₂.live) x x) ∧
    ¬ db.RemovesDescendants table none s₂ := by
  refine ⟨single, pair, insert_single, insert_pair, ?_, ?_⟩
  · have forward : ∀ x ∈ pair.live, ∀ y, Relation.TransGen (fun a b => References db.schema a b ∧ b ∈ pair.live) x y →
        y ∈ pair.live ∧ x.address.page < y.address.page := by
      intro x live y path
      induction path with
      | single step => exact ⟨step.2, pair_references live step.2 step.1⟩
      | tail _ step ih => exact ⟨step.2, ih.2.trans (pair_references ih.1 step.2 step.1)⟩
    exact fun x live cycle => Nat.lt_irrefl _ (forward x live x cycle).2
  · rintro ⟨n, s', ⟨_, fuel, ends⟩, _⟩
    have fails := delete_pair fuel
    rw [ends (fuel + 3) (by omega)] at fails
    cases fails

end Nodes

end WasmDbms
