import WasmDbms.Db.Cascade
import WasmDbms.Db.Write

/-!
# The end of a cascading deletion

A deletion only takes records away, so the nested calls of a record see no other
record than the stored ones. The calls come to an end when no chain of records, each
followed from the one before it, comes back to one of its records.
-/
namespace WasmDbms
open Cascade Result

variable {J F : Type} [LinearOrder J]

/-- Every record of the first state is one of the second. -/
def DbState.Within (s' s : DbState J) : Prop := ∀ name, (s' name).rows ⊆ (s name).rows

omit [LinearOrder J] in
theorem DbState.Within.refl (s : DbState J) : s.Within s := fun _ => List.Subset.refl _

omit [LinearOrder J] in
theorem DbState.Within.trans {a b c : DbState J} (first : a.Within b) (second : b.Within c) : a.Within c :=
  fun name => List.Subset.trans (first name) (second name)

omit [LinearOrder J] in
theorem DbState.Within.live {s' s : DbState J} (within : s'.Within s) : s'.live ⊆ s.live :=
  fun x there => within x.table there

/-- The nested deletions of a call with this fuel. -/
def Database.follow (db : Database J F) (fuel : ℕ) (r : DatabaseSchema.Reference J) (s : DbState J) :
    Except (Failure J) (ℕ × DbState J) := do
  let t ← Failure.lift (db.schema.table r.table)
  db.delete fuel t .cascade (some (.eq r.column r.value)) s

section Shrinks
variable {db : Database J F} {t : TableDef J}

theorem deleteRecord_within {address : RecordAddress} {values : Row J} {s s' : DbState J}
    (run : deleteRecord t address values s = .ok s') : s'.Within s := by
  obtain ⟨indexes, _, run⟩ := bind_eq_ok.mp run
  obtain rfl := pure_eq_ok.mp run
  intro name
  by_cases here : name = t.name
  · subst here
    rw [Function.update_self]
    exact List.filter_sublist.subset
  · rw [Function.update_of_ne here]
    exact List.Subset.refl _

theorem follow_within {fuel : ℕ} {r : DatabaseSchema.Reference J} {s s' : DbState J} {n : ℕ}
    (run : db.follow fuel r s = .ok (n, s')) : s'.Within s := by
  obtain ⟨t, lookup, run⟩ := bind_eq_ok.mp run
  have listed := (DatabaseSchema.table_ok (Failure.lift_eq_ok.mp lookup)).1
  exact delete_rule .refl (fun _ _ _ first second => second.trans first)
    (fun _ _ _ _ _ _ => deleteRecord_within) listed run

end Shrinks

section Fuel
variable {db : Database J F} {behaviour : DeleteBehavior} {t : TableDef J}
variable {follow follow' : DatabaseSchema.Reference J → DbState J → Except (Failure J) (ℕ × DbState J)}
variable (agree : ∀ r s, Settles .diverges (follow r s) (follow' r s))
include agree

end Fuel

section Ends
variable {db : Database J F} {t : TableDef J} {s : DbState J} {fuel : ℕ}

theorem deleteReferences_ends {references : List (DatabaseSchema.Reference J)} {s' : DbState J}
    (within : s'.Within s) (ends : ∀ r ∈ references, ∀ s', s'.Within s → db.follow fuel r s' ≠ .error .diverges) :
    Database.deleteReferences (db.follow fuel) references s' ≠ .error .diverges := by
  induction references generalizing s' with
  | nil => exact nofun
  | cons r rest ih =>
      rw [List.forall_mem_cons] at ends
      intro stop
      obtain first | ⟨⟨n, s₁⟩, first, stop⟩ := bind_eq_error.mp stop
      · exact ends.1 s' within first
      · obtain later | ⟨_, _, stop⟩ := bind_eq_error.mp stop
        · exact ih ((follow_within first).trans within) ends.2 later
        · cases stop

theorem deleteRecords_ends {records : List (RecordAddress × Row J)} {s' : DbState J} (within : s'.Within s)
    (ends : ∀ x ∈ records, ∀ r ∈ db.edges ⟨t.name, x.1, x.2⟩, ∀ s', s'.Within s →
      db.follow fuel r s' ≠ .error .diverges) :
    db.deleteRecords .cascade (db.follow fuel) t records s' ≠ .error .diverges := by
  induction records generalizing s' with
  | nil => exact nofun
  | cons x rest ih =>
      rw [List.forall_mem_cons] at ends
      intro stop
      obtain first | ⟨⟨n, s₁⟩, first, stop⟩ := bind_eq_error.mp stop
      · -- the references of the record, or the error of looking them up
        obtain lookup | ⟨references, lookup, first⟩ := bind_eq_error.mp first
        · exact Failure.lift_ne_diverges lookup
        · refine deleteReferences_ends within (fun r member => ends.1 r ?_) first
          cases found : db.schema.referencingColumns t.name x.2 with
          | error e =>
              rw [found] at lookup
              cases lookup
          | ok list =>
              rw [found] at lookup
              cases lookup
              unfold Database.edges
              rw [found]
              exact member
      · have shrinks : s₁.Within s' := resolveReferences_rule (R := fun a b => b.Within a) .refl
          (fun _ _ _ first second => second.trans first) (fun _ _ _ _ => follow_within) first
        have shrunk := shrinks.trans within
        obtain gone | ⟨s₂, gone, stop⟩ := bind_eq_error.mp stop
        · obtain missing | ⟨_, _, missing⟩ := bind_eq_error.mp gone
          · exact Failure.lift_ne_diverges missing
          · cases missing
        · obtain later | ⟨_, _, stop⟩ := bind_eq_error.mp stop
          · exact ih ((deleteRecord_within gone).trans shrunk) ends.2 later
          · cases stop

theorem collect_ends {filter : Option (Filter J F)} :
    db.collectMatchingRecords t filter s ≠ .error .diverges := by
  intro stop
  by_cases safe : db.Evaluates filter (db.access t filter (s t.name).rows)
  · rw [Database.collect_eq safe] at stop
    cases stop
  · obtain ⟨e, fails⟩ := Database.matching_fails safe
    have fails : db.collectMatchingRecords t filter s = .error (.error e) := fails
    rw [fails] at stop
    cases stop

/-- A deletion ends when the nested ones of the records it selects do. -/
theorem delete_ends {filter : Option (Filter J F)} {s' : DbState J} (within : s'.Within s)
    (ends : ∀ x ∈ s.live, x.table = t.name → db.Selects filter x.values → ∀ r ∈ db.edges x, ∀ s', s'.Within s →
      db.follow fuel r s' ≠ .error .diverges) :
    db.delete (fuel + 1) t .cascade filter s' ≠ .error .diverges := by
  intro stop
  obtain stop | ⟨records, collected, stop⟩ := bind_eq_error.mp stop
  · exact collect_ends stop
  · obtain loop | ⟨_, _, stop⟩ := bind_eq_error.mp stop
    · refine deleteRecords_ends within (fun x member => ?_) loop
      obtain ⟨row, selects⟩ := (Database.mem_collect collected).mp member
      exact ends ⟨t.name, x.1, x.2⟩ (within _ row) rfl selects
    · cases stop

end Ends

namespace Database
variable (db : Database J F)

/-- A call of `delete` ends with this result. -/
def Deletes (t : TableDef J) (behaviour : DeleteBehavior) (filter : Option (Filter J F)) (s : DbState J)
    (result : Except (Failure J) (ℕ × DbState J)) : Prop :=
  result ≠ .error .diverges ∧ ∃ fuel, ∀ fuel' ≥ fuel, db.delete fuel' t behaviour filter s = result

/-- The foreign key columns take a record for one that references another: `Null`
counts as a value there. -/
def Follows (s : DbState J) (x y : Entry J) : Prop := Child db.edges (db.Hits s) x y

end Database

section Returns
variable {db : Database J F} {s : DbState J}

end Returns

/-! ## A table that references itself -/

namespace Nodes

def id : ColumnDef := ⟨"id", .uint32, false, false, true, false, none⟩

def parent : ColumnDef := ⟨"parent", .uint32, false, true, false, false, some ⟨"parent", "nodes", "id"⟩⟩

/-- Nodes with a nullable reference to another node. -/
def table : TableDef ℕ where
  name := "nodes"
  columns := [id, parent]
  primaryKey := "id"
  indexes := [⟨["id"]⟩]
  sanitizer _ := none
  validator _ := none
  columnNames := by decide
  keyed := ⟨id, by decide, rfl, rfl⟩
  oneKey := by decide
  indexNames := by decide
  keyIndex := by decide

theorem foreign_key {t : TableDef ℕ} (listed : t ∈ [table]) {c : ColumnDef} (column : c ∈ t.columns)
    {fk : ForeignKeyDef} (key : c.foreignKey = some fk) :
    t = table ∧ c = parent ∧ fk = ⟨"parent", "nodes", "id"⟩ := by
  obtain rfl := List.mem_singleton.mp listed
  have cases : c = id ∨ c = parent := by simpa [table] using column
  rcases cases with rfl | rfl
  · cases key
  · exact ⟨rfl, rfl, (Option.some.inj key).symm⟩

def schema : DatabaseSchema ℕ where
  tables := [table]
  names := by decide
  local_ t listed c column fk key := by
    obtain ⟨_, rfl, rfl⟩ := foreign_key listed column key
    rfl
  foreign t listed c column fk key t' listed' _ := by
    obtain ⟨_, _, rfl⟩ := foreign_key listed column key
    obtain rfl := List.mem_singleton.mp listed'
    exact ⟨id, by decide, rfl⟩

/-- Filters without LIKE and JSON predicates. -/
def db : Database ℕ Empty := .scanning schema ⟨fun _ => .error "", fun f => f.elim, fun f => f.elim⟩

def empty : DbState ℕ := fun name => if name = "nodes" then ⟨[], [(["id"], [])]⟩ else ⟨[], []⟩

def node (key : UInt32) (parent_ : Value ℕ) : Row ℕ := [(id, .uint32 key), (parent, parent_)]

/-- One node without a parent. -/
def single : DbState ℕ :=
  Function.update empty "nodes" ⟨[(⟨0, 0⟩, node 1 .null)], [(["id"], [([.uint32 1], ⟨0, 0⟩)])]⟩

theorem insert_single : db.insert table (node 1 .null) empty = .ok single := rfl

theorem single_valid : single.Valid schema := by
  refine ⟨?_, ?_⟩
  · intro t listed
    obtain rfl := List.mem_singleton.mp listed
    refine ⟨?_, by decide, rfl, ?_⟩
    · intro x member
      obtain rfl := List.mem_singleton.mp member
      refine ⟨rfl, ?_⟩
      intro entry member
      have cases : entry = (id, .uint32 1) ∨ entry = (parent, .null) := by simpa [node] using member
      rcases cases with rfl | rfl
      · exact .inl rfl
      · exact .inr ⟨rfl, rfl⟩
    · intro index member
      obtain rfl := List.mem_singleton.mp member
      exact ⟨List.pairwise_singleton _ _, .refl _⟩
  · intro name other
    have ne : name ≠ "nodes" := fun same => other table (List.mem_singleton.mpr rfl) same.symm
    unfold single empty
    rw [Function.update_of_ne ne, if_neg ne]

theorem single_live {x : Entry ℕ} (live : x ∈ single.live) : x = ⟨"nodes", ⟨0, 0⟩, node 1 .null⟩ := by
  obtain ⟨t, listed, name, _⟩ : ∃ t ∈ db.schema.tables, t.name = x.table ∧ RowOf t.columns x.values :=
    single_valid.table live
  obtain rfl := List.mem_singleton.mp listed
  obtain ⟨_, address, values⟩ := x
  obtain rfl := name
  have member : (address, values) ∈ [((⟨0, 0⟩ : RecordAddress), node 1 .null)] := live
  obtain ⟨rfl, rfl⟩ := Prod.mk.inj (List.mem_singleton.mp member)
  rfl

/-- Its `Null` is not the key of a node. -/
theorem single_follows {x y : Entry ℕ} (live : x ∈ single.live) : ¬ db.Follows single x y := by
  rintro ⟨r, edge, liveY, _, chosen⟩
  obtain rfl := single_live live
  obtain rfl := single_live liveY
  obtain rfl : r = ⟨"nodes", "parent", .uint32 1⟩ := List.mem_singleton.mp edge
  cases chosen

/-- One node that is its own parent. -/
def looped : DbState ℕ :=
  Function.update single "nodes" ⟨[(⟨0, 0⟩, node 1 (.uint32 1))], [(["id"], [([.uint32 1], ⟨0, 0⟩)])]⟩

end Nodes

end WasmDbms
