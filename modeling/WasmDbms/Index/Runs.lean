import Mathlib.Data.Multiset.Filter
import WasmDbms.Index.Cuts
import WasmDbms.Index.Fuel
import WasmDbms.Index.Update
import WasmDbms.Index.Walk

/-!
# Runs of an index tree

Sequences of calls on a tree from its creation on, and the finite multiset of
pairs they leave. The loops of the tree have no bound in the source: a call
ends with what it gives for all large enough fuels.
-/
namespace WasmDbms
open Bisect MemoryManager

/-- The call fails, with enough fuel. -/
def MemoryManager.Aborts {α : Type} (m : MemoryManager) (p : Nat → Prog α) (fault : Fault)
    (m' : MemoryManager) : Prop :=
  ∃ enough, ∀ fuel, enough ≤ fuel → m.Fails (p fuel) fault m'

variable {K : Type} [Key K]

/-- A call that changes a tree. -/
inductive IndexCall (K : Type) where
  | insert (key : K) (pointer : RecordAddress)
  | delete (key : K) (pointer : RecordAddress)
  | update (key : K) (oldPointer newPointer : RecordAddress)
  deriving DecidableEq, Repr

namespace IndexCall

def prog (tree : IndexTree) : IndexCall K → Nat → Prog IndexTree
  | .insert key pointer, fuel => tree.insert fuel key pointer
  | .delete key pointer, fuel => do
      tree.delete fuel key pointer
      return tree
  | .update key oldPointer newPointer, fuel => tree.update fuel key oldPointer newPointer

/-- The new pointer has a `u32` page and a `u16` offset. -/
def Typed : IndexCall K → Prop
  | .insert _ pointer => pointer.InRange
  | .delete _ _ => True
  | .update _ _ newPointer => newPointer.InRange

/-- What a call does to the stored pairs. -/
inductive Effect : IndexCall K → Multiset (LeafEntry K) → Multiset (LeafEntry K) → Prop where
  | insert {key pointer pairs} : Effect (.insert key pointer) pairs (⟨key, pointer⟩ ::ₘ pairs)
  | delete {key pointer e pairs} (hit : hits key pointer e = true) :
      Effect (.delete key pointer) (e ::ₘ pairs) pairs
  | update {key oldPointer newPointer e pairs} (hit : hits key oldPointer e = true) :
      Effect (.update key oldPointer newPointer) (e ::ₘ pairs) (⟨key, newPointer⟩ ::ₘ pairs)

/-- What a sequence of calls does to the stored pairs. -/
inductive Effects : List (IndexCall K) → Multiset (LeafEntry K) → Multiset (LeafEntry K) → Prop where
  | none {pairs} : Effects [] pairs pairs
  | more {calls call pairs pairs' pairs''} (earlier : Effects calls pairs pairs')
      (last : Effect call pairs' pairs'') : Effects (calls ++ [call]) pairs pairs''

/-- The pair a call needs is not stored. -/
def Absent (pairs : Multiset (LeafEntry K)) : IndexCall K → Prop
  | .insert _ _ => False
  | .delete key pointer => ∀ e ∈ pairs, hits key pointer e = false
  | .update key oldPointer _ => ∀ e ∈ pairs, hits key oldPointer e = false

end IndexCall

/-- A sequence of calls on a tree: those that return are counted, those that
report a missing entry may come between them. -/
inductive IndexRun : IndexTree → MemoryManager → List (IndexCall K) → IndexTree → MemoryManager → Prop where
  | start {tree m} : IndexRun tree m [] tree m
  | call {tree₀ m₀ calls tree m tree' m'} (earlier : IndexRun tree₀ m₀ calls tree m) (c : IndexCall K)
      (typed : c.Typed) (returns : m.Ends (c.prog tree) tree' m') : IndexRun tree₀ m₀ (calls ++ [c]) tree' m'
  | missing {tree₀ m₀ calls tree m m'} (earlier : IndexRun tree₀ m₀ calls tree m) (c : IndexCall K)
      (reports : m.Aborts (c.prog tree) (.error .entryNotFound) m') : IndexRun tree₀ m₀ calls tree m'

/-- `search` returns the pointers paired with a key, with multiplicity. -/
def SearchExact (tree : IndexTree) (m : MemoryManager) (pairs : Multiset (LeafEntry K)) : Prop :=
  ∀ key : K, ∃ found : List RecordAddress, m.Ends (fun fuel => tree.search fuel key) found m ∧
    (found : Multiset RecordAddress) = (pairs.filter fun e => Key.same e.key key = true).map LeafEntry.pointer

/-- The tree behaves as a multiset of pairs. -/
structure RefinesMultiset (tree : IndexTree) (m : MemoryManager) (pairs : Multiset (LeafEntry K)) : Prop where
  search : SearchExact tree m pairs
  effect : ∀ (c : IndexCall K) tree' m', c.Typed → m.Ends (c.prog tree) tree' m' →
    ∃ pairs', c.Effect pairs pairs' ∧ SearchExact tree' m' pairs'
  removable : ∀ (key : K) pointer, (∃ e ∈ pairs, hits key pointer e = true) →
    ∃ m', m.Ends (fun fuel => tree.delete fuel key pointer) () m'
  missing : ∀ c : IndexCall K, (∃ m', m.Aborts (c.prog tree) (.error .entryNotFound) m') ↔ c.Absent pairs
  unchanged : ∀ (c : IndexCall K) m', m.Aborts (c.prog tree) (.error .entryNotFound) m' → m' = m

/-- The tree is in order and stores these pairs. -/
def TreeHolds (other : Nat → Prop) (tree : IndexTree) (m : MemoryManager) (pairs : Multiset (LeafEntry K)) :
    Prop :=
  ∃ (nodes : Nodes K) (height : Nat), IndexInv tree m nodes height other ∧
    (IndexInv.entries nodes height tree : Multiset (LeafEntry K)) = pairs

namespace TreeHolds

variable {other : Nat → Prop} {tree tree' : IndexTree} {m m' : MemoryManager} {pairs : Multiset (LeafEntry K)}

theorem searchExact (holds : TreeHolds other tree m pairs) : SearchExact tree m pairs := by
  obtain ⟨nodes, height, inv, rfl⟩ := holds
  intro key
  refine ⟨(matching key (IndexInv.entries nodes height tree)).map LeafEntry.pointer,
    ⟨height + 1 + (IndexInv.leafPages nodes height tree).length, fun fuel enough => ?_⟩, ?_⟩
  · exact inv.search_runs key (by omega) (by omega)
  · rw [Multiset.filter_coe, Multiset.map_coe]
    unfold matching
    simp

/-- An insertion adds its pair. -/
theorem insert_runs {fuel : Nat} {key : K} {pointer : RecordAddress} (holds : TreeHolds other tree m pairs)
    (range : pointer.InRange) (run : m.Runs (tree.insert fuel key pointer) tree' m') :
    TreeHolds other tree' m' (⟨key, pointer⟩ ::ₘ pairs) := by
  obtain ⟨nodes, height, inv, rfl⟩ := holds
  obtain ⟨nodes', height', inv', _, perm⟩ := inv.insert_runs range run
  refine ⟨nodes', height', inv', ?_⟩
  rw [Multiset.cons_coe, Multiset.coe_eq_coe]
  exact perm

/-- From some fuel on a deletion removes a pair, or reports that there is none. -/
theorem delete_cases (holds : TreeHolds other tree m pairs) (key : K) (pointer : RecordAddress) :
    ∃ enough, ∀ fuel, enough ≤ fuel →
      (∃ e rest m', hits key pointer e = true ∧ pairs = e ::ₘ rest ∧
        m.Runs (tree.delete fuel key pointer) () m' ∧ TreeHolds other tree m' rest) ∨
      ((∀ e ∈ pairs, hits key pointer e = false) ∧
        m.Fails (tree.delete fuel key pointer) (.error .entryNotFound) m) := by
  obtain ⟨nodes, height, inv, rfl⟩ := holds
  refine ⟨height + 1 + (IndexInv.leafPages nodes height tree).length, fun fuel enough => ?_⟩
  by_cases present : ∃ e ∈ IndexInv.entries nodes height tree, hits key pointer e = true
  · have deep : height < fuel := by omega
    obtain ⟨nodes', m', e, run, inv', hit, perm, _, _⟩ := inv.delete_runs deep (by omega) present
    refine .inl ⟨e, IndexInv.entries nodes' height tree, m', hit, ?_, run, nodes', height, inv', rfl⟩
    rw [Multiset.cons_coe, Multiset.coe_eq_coe]
    exact perm
  · have absent : ∀ e ∈ IndexInv.entries nodes height tree, hits key pointer e = false := by
      intro e member
      cases hit : hits key pointer e with
      | false => rfl
      | true => exact absurd ⟨e, member, hit⟩ present
    exact .inr ⟨absent, inv.delete_fails (by omega) (by omega) absent⟩

theorem delete_ends {key : K} {pointer : RecordAddress} (holds : TreeHolds other tree m pairs)
    (returns : ∃ enough, ∀ fuel, enough ≤ fuel → m.Runs (tree.delete fuel key pointer) () m') :
    ∃ e rest, hits key pointer e = true ∧ pairs = e ::ₘ rest ∧ TreeHolds other tree m' rest := by
  obtain ⟨low, returns⟩ := returns
  obtain ⟨high, outcome⟩ := holds.delete_cases key pointer
  have run := returns (max low high) (Nat.le_max_left _ _)
  rcases outcome (max low high) (Nat.le_max_right _ _) with ⟨e, rest, m₁, hit, split, run', holds'⟩ | ⟨_, fails⟩
  · obtain ⟨_, rfl⟩ := run.det run'
    exact ⟨e, rest, hit, split, holds'⟩
  · exact absurd (run.symm.trans fails) (by simp)

/-- A call that returns has its effect on the stored pairs. -/
theorem call_ends {c : IndexCall K} (holds : TreeHolds other tree m pairs) (typed : c.Typed)
    (returns : m.Ends (c.prog tree) tree' m') :
    ∃ pairs', c.Effect pairs pairs' ∧ TreeHolds other tree' m' pairs' := by
  cases c with
  | insert key pointer =>
      obtain ⟨enough, runs⟩ := returns
      exact ⟨_, .insert, holds.insert_runs typed (runs enough (Nat.le_refl _))⟩
  | delete key pointer =>
      obtain ⟨enough, runs⟩ := returns
      have first : ∀ fuel, enough ≤ fuel → m.Runs (tree.delete fuel key pointer) () m' ∧ tree' = tree := by
        intro fuel large
        obtain ⟨_, m₁, deleted, rest⟩ := runs_bind.mp (runs fuel large)
        obtain ⟨same, rfl⟩ := runs_pure.mp rest
        exact ⟨deleted, same.symm⟩
      obtain rfl := (first enough (Nat.le_refl _)).2
      obtain ⟨e, rest, hit, rfl, holds'⟩ := holds.delete_ends ⟨enough, fun fuel large => (first fuel large).1⟩
      exact ⟨rest, .delete hit, holds'⟩
  | update key oldPointer newPointer =>
      obtain ⟨low, runs⟩ := returns
      obtain ⟨high, outcome⟩ := holds.delete_cases key oldPointer
      obtain ⟨_, m₁, deleted, inserted⟩ := runs_bind.mp (runs (max low high) (Nat.le_max_left _ _))
      rcases outcome (max low high) (Nat.le_max_right _ _) with ⟨e, rest, m₂, hit, rfl, run, holds'⟩ | ⟨_, fails⟩
      · obtain ⟨_, rfl⟩ := deleted.det run
        exact ⟨_, .update hit, holds'.insert_runs typed inserted⟩
      · exact absurd (deleted.symm.trans fails) (by simp)

/-- From some fuel on a call reports a missing pair, with the memory as it was, or it does not. -/
theorem missing_cases (holds : TreeHolds other tree m pairs) (c : IndexCall K) :
    ∃ enough, ∀ fuel, enough ≤ fuel → (c.Absent pairs ∧ m.Fails (c.prog tree fuel) (.error .entryNotFound) m) ∨
      (¬ c.Absent pairs ∧ NotMissing m (c.prog tree fuel)) := by
  cases c with
  | insert key pointer =>
      obtain ⟨nodes, height, inv, _⟩ := holds
      exact ⟨0, fun fuel _ => .inr ⟨id, inv.insert_notMissing⟩⟩
  | delete key pointer =>
      obtain ⟨enough, outcome⟩ := holds.delete_cases key pointer
      refine ⟨enough, fun fuel large => ?_⟩
      rcases outcome fuel large with ⟨e, rest, m₁, hit, rfl, run, _⟩ | ⟨absent, fails⟩
      · refine .inr ⟨fun absent => ?_, (notMissing_of_runs run).bind fun _ _ _ => notMissing_pure _⟩
        rw [absent e (Multiset.mem_cons_self e rest)] at hit
        cases hit
      · exact .inl ⟨absent, fails.then_stops _⟩
  | update key oldPointer newPointer =>
      obtain ⟨enough, outcome⟩ := holds.delete_cases key oldPointer
      refine ⟨enough, fun fuel large => ?_⟩
      rcases outcome fuel large with ⟨e, rest, m₁, hit, rfl, run, holds'⟩ | ⟨absent, fails⟩
      · refine .inr ⟨fun absent => ?_, (notMissing_of_runs run).bind fun _ m₂ deleted => ?_⟩
        · rw [absent e (Multiset.mem_cons_self e rest)] at hit
          cases hit
        · obtain ⟨_, rfl⟩ := deleted.det run
          obtain ⟨nodes, height, inv, _⟩ := holds'
          exact inv.insert_notMissing
      · exact .inl ⟨absent, fails.then_stops _⟩

theorem missing_iff (holds : TreeHolds other tree m pairs) (c : IndexCall K) :
    (∃ m', m.Aborts (c.prog tree) (.error .entryNotFound) m') ↔ c.Absent pairs := by
  obtain ⟨high, outcome⟩ := holds.missing_cases c
  constructor
  · rintro ⟨m', low, fails⟩
    rcases outcome (max low high) (Nat.le_max_right _ _) with ⟨absent, _⟩ | ⟨_, found⟩
    · exact absent
    · exact absurd (fails (max low high) (Nat.le_max_left _ _)) (found m')
  · intro absent
    refine ⟨m, high, fun fuel large => ?_⟩
    rcases outcome fuel large with ⟨_, fails⟩ | ⟨present, _⟩
    · exact fails
    · exact absurd absent present

theorem missing_keeps {c : IndexCall K} (holds : TreeHolds other tree m pairs)
    (reports : m.Aborts (c.prog tree) (.error .entryNotFound) m') : m' = m := by
  obtain ⟨low, fails⟩ := reports
  obtain ⟨high, outcome⟩ := holds.missing_cases c
  have last := fails (max low high) (Nat.le_max_left _ _)
  rcases outcome (max low high) (Nat.le_max_right _ _) with ⟨_, fails'⟩ | ⟨_, found⟩
  · have both := last.symm.trans fails'
    simpa using both
  · exact absurd last (found m')

theorem refines (holds : TreeHolds other tree m pairs) : RefinesMultiset tree m pairs where
  search := holds.searchExact
  effect := by
    intro c tree' m' typed returns
    obtain ⟨pairs', effect, holds'⟩ := holds.call_ends typed returns
    exact ⟨pairs', effect, holds'.searchExact⟩
  removable := by
    rintro key pointer ⟨e, member, hit⟩
    obtain ⟨enough, outcome⟩ := holds.delete_cases key pointer
    rcases outcome enough (Nat.le_refl _) with ⟨_, _, m', _, _, run, _⟩ | ⟨absent, _⟩
    · exact ⟨m', Approx.ends (IndexTree.delete_more tree key pointer) run⟩
    · rw [absent e member] at hit
      cases hit
  missing := holds.missing_iff
  unchanged := fun _ _ reports => holds.missing_keeps reports

end TreeHolds

/-- Every run keeps the tree in order, with the pairs its calls leave. -/
theorem IndexRun.holds {other : Nat → Prop} {tree₀ tree : IndexTree} {m₀ m : MemoryManager}
    {calls : List (IndexCall K)} (run : IndexRun tree₀ m₀ calls tree m) (empty : TreeHolds other tree₀ m₀ (0 : Multiset (LeafEntry K))) :
    ∃ pairs, IndexCall.Effects calls 0 pairs ∧ TreeHolds other tree m pairs := by
  induction run with
  | start => exact ⟨0, .none, empty⟩
  | call earlier c typed returns ih =>
      obtain ⟨pairs, effects, holds⟩ := ih
      obtain ⟨pairs', effect, holds'⟩ := holds.call_ends typed returns
      exact ⟨pairs', .more effects effect, holds'⟩
  | missing earlier c reports ih =>
      obtain ⟨pairs, effects, holds⟩ := ih
      obtain rfl := holds.missing_keeps reports
      exact ⟨pairs, effects, holds⟩

/-- A new tree is empty. -/
theorem IndexTree.init_holds {other : Nat → Prop} {m m' : MemoryManager} {tree : IndexTree}
    (supply : PageSupply m other) (created : m.Runs (IndexTree.init K) tree m') :
    TreeHolds other tree m' (0 : Multiset (LeafEntry K)) := by
  simp only [IndexTree.init, runs_bind, runs_pure] at created
  obtain ⟨page, m₁, claimed, _, _, flushed, rfl, rfl⟩ := created
  have range : (NodeBody.leaf ⟨[], none, none⟩ : NodeBody K).InRange :=
    ⟨fun _ h => (by cases h), fun _ h => (by cases h), by simp⟩
  obtain ⟨fresh, holds, _, supply'⟩ := claim_flush supply claimed flushed rfl rfl range rfl
  refine ⟨fun _ => .leaf ⟨[], none, none⟩, 0, ⟨⟨?_, ?_, ?_, ?_⟩, ?_, ?_, ?_⟩, rfl⟩
  · exact fun x _ => ⟨_, rfl⟩
  · simp [nodePages]
  · exact ⟨⟨_, rfl, rfl, rfl⟩, trivial⟩
  · exact ⟨by simp [Ascending, leaves], by simp [leafEntries], by simp [leaves], by simp [leafEntries]⟩
  · intro q member
    obtain rfl := List.mem_singleton.mp member
    exact holds
  · exact supply'.congr fun q => by simp [nodePages]
  · intro q member
    obtain rfl := List.mem_singleton.mp member
    exact fresh

/-- A tree of one leaf with room for the entry takes it in there. -/
theorem Holds.insert_ends {m : MemoryManager} {page : Nat} {body : LeafNodeBody K} {key : K} {pointer : RecordAddress}
    (root : Holds m page (.leaf body)) (range : pointer.InRange)
    (fits : (NodeBody.leaf { body with entries := withEntry key pointer body.entries }).Fits) :
    ∃ m', m.Ends (fun fuel => IndexTree.insert fuel ⟨page⟩ key pointer) ⟨page⟩ m' ∧
      Holds m' page (.leaf { body with entries := withEntry key pointer body.entries }) ∧ m'.pages = m.pages := by
  obtain ⟨header, _, read⟩ := root.read_runs
  have added := insertIntoLeaf_eq (n := ⟨page, header, .leaf body, false⟩) rfl key pointer
  have short : (withEntry key pointer body.entries).length < 16384 := by
    have bound := fits.length_lt
    rwa [NodeBody.items, List.length_map] at bound
  have counted : BTreeNode.Counted (⟨page, { header with numEntries :=
      (withEntry key pointer body.entries).length % 65536 },
      .leaf { body with entries := withEntry key pointer body.entries }, true⟩ : BTreeNode K) := by
    unfold BTreeNode.Counted
    rw [NodeBody.items, List.length_map]
    exact Nat.mod_eq_of_lt (by omega)
  have inRange : (NodeBody.leaf { body with entries := withEntry key pointer body.entries }).InRange := by
    refine ⟨root.range.1, root.range.2.1, fun e member => ?_⟩
    rcases List.eq_or_mem_of_mem_insertIdx member with rfl | old
    · exact range
    · exact root.range.2.2 e old
  obtain ⟨r, m', flushed⟩ := flush_runs counted fits root.allocated
  obtain ⟨holds, rewritten⟩ := flush_dirty counted inRange rfl flushed
  have room : BTreeNode.wouldOverflow ⟨page, { header with numEntries :=
      (withEntry key pointer body.entries).length % 65536 },
      .leaf { body with entries := withEntry key pointer body.entries }, true⟩ = .ok false :=
    wouldOverflow_iff.mpr ⟨fits.narrow, (decide_eq_false (Nat.not_lt.mpr fits)).symm⟩
  have path : m.Runs (IndexTree.readPath key 1 page) [⟨page, header, .leaf body, false⟩] m :=
    runs_bind.mpr ⟨_, m, read, runs_pure.mpr ⟨rfl, rfl⟩⟩
  have run : m.Runs (IndexTree.insert 1 ⟨page⟩ key pointer) ⟨page⟩ m' := by
    refine runs_bind.mpr ⟨_, m, path, ?_⟩
    rw [List.reverse_singleton]
    dsimp only
    rw [added]
    refine runs_bind.mpr ⟨_, m, climb_cons.mpr ⟨_, _, none, m, [], rfl, .inl ⟨room, rfl, rfl, rfl⟩,
      runs_pure.mpr ⟨rfl, rfl⟩, rfl⟩, runs_bind.mpr ⟨(⟨page⟩, _), m, runs_pure.mpr ⟨rfl, rfl⟩, ?_⟩⟩
    refine runs_bind.mpr ⟨(), m', runs_bind.mpr ⟨r, m', flushed, runs_pure.mpr ⟨rfl, rfl⟩⟩, ?_⟩
    exact runs_pure.mpr ⟨rfl, rfl⟩
  exact ⟨m', Approx.ends (IndexTree.insert_more _ _ _) run, holds, rewritten.pages⟩

instance : Key UInt8 where
  le_refl := UInt8.le_refl
  le_trans := fun _ _ _ => UInt8.le_trans
  lt_iff_le_not_ge := fun a b => by rw [UInt8.not_le]; exact ⟨fun h => ⟨UInt8.le_of_lt h, h⟩, fun h => h.2⟩
  total := UInt8.le_total
  decidableLE := inferInstance
  decidableLT := inferInstance
  readable := fun _ _ => rfl

namespace IndexSample

/-- A memory of the two reserved pages. -/
def memory : MemoryManager := ⟨2, 8, fun _ => 0, by decide, eight_capacity⟩

theorem memory_ledger : memory.Stores UnclaimedPages.reservedPage 0 (UnclaimedPages.encode ⟨[], Nat.zero_le _⟩) := by
  have bytes : UnclaimedPages.encode ⟨[], Nat.zero_le _⟩ = zeros 4 := by decide
  rw [bytes]
  exact stores_zeros (fun _ _ => rfl) (by rw [pageSize_eq]; omega)

theorem memory_supply : PageSupply memory (fun _ => False) :=
  ⟨by decide, fun _ h => h.elim, ⟨[], Nat.zero_le _⟩, memory_ledger, by simp, by simp⟩

/-- The root leaf is on the page after the reserved ones. -/
theorem created (K : Type) [Key K] : ∃ m₁, memory.Runs (IndexTree.init K) ⟨2⟩ m₁ ∧
    Holds m₁ 2 (.leaf ⟨[], none, none⟩ : NodeBody K) ∧ m₁.pages = 3 := by
  have room : memory.pages + 1 ≤ memory.capacity := by decide
  have claimed : memory.Runs MemoryAccess.claimPage 2 (memory.enlarged room) :=
    PageSupply.claimPage_grows (by decide) room memory_ledger
  have fits : (NodeBody.leaf ⟨[], none, none⟩ : NodeBody K).Fits := by
    unfold NodeBody.Fits
    rw [pageSize_eq]
    simp [NodeBody.used, NodeBody.items, NodeBody.headerSize, leafHeaderSize, Entries.image]
  have range : (NodeBody.leaf ⟨[], none, none⟩ : NodeBody K).InRange :=
    ⟨fun _ h => (by cases h), fun _ h => (by cases h), by simp⟩
  have counted : (BTreeNode.newLeaf 2 none : BTreeNode K).Counted := rfl
  obtain ⟨r, m₁, flushed⟩ := flush_runs counted fits
    (show 2 < (memory.enlarged room).pages from Nat.lt_succ_self 2)
  obtain ⟨root, rewritten⟩ := flush_dirty counted range rfl flushed
  exact ⟨m₁, runs_bind.mpr ⟨2, _, claimed, runs_bind.mpr ⟨r, m₁, flushed, runs_pure.mpr ⟨rfl, rfl⟩⟩⟩, root,
    rewritten.pages⟩

/-- The first entry goes into the root leaf. -/
theorem inserted {m₁ : MemoryManager} (root : Holds m₁ 2 (.leaf ⟨[], none, none⟩ : NodeBody UInt8)) :
    ∃ m, IndexRun ⟨2⟩ m₁ [IndexCall.insert (7 : UInt8) ⟨5, 0⟩] ⟨2⟩ m := by
  have fits : (NodeBody.leaf ⟨withEntry 7 ⟨5, 0⟩ [], none, none⟩ : NodeBody UInt8).Fits := by
    unfold NodeBody.Fits
    rw [pageSize_eq]
    decide
  obtain ⟨m, returns, _, _⟩ := root.insert_ends (by constructor <;> decide) fits
  exact ⟨m, .call .start (.insert 7 ⟨5, 0⟩) ⟨by decide, by decide⟩ returns⟩

end IndexSample

/-- After every sequence of calls on a new tree, the tree behaves as the multiset
of pairs that the calls that returned have left. -/
theorem index_refines_multiset {other : Nat → Prop} {m₀ m₁ m : MemoryManager} {tree₀ tree : IndexTree}
    {calls : List (IndexCall K)} (supply : PageSupply m₀ other) (created : m₀.Runs (IndexTree.init K) tree₀ m₁)
    (run : IndexRun tree₀ m₁ calls tree m) :
    ∃ pairs, IndexCall.Effects calls 0 pairs ∧ RefinesMultiset tree m pairs := by
  obtain ⟨pairs, effects, holds⟩ := run.holds (IndexTree.init_holds supply created)
  exact ⟨pairs, effects, holds.refines⟩

theorem index_refines_multiset_after_sample_insert :
    ∃ m pairs, IndexCall.Effects [IndexCall.insert (7 : UInt8) ⟨5, 0⟩] 0 pairs ∧ RefinesMultiset ⟨2⟩ m pairs := by
  obtain ⟨m₁, created, root, _⟩ := IndexSample.created UInt8
  obtain ⟨m, run⟩ := IndexSample.inserted root
  obtain ⟨pairs, effects, refines⟩ := index_refines_multiset IndexSample.memory_supply created run
  exact ⟨m, pairs, effects, refines⟩

/-- After every sequence of calls on a new tree, a range scan visits the stored
pairs of the range, in the order of their keys, and stops. -/
theorem range_scan_visits_range {other : Nat → Prop} {m₀ m₁ m : MemoryManager} {tree₀ tree : IndexTree}
    {calls : List (IndexCall K)} (supply : PageSupply m₀ other) (created : m₀.Runs (IndexTree.init K) tree₀ m₁)
    (run : IndexRun tree₀ m₁ calls tree m) :
    ∃ pairs, IndexCall.Effects calls 0 pairs ∧ ∀ (startKey : K) (endKey : Option K),
      ∃ visited : List (LeafEntry K),
        (visited : Multiset (LeafEntry K)) = pairs.filter (fun e => inRange startKey endKey e = true) ∧
        visited.Pairwise (fun a b => a.key ≤ b.key) ∧
        m.Ends (fun fuel => do
          let walker ← tree.rangeScan fuel startKey endKey
          IndexTreeWalker.drain (IndexTreeWalker.next fuel) fuel walker) (visited.map LeafEntry.pointer) m ∧
        m.Ends (fun fuel => do
          let walker ← tree.rangeScan fuel startKey endKey
          IndexTreeWalker.drain (IndexTreeWalker.nextEntry fuel) fuel walker)
          (visited.map fun e => (e.key, e.pointer)) m := by
  obtain ⟨pairs, effects, nodes, height, inv, rfl⟩ := run.holds (IndexTree.init_holds supply created)
  refine ⟨_, effects, fun startKey endKey => ?_⟩
  obtain ⟨enough, scans⟩ : ∃ enough, ∀ fuel, enough ≤ fuel → height < fuel ∧
      (IndexInv.leafPages nodes height tree).length ≤ fuel ∧ (IndexInv.entries nodes height tree).length < fuel :=
    ⟨height + 1 + (IndexInv.leafPages nodes height tree).length + (IndexInv.entries nodes height tree).length,
      fun fuel large => by omega⟩
  refine ⟨(IndexInv.entries nodes height tree).filter (inRange startKey endKey), ?_, ?_, ⟨enough, ?_⟩, ⟨enough, ?_⟩⟩
  · rw [Multiset.filter_coe]
    simp
  · exact inv.ordered.sorted.filter _
  · intro fuel large
    obtain ⟨deep, wide, long⟩ := scans fuel large
    obtain ⟨walker, started, drained⟩ := inv.rangeScan_drain startKey endKey deep wide
    exact runs_bind.mpr ⟨walker, m, started, (drained fuel long).1⟩
  · intro fuel large
    obtain ⟨deep, wide, long⟩ := scans fuel large
    obtain ⟨walker, started, drained⟩ := inv.rangeScan_drain startKey endKey deep wide
    exact runs_bind.mpr ⟨walker, m, started, (drained fuel long).2⟩

theorem range_scan_after_sample_insert :
    ∃ (m : MemoryManager) (visited : List RecordAddress), m.Ends (fun fuel => do
      let walker ← IndexTree.rangeScan fuel ⟨2⟩ (3 : UInt8) (some 9)
      IndexTreeWalker.drain (IndexTreeWalker.next fuel) fuel walker) visited m := by
  obtain ⟨m₁, created, root, _⟩ := IndexSample.created UInt8
  obtain ⟨m, run⟩ := IndexSample.inserted root
  obtain ⟨pairs, _, scans⟩ := range_scan_visits_range IndexSample.memory_supply created run
  obtain ⟨visited, _, _, ends, _⟩ := scans 3 (some 9)
  exact ⟨m, _, ends⟩

end WasmDbms
