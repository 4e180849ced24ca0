import WasmDbms.Index.Invariant

/-!
# Deletion

`delete` removes the first entry along the chain with the key and the pointer
and rewrites one leaf; it reports a missing entry without writing.
-/
namespace WasmDbms
open Bisect MemoryManager

variable {K : Type} [Key K]

/-- The entry `delete` looks for. -/
def hits (key : K) (pointer : RecordAddress) (e : LeafEntry K) : Bool :=
  Key.same e.key key && decide (e.pointer = pointer)

theorem hits_iff {key : K} {pointer : RecordAddress} {e : LeafEntry K} :
    hits key pointer e = true ↔ (e.key ≤ key ∧ key ≤ e.key) ∧ e.pointer = pointer := by
  simp [hits, same_iff]

/-- A leaf with fewer entries fits. -/
theorem NodeBody.Fits.leaf_sublist {body : LeafNodeBody K} {entries : List (LeafEntry K)}
    {prev next : Option Nat} (fits : (NodeBody.leaf body).Fits) (sub : entries.Sublist body.entries) :
    (NodeBody.leaf ⟨entries, prev, next⟩).Fits := by
  have fewer : ((entries.map LeafEntry.item).map Entries.Item.size).sum ≤
      ((body.entries.map LeafEntry.item).map Entries.Item.size).sum :=
    ((sub.map _).map _).sum_le_sum (fun _ _ => Nat.zero_le _)
  unfold NodeBody.Fits NodeBody.used at *
  simp only [NodeBody.headerSize, NodeBody.items, Entries.image_length] at *
  omega

/-- A leaf is flushed with other entries. -/
theorem Holds.rewrite_leaf {m : MemoryManager} {page : Nat} {body : LeafNodeBody K} (holds : Holds m page (.leaf body))
    (header : NodeHeader) {entries : List (LeafEntry K)}
    (fits : (NodeBody.leaf { body with entries := entries }).Fits) (old : entries ⊆ body.entries) :
    ∃ m', m.Runs (do
        let _ ← BTreeNode.flush (⟨page, { header with numEntries := entries.length % 65536 },
          .leaf { body with entries := entries }, true⟩ : BTreeNode K)
        return ()) () m' ∧
      Holds m' page (.leaf { body with entries := entries }) ∧ Rewritten m m' page := by
  have short := fits.length_lt
  rw [NodeBody.items, List.length_map] at short
  have counted : BTreeNode.Counted (⟨page, { header with numEntries := entries.length % 65536 },
      .leaf { body with entries := entries }, true⟩ : BTreeNode K) := by
    unfold BTreeNode.Counted
    rw [NodeBody.items, List.length_map]
    exact Nat.mod_eq_of_lt (Nat.lt_trans short (by decide))
  obtain ⟨r, m', runs⟩ := flush_runs counted fits holds.allocated
  have range : (NodeBody.leaf { body with entries := entries }).InRange :=
    ⟨holds.range.1, holds.range.2.1, fun e member => holds.range.2.2 e (old member)⟩
  obtain ⟨written, rewritten⟩ := flush_dirty counted range rfl runs
  exact ⟨m', runs_bind.mpr ⟨r, m', runs, runs_pure.mpr ⟨rfl, rfl⟩⟩, written, rewritten⟩

section Forward

variable {m : MemoryManager} {nodes : Nodes K}

/-- The first key of a leaf is not above anything from there on. -/
theorem Chain.first_le {before after : List Nat} {page : Nat} {header : NodeHeader} {dirty : Bool}
    (chain : Chain m nodes (before ++ page :: after)) {first : K}
    (found : BTreeNode.firstKey ⟨page, header, nodes page, dirty⟩ = some first) {e : LeafEntry K}
    (member : e ∈ content nodes (page :: after)) : first ≤ e.key := by
  obtain ⟨body, node, entries, _, _, _⟩ := chain.leaf_at
  have head : body.entries.head?.map LeafEntry.key = some first := by
    unfold BTreeNode.firstKey at found
    rwa [node] at found
  cases list : body.entries with
  | nil => simp [list] at head
  | cons f rest =>
      rw [list] at head
      cases head
      have sorted := chain.sorted
      rw [content, List.flatMap_append] at sorted
      have tail := (List.pairwise_append.mp sorted).2.1
      rw [content, List.flatMap_cons, entries, list, List.cons_append] at member
      rw [List.flatMap_cons, entries, list, List.cons_append, List.pairwise_cons] at tail
      rcases List.mem_cons.mp member with rfl | later
      · exact le_refl _
      · exact tail.1 e later

/-- The loop of `delete` finds no entry: it fails and writes nothing. -/
theorem deleteFrom_fails {key : K} {pointer : RecordAddress} {fuel : Nat} {before after : List Nat}
    {page : Nat} {header : NodeHeader} (chain : Chain m nodes (before ++ page :: after))
    (enough : after.length < fuel)
    (absent : ∀ e ∈ content nodes (page :: after), hits key pointer e = false) :
    m.Fails (IndexTree.deleteFrom key pointer fuel ⟨page, header, nodes page, false⟩)
      (.error .entryNotFound) m := by
  induction fuel generalizing before page after header with
  | zero => omega
  | succ fuel ih =>
      obtain ⟨body, node, entries, _, following, held⟩ := chain.leaf_at
      have missing : body.entries.findIdx? (fun e => Key.same e.key key && decide (e.pointer = pointer)) =
          none := by
        rw [List.findIdx?_eq_none_iff]
        intro e member
        refine absent e (List.mem_flatMap.mpr ⟨page, List.mem_cons_self, ?_⟩)
        rw [entries]
        exact member
      unfold IndexTree.deleteFrom
      simp only [node, missing, following]
      cases after with
      | nil => rfl
      | cons next after =>
          have chain' : Chain m nodes ((before ++ [page]) ++ next :: after) := by
            rw [List.append_assoc]
            exact chain
          have holds := chain.holds next (by simp)
          obtain ⟨header', _, read⟩ := holds.read_runs
          refine read.then_fails ?_
          split
          · rfl
          · refine ih chain' (Nat.lt_of_succ_lt_succ enough) ?_
            intro e member
            exact absent e (by simpa [content] using Or.inr (by simpa [content] using member))

/-- The loop of `delete` finds an entry and rewrites its leaf without it. -/
theorem deleteFrom_runs {key : K} {pointer : RecordAddress} {fuel : Nat} {before after : List Nat}
    {page : Nat} {header : NodeHeader} (chain : Chain m nodes (before ++ page :: after))
    (counted : header.numEntries = (nodes page).items.length) (enough : after.length < fuel)
    (present : ∃ e ∈ content nodes (page :: after), hits key pointer e = true) :
    ∃ leaf ∈ page :: after, ∃ body left e right m', nodes leaf = .leaf body ∧
      body.entries = left ++ e :: right ∧ hits key pointer e = true ∧
      m.Runs (IndexTree.deleteFrom key pointer fuel ⟨page, header, nodes page, false⟩) () m' ∧
      Holds m' leaf (.leaf { body with entries := left ++ right }) ∧ Rewritten m m' leaf := by
  induction fuel generalizing before page after header with
  | zero => omega
  | succ fuel ih =>
      obtain ⟨body, node, entries, _, following, held⟩ := chain.leaf_at
      unfold IndexTree.deleteFrom
      simp only [node]
      cases search : body.entries.findIdx? (fun e => Key.same e.key key && decide (e.pointer = pointer)) with
      | some i =>
          obtain ⟨inside, hit, _⟩ := List.findIdx?_eq_some_iff_getElem.mp search
          have split : body.entries = body.entries.take i ++ body.entries[i] :: body.entries.drop (i + 1) := by
            rw [List.getElem_cons_drop, List.take_append_drop]
          have erased : body.entries.eraseIdx i = body.entries.take i ++ body.entries.drop (i + 1) :=
            List.eraseIdx_eq_take_drop_succ _ _
          have sub : (body.entries.eraseIdx i).Sublist body.entries := List.eraseIdx_sublist _ _
          obtain ⟨m', runs, holds, rewritten⟩ := held.rewrite_leaf header
            (held.fits.leaf_sublist sub) sub.subset
          refine ⟨page, List.mem_cons_self, body, _, _, _, m', node, split, hit, ?_, ?_, rewritten⟩
          · exact runs
          · rwa [erased] at holds
      | none =>
          have missing := List.findIdx?_eq_none_iff.mp search
          obtain ⟨e, member, hit⟩ := present
          have later : e ∈ content nodes after := by
            rcases List.mem_append.mp (show e ∈ leafEntries nodes page ++ content nodes after from member) with
              here | there
            · rw [entries] at here
              exact absurd hit (by simpa [hits] using missing e here)
            · exact there
          cases after with
          | nil => simp [content] at later
          | cons next after =>
              rw [List.head?_cons] at following
              simp only [following]
              have chain' : Chain m nodes ((before ++ [page]) ++ next :: after) := by
                rw [List.append_assoc]
                exact chain
              have holds := chain.holds next (by simp)
              obtain ⟨header', counted', read⟩ := holds.read_runs
              obtain ⟨leaf, listed, found⟩ := ih chain' counted' (Nat.lt_of_succ_lt_succ enough) ⟨e, later, hit⟩
              obtain ⟨body', left, e', right, m', node', split, hit', runs, after'⟩ := found
              refine ⟨leaf, List.mem_cons_of_mem _ listed, body', left, e', right, m', node', split, hit', ?_, after'⟩
              refine runs_bind.mpr ⟨_, m, read, ?_⟩
              rw [if_neg]
              · exact runs
              · intro early
                obtain ⟨first, found, above⟩ := (Option.any_eq_true _ _).mp early
                have low := chain'.first_le found later
                have near := (hits_iff.mp hit).1.1
                exact (lt_iff_le_not_ge.mp (of_decide_eq_true above)).2 (low.trans near)

end Forward

namespace IndexInv

variable {tree : IndexTree} {m : MemoryManager} {nodes : Nodes K} {height : Nat} {other : Nat → Prop}
  {key : K} {pointer : RecordAddress} {fuel : Nat}

/-- What is passed has no hit. -/
theorem passed_misses {pages : List Nat} (passed : Passed nodes pages key) (e : LeafEntry K)
    (member : e ∈ content nodes pages) : hits key pointer e = false := by
  cases hit : hits key pointer e with
  | false => rfl
  | true => exact absurd (hits_iff.mp hit).1.2 (lt_iff_le_not_ge.mp (passed e member)).2

/-- A missing entry is reported and nothing is written. -/
theorem delete_fails (inv : IndexInv tree m nodes height other) (deep : height < fuel)
    (wide : (leafPages nodes height tree).length ≤ fuel)
    (absent : ∀ e ∈ entries nodes height tree, hits key pointer e = false) :
    m.Fails (tree.delete fuel key pointer) (.error .entryNotFound) m := by
  obtain ⟨before, page, after, header, split, _, _, _, runs⟩ := inv.findSearchStartLeaf_runs key deep wide
  have chain := inv.chain
  rw [split] at chain
  have short : after.length < fuel := by
    have counted := congrArg List.length split
    rw [List.length_append, List.length_cons] at counted
    omega
  refine runs.then_fails (deleteFrom_fails chain short ?_)
  intro e member
  refine absent e ?_
  unfold entries
  rw [split, content, List.flatMap_append]
  exact List.mem_append_right _ member

/-- A stored entry is removed, once. -/
theorem delete_runs (inv : IndexInv tree m nodes height other) (deep : height < fuel)
    (wide : (leafPages nodes height tree).length ≤ fuel)
    (present : ∃ e ∈ entries nodes height tree, hits key pointer e = true) :
    ∃ nodes' m' e, m.Runs (tree.delete fuel key pointer) () m' ∧ IndexInv tree m' nodes' height other ∧
      hits key pointer e = true ∧ (entries nodes height tree).Perm (e :: entries nodes' height tree) ∧
      leafPages nodes' height tree = leafPages nodes height tree ∧ Frame other m m' := by
  obtain ⟨before, page, after, header, split, passed, _, counted, runs⟩ :=
    inv.findSearchStartLeaf_runs key deep wide
  have chain := inv.chain
  rw [split] at chain
  have short : after.length < fuel := by
    have total := congrArg List.length split
    rw [List.length_append, List.length_cons] at total
    omega
  have later : ∃ e ∈ content nodes (page :: after), hits key pointer e = true := by
    obtain ⟨e, member, hit⟩ := present
    refine ⟨e, ?_, hit⟩
    unfold entries at member
    rw [split, content, List.flatMap_append] at member
    rcases List.mem_append.mp member with early | here
    · rw [passed_misses passed e early] at hit
      cases hit
    · exact here
  obtain ⟨leaf, inTail, body, left, e, right, m', node, entryOrder, hit, erased, holds, rewritten⟩ :=
    deleteFrom_runs chain counted short later
  have listed : leaf ∈ leafPages nodes height tree := by
    rw [split]
    exact List.mem_append_right _ inTail
  have sub : (left ++ right).Sublist body.entries := by
    rw [entryOrder]
    exact (List.sublist_cons_self e right).append_left left
  obtain ⟨inv', samePages, frame⟩ := inv.shrink_leaf listed node sub holds rewritten
  refine ⟨_, m', e, runs_bind.mpr ⟨_, m, runs, erased⟩, inv', hit, ?_, samePages, frame⟩
  obtain ⟨front, back, position⟩ := List.append_of_mem listed
  have distinct : (leafPages nodes height tree).Nodup :=
    inv.nodup.sublist (leaves_pages_sublist nodes height _)
  rw [position, List.nodup_append] at distinct
  have notFront : leaf ∉ front := fun h => distinct.2.2 leaf h leaf List.mem_cons_self rfl
  have notBack : leaf ∉ back := (List.nodup_cons.mp distinct.2.1).1
  have old : leafEntries nodes leaf = left ++ e :: right := by
    unfold leafEntries
    rw [node]
    exact entryOrder
  unfold entries
  rw [samePages, position, content_split, content_split, content_update notFront, content_update notBack,
    leafEntries_update, old]
  simp only [List.append_assoc, List.cons_append]
  exact (List.perm_middle.append_left _).trans List.perm_middle

end IndexInv

end WasmDbms
