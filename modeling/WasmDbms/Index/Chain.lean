import WasmDbms.Index.Shape

/-!
# The chain of leaves

The leaves of a tree from left to right, linked both ways, with their keys in
order. Reads may enter the chain at any leaf: they go back as long as an
earlier leaf can still hold the key, and forward from there.
-/
namespace WasmDbms
open Bisect MemoryManager

variable {K : Type} [Key K]

/-- The program ends with this fault and leaves this memory. -/
def MemoryManager.Fails {α : Type} (m : MemoryManager) (p : Prog α) (fault : Fault) (m' : MemoryManager) : Prop :=
  p.run exec m = (.error fault, m')

theorem MemoryManager.Runs.then_fails {α β : Type} {m m₁ m' : MemoryManager} {p : Prog α} {f : α → Prog β}
    {a : α} {fault : Fault} (runs : m.Runs p a m₁) (fails : m₁.Fails (f a) fault m') :
    m.Fails (p >>= f) fault m' := by
  unfold Runs at runs
  unfold Fails at fails ⊢
  rw [Prog.run_bind, runs]
  exact fails

theorem MemoryManager.Fails.then_stops {α β : Type} {m m' : MemoryManager} {p : Prog α} {fault : Fault}
    (fails : m.Fails p fault m') (f : α → Prog β) : m.Fails (p >>= f) fault m' := by
  unfold Fails at fails ⊢
  rw [Prog.run_bind, fails]

omit [Key K] in
def leafEntries (nodes : Nodes K) (page : Nat) : List (LeafEntry K) :=
  match nodes page with
  | .leaf body => body.entries
  | .internal _ => []

omit [Key K] in
/-- The entries of some leaves in order. -/
def content (nodes : Nodes K) (pages : List Nat) : List (LeafEntry K) := pages.flatMap (leafEntries nodes)

omit [Key K] in
/-- Leaves linked to each other, to a leaf before and to one after them. -/
def Linked (nodes : Nodes K) (prev next : Option Nat) : List Nat → Prop
  | [] => True
  | page :: pages =>
      (∃ body, nodes page = .leaf body ∧ body.prevLeaf = prev ∧ body.nextLeaf = pages.head?.or next) ∧
        Linked nodes (some page) next pages

omit [Key K] in
theorem linked_append {nodes : Nodes K} {prev next : Option Nat} {xs ys : List Nat} :
    Linked nodes prev next (xs ++ ys) ↔
      Linked nodes prev (ys.head?.or next) xs ∧ Linked nodes (xs.getLast?.or prev) next ys := by
  induction xs generalizing prev with
  | nil => simp [Linked]
  | cons x xs ih =>
      have head : ((xs ++ ys).head?.or next) = xs.head?.or (ys.head?.or next) := by
        cases xs <;> simp
      have last : (x :: xs).getLast?.or prev = xs.getLast?.or (some x) := by
        cases xs <;> simp [List.getLast?_cons_cons]
        simp [List.getLast?_cons]
      rw [List.cons_append, Linked, Linked, head, ih, last, and_assoc]

/-- A chain of leaves in memory. -/
structure Chain (m : MemoryManager) (nodes : Nodes K) (pages : List Nat) : Prop where
  holds : ∀ page ∈ pages, Holds m page (nodes page)
  linked : Linked nodes none none pages
  sorted : (content nodes pages).Pairwise fun a b => a.key ≤ b.key

omit [Key K] in
theorem content_split (nodes : Nodes K) (before : List Nat) (page : Nat) (after : List Nat) :
    content nodes (before ++ page :: after) =
      content nodes before ++ (leafEntries nodes page ++ content nodes after) := by
  simp [content]

namespace Chain

variable {m : MemoryManager} {nodes : Nodes K} {before after : List Nat} {page : Nat}

/-- A leaf of the chain with its neighbours. -/
theorem leaf_at (chain : Chain m nodes (before ++ page :: after)) : ∃ body : LeafNodeBody K,
    nodes page = .leaf body ∧ leafEntries nodes page = body.entries ∧
      body.prevLeaf = before.getLast? ∧ body.nextLeaf = after.head? ∧ Holds m page (.leaf body) := by
  have here := (linked_append.mp chain.linked).2
  obtain ⟨⟨body, node, prev, next⟩, _⟩ := here
  refine ⟨body, node, ?_, by simpa using prev, by simpa using next, ?_⟩
  · unfold leafEntries
    rw [node]
  · rw [← node]
    exact chain.holds page (by simp)

theorem inner_sorted (chain : Chain m nodes (before ++ page :: after)) :
    (leafEntries nodes page).Pairwise fun a b => a.key ≤ b.key := by
  have sorted := chain.sorted
  rw [content_split] at sorted
  exact (List.pairwise_append.mp (List.pairwise_append.mp sorted).2.1).1

/-- Entries before a leaf are not above its entries. -/
theorem before_le (chain : Chain m nodes (before ++ page :: after)) {a b : LeafEntry K}
    (ha : a ∈ content nodes before) (hb : b ∈ leafEntries nodes page) : a.key ≤ b.key := by
  have sorted := chain.sorted
  rw [content_split] at sorted
  exact (List.pairwise_append.mp sorted).2.2 a ha b (List.mem_append_left _ hb)

/-- Entries behind a leaf are not below its entries. -/
theorem le_after (chain : Chain m nodes (before ++ page :: after)) {a b : LeafEntry K}
    (ha : a ∈ leafEntries nodes page) (hb : b ∈ content nodes after) : a.key ≤ b.key := by
  have sorted := chain.sorted
  rw [content_split] at sorted
  exact (List.pairwise_append.mp (List.pairwise_append.mp sorted).2.1).2.2 a ha b hb

end Chain

/-- The keys a view of a leaf shows. -/
theorem leaf_view_key {body : LeafNodeBody K} (fits : (NodeBody.leaf body).Fits) (parentPage : Option Nat)
    {i : Nat} {e : LeafEntry K} (found : body.entries[i]? = some e) :
    ((NodeBody.leaf body).view parentPage).key i = .ok e.key := by
  have item : (NodeBody.leaf body).items[i]? = some e.item := by
    simp [NodeBody.items, found]
  exact view_key fits parentPage item (Key.readable _ (fits.key_lt (List.mem_of_getElem? item)))

theorem leaf_view_pointer {body : LeafNodeBody K} (fits : (NodeBody.leaf body).Fits)
    (range : (NodeBody.leaf body).InRange) (parentPage : Option Nat)
    {i : Nat} {e : LeafEntry K} (found : body.entries[i]? = some e) :
    ((NodeBody.leaf body).view parentPage).pointer i = .ok e.pointer := by
  have item : (NodeBody.leaf body).items[i]? = some e.item := by
    simp [NodeBody.items, found]
  obtain ⟨start, keyRange, _, tail⟩ := view_entry fits parentPage item
  have width : e.item.tail.length = recordPointerSize := NodeBody.tail_length (List.mem_of_getElem? item)
  rw [width] at tail
  unfold NodeView.pointer
  rw [keyRange]
  change RecordAddress.decode (Entries.slice ((NodeBody.leaf body).pageImage parentPage)
    (start + e.item.key.length) recordPointerSize) = _
  rw [tail]
  exact RecordAddress.decode_encode (range.2.2 e (List.mem_of_getElem? found))

theorem leaf_view_partitionPoint {body : LeafNodeBody K} (fits : (NodeBody.leaf body).Fits)
    (parentPage : Option Nat) (pred : K → Bool) (parted : Partitioned (fun e => pred e.key) body.entries) :
    ∃ r, ((NodeBody.leaf body).view parentPage).partitionPoint pred = .ok r ∧ r ≤ body.entries.length ∧
      (∀ e ∈ body.entries.take r, pred e.key = true) ∧ ∀ e ∈ body.entries.drop r, pred e.key = false := by
  have length : ((NodeBody.leaf body).view parentPage).len = body.entries.length := by
    rw [view_len, NodeBody.items, List.length_map]
  have agree : ∀ i < body.entries.length,
      (do return pred (← ((NodeBody.leaf body).view parentPage).key i) : Except Fault Bool) =
        .ok ((body.entries[i]?.map fun e => pred e.key).getD false) := by
    intro i inside
    have found := List.getElem?_eq_getElem inside
    rw [leaf_view_key fits parentPage found, found]
    rfl
  obtain ⟨r, done, splits⟩ := bisect_splits agree parted.anti
  refine ⟨r, ?_, splits.spec⟩
  unfold NodeView.partitionPoint
  rw [length]
  exact done

end WasmDbms
