import Mathlib.Algebra.Order.BigOperators.Group.List
import Mathlib.Data.List.Perm.Subperm
import WasmDbms.Index.Lookup

/-!
# The invariant of an index tree

The levels of the tree in memory, with pages of their own, and on the lowest
level linked leaves whose keys respect the separators.
-/
namespace WasmDbms
open Bisect MemoryManager

variable {K : Type} [Key K]

/-- The order inside a leaf: by key, then by pointer. -/
def EntryLe (a b : LeafEntry K) : Prop :=
  a.key < b.key ∨ (a.key ≤ b.key ∧ b.key ≤ a.key ∧ b.pointer.lt a.pointer = false)

theorem EntryLe.key_le {a b : LeafEntry K} (le : EntryLe a b) : a.key ≤ b.key := by
  rcases le with less | ⟨le, _⟩
  · exact less.le
  · exact le

/-- The leaves respect their separators. -/
structure Ordered (nodes : Nodes K) (level : Level K) : Prop where
  ascending : Ascending level
  below : ∀ x ∈ level, ∀ e ∈ leafEntries nodes x.1, (e.key : WithTop K) ≤ x.2
  above : level.Pairwise fun x y => ∀ e ∈ leafEntries nodes y.1, x.2 ≤ (e.key : WithTop K)
  inner : ∀ x ∈ level, (leafEntries nodes x.1).Pairwise EntryLe

/-- The keys of ordered leaves are sorted. -/
theorem Ordered.sorted {nodes : Nodes K} {level : Level K} (ordered : Ordered nodes level) :
    (content nodes (level.map Prod.fst)).Pairwise fun a b => a.key ≤ b.key := by
  rw [content, List.flatMap_map, List.pairwise_flatMap]
  refine ⟨fun x member => (ordered.inner x member).imp EntryLe.key_le, ?_⟩
  refine ordered.above.imp_of_mem ?_
  intro x y hx hy bound a ha b hb
  exact WithTop.coe_le_coe.mp ((ordered.below x hx a ha).trans (bound b hb))

/-- The levels from one down, on pages of their own, with their leaves in order. -/
structure Forest (nodes : Nodes K) (height : Nat) (level : Level K) : Prop where
  graded : Graded nodes height level
  nodup : (nodePages nodes height level).Nodup
  linked : Linked nodes none none ((leaves nodes height level).map Prod.fst)
  ordered : Ordered nodes (leaves nodes height level)

/-- A tree in memory; `other` are the pages of everything else. -/
structure IndexInv (tree : IndexTree) (m : MemoryManager) (nodes : Nodes K) (height : Nat)
    (other : Nat → Prop) : Prop extends Forest nodes height [(tree.rootPage, ⊤)] where
  holds : ∀ page ∈ nodePages nodes height [(tree.rootPage, ⊤)], Holds m page (nodes page)
  supply : PageSupply m fun q => q ∈ nodePages nodes height [(tree.rootPage, ⊤)] ∨ other q
  separate : ∀ q ∈ nodePages nodes height [(tree.rootPage, ⊤)], ¬ other q

namespace IndexInv

variable {tree : IndexTree} {m : MemoryManager} {nodes : Nodes K} {height : Nat} {other : Nat → Prop}

/-- The leaves of the tree from left to right. -/
def leafPages (nodes : Nodes K) (height : Nat) (tree : IndexTree) : List Nat :=
  (leaves nodes height [(tree.rootPage, ⊤)]).map Prod.fst

/-- The entries of the tree in order. -/
def entries (nodes : Nodes K) (height : Nat) (tree : IndexTree) : List (LeafEntry K) :=
  content nodes (leafPages nodes height tree)

omit [Key K] in
theorem leaf_page (page : Nat) (listed : page ∈ leafPages nodes height tree) :
    page ∈ nodePages nodes height [(tree.rootPage, ⊤)] :=
  (leaves_pages_sublist nodes height _).subset listed

theorem chain (inv : IndexInv tree m nodes height other) : Chain m nodes (leafPages nodes height tree) where
  holds := fun page listed => inv.holds page (leaf_page page listed)
  linked := inv.linked
  sorted := inv.ordered.sorted

/-- The search for a key starts at a leaf with nothing of the key before it. -/
theorem findSearchStartPage_runs (inv : IndexInv tree m nodes height other) (key : K) {fuel : Nat}
    (deep : height < fuel) (wide : (leafPages nodes height tree).length ≤ fuel) :
    ∃ before page after parentPage, leafPages nodes height tree = before ++ page :: after ∧
      Passed nodes before key ∧ Reached nodes after key ∧
      m.Runs (tree.findSearchStartPage fuel key) (page, (nodes page).pageImage parentPage) m := by
  have routed : Routed key [] (⊤ : WithTop K) := ⟨by simp, WithTop.coe_lt_top key⟩
  have graded : Graded nodes height ([] ++ (tree.rootPage, ⊤) :: []) := inv.graded
  obtain ⟨left, leaf, sep, right, parent, order, routed', descended⟩ :=
    findLeafPageInto_runs graded inv.ordered.ascending routed inv.holds deep
  have beyond : Reached nodes (right.map Prod.fst) key := by
    intro e member
    obtain ⟨_, listed, inLeaf⟩ := List.mem_flatMap.mp member
    obtain ⟨x, inRight, rfl⟩ := List.mem_map.mp listed
    have above := inv.ordered.above
    rw [show leaves nodes height [(tree.rootPage, ⊤)] = left ++ (leaf, sep) :: right from order] at above
    have bound := (List.pairwise_cons.mp (List.pairwise_append.mp above).2.1).1 x inRight e inLeaf
    exact WithTop.coe_le_coe.mp (routed'.right.le.trans bound)
  have split : leafPages nodes height tree = left.map Prod.fst ++ leaf :: right.map Prod.fst := by
    unfold leafPages
    rw [show leaves nodes height [(tree.rootPage, ⊤)] = left ++ (leaf, sep) :: right from order, List.map_append,
      List.map_cons]
  have short : (left.map Prod.fst).length < fuel := by
    have counted := congrArg List.length split
    rw [List.length_append, List.length_cons] at counted
    omega
  obtain ⟨before', page', after', parent', split', passed, reached, walked⟩ :=
    walkBack_runs key parent inv.chain split beyond short
  exact ⟨before', page', after', parent', split', passed, reached,
    runs_bind.mpr ⟨_, m, descended, walked⟩⟩

theorem findSearchStartLeaf_runs (inv : IndexInv tree m nodes height other) (key : K) {fuel : Nat}
    (deep : height < fuel) (wide : (leafPages nodes height tree).length ≤ fuel) :
    ∃ before page after, ∃ header : NodeHeader, leafPages nodes height tree = before ++ page :: after ∧
      Passed nodes before key ∧ Reached nodes after key ∧ header.numEntries = (nodes page).items.length ∧
      m.Runs (tree.findSearchStartLeaf fuel key) ⟨page, header, nodes page, false⟩ m := by
  obtain ⟨before, page, after, parent, split, passed, reached, runs⟩ := inv.findSearchStartPage_runs key deep wide
  have listed : page ∈ leafPages nodes height tree := by
    rw [split]
    simp
  have held := inv.holds page (leaf_page page listed)
  obtain ⟨header, counted, _, decoded⟩ := deserialize_pageImage held.fits held.range page parent
  exact ⟨before, page, after, header, split, passed, reached, counted,
    runs_bind.mpr ⟨_, m, runs, runs_lift.mpr ⟨decoded, rfl⟩⟩⟩

/-- A memory of `u32` pages cannot hold `usize::MAX` entries. -/
theorem entries_length_lt (inv : IndexInv tree m nodes height other) :
    (entries nodes height tree).length < IndexTree.usizeMax := by
  have each : ∀ page ∈ leafPages nodes height tree, (leafEntries nodes page).length ≤ 16384 := by
    intro page listed
    have held := inv.holds page (leaf_page page listed)
    unfold leafEntries
    split
    · rename_i body node
      have short := held.fits.length_lt
      rw [node, NodeBody.items, List.length_map] at short
      exact Nat.le_of_lt short
    · exact Nat.zero_le _
  have total : (entries nodes height tree).length ≤ (leafPages nodes height tree).length * 16384 := by
    unfold entries content
    rw [List.length_flatMap]
    have bound := List.sum_le_card_nsmul ((leafPages nodes height tree).map fun page =>
      (leafEntries nodes page).length) 16384 (by simpa using each)
    simpa using bound
  have pages : (leafPages nodes height tree).length ≤ m.pages := by
    have distinct : (leafPages nodes height tree).Nodup :=
      inv.nodup.sublist (leaves_pages_sublist nodes height _)
    have allocated : leafPages nodes height tree ⊆ List.range m.pages := by
      intro page listed
      exact List.mem_range.mpr (inv.holds page (leaf_page page listed)).allocated
    have counted := (distinct.subperm allocated).length_le
    rwa [List.length_range] at counted
  have capacity := Nat.lt_of_le_of_lt m.pages_le m.capacity_lt
  unfold IndexTree.usizeMax
  omega

/-- `search` returns the pointers of a key, each as often as it is stored. -/
theorem search_runs (inv : IndexInv tree m nodes height other) (key : K) {fuel : Nat}
    (deep : height < fuel) (wide : (leafPages nodes height tree).length ≤ fuel) :
    m.Runs (tree.search fuel key)
      ((matching key (entries nodes height tree)).map LeafEntry.pointer) m := by
  obtain ⟨before, page, after, parent, split, passed, _, runs⟩ := inv.findSearchStartPage_runs key deep wide
  have chain := inv.chain
  rw [split] at chain
  have short : after.length < fuel := by
    have counted := congrArg List.length split
    rw [List.length_append, List.length_cons] at counted
    omega
  have whole : matching key (entries nodes height tree) = matching key (content nodes (page :: after)) := by
    have early := matching_of_lt passed
    unfold entries matching at *
    rw [split, content, List.flatMap_append, List.filter_append]
    exact (congrArg (· ++ _) early).trans (List.nil_append _)
  have room : ([] : List RecordAddress).length + (matching key (content nodes (page :: after))).length ≤
      IndexTree.usizeMax := by
    have bound := inv.entries_length_lt
    have fewer := List.length_filter_le (fun e : LeafEntry K => Key.same e.key key) (entries nodes height tree)
    rw [← whole, matching, List.length_nil, Nat.zero_add]
    omega
  rw [whole]
  refine runs_bind.mpr ⟨_, m, runs_bind.mpr ⟨_, m, runs, collect_runs chain short room⟩, ?_⟩
  exact runs_pure.mpr ⟨rfl, rfl⟩

end IndexInv

omit [Key K] in
/-- The links of leaves that keep their neighbours. -/
theorem Linked.congr {nodes nodes' : Nodes K} {prev next : Option Nat} {pages : List Nat}
    (linked : Linked nodes prev next pages)
    (same : ∀ page ∈ pages, ∀ body, nodes page = .leaf body → ∃ body', nodes' page = .leaf body' ∧
      body'.prevLeaf = body.prevLeaf ∧ body'.nextLeaf = body.nextLeaf) : Linked nodes' prev next pages := by
  induction pages generalizing prev with
  | nil => trivial
  | cons page pages ih =>
      rw [List.forall_mem_cons] at same
      obtain ⟨⟨body, node, before, after⟩, rest⟩ := linked
      obtain ⟨body', node', before', after'⟩ := same.1 body node
      exact ⟨⟨body', node', before'.trans before, after'.trans after⟩, ih rest same.2⟩

/-- Fewer entries in the same leaves stay ordered. -/
theorem Ordered.of_sublist {nodes nodes' : Nodes K} {level : Level K} (ordered : Ordered nodes level)
    (sub : ∀ x ∈ level, (leafEntries nodes' x.1).Sublist (leafEntries nodes x.1)) : Ordered nodes' level where
  ascending := ordered.ascending
  below := fun x member e listed => ordered.below x member e ((sub x member).subset listed)
  above := ordered.above.imp_of_mem fun _ hy bound e listed => bound e ((sub _ hy).subset listed)
  inner := fun x member => (ordered.inner x member).sublist (sub x member)

omit [Key K] in
theorem leafEntries_update_ne {nodes : Nodes K} {leaf page : Nat} {body : NodeBody K} (other : page ≠ leaf) :
    leafEntries (Function.update nodes leaf body) page = leafEntries nodes page := by
  unfold leafEntries
  rw [Function.update_of_ne other]

omit [Key K] in
theorem leafEntries_update {nodes : Nodes K} {leaf : Nat} {body : LeafNodeBody K} :
    leafEntries (Function.update nodes leaf (.leaf body)) leaf = body.entries := by
  unfold leafEntries
  rw [Function.update_self]

omit [Key K] in
theorem content_congr {nodes nodes' : Nodes K} {pages : List Nat} (same : ∀ q ∈ pages, nodes' q = nodes q) :
    content nodes' pages = content nodes pages := by
  apply List.flatMap_congr
  intro q member
  unfold leafEntries
  rw [same q member]

omit [Key K] in
theorem content_update {nodes : Nodes K} {leaf : Nat} {body : NodeBody K} {pages : List Nat}
    (absent : leaf ∉ pages) : content (Function.update nodes leaf body) pages = content nodes pages := by
  refine content_congr fun page member => Function.update_of_ne ?_ ..
  rintro rfl
  exact absent member

namespace IndexInv

variable {tree : IndexTree} {m m' : MemoryManager} {nodes : Nodes K} {height : Nat} {other : Nat → Prop}

/-- A leaf loses entries. -/
theorem shrink_leaf (inv : IndexInv tree m nodes height other) {leaf : Nat} {body : LeafNodeBody K}
    {kept : List (LeafEntry K)} (listed : leaf ∈ leafPages nodes height tree) (node : nodes leaf = .leaf body)
    (sub : kept.Sublist body.entries) (holds : Holds m' leaf (.leaf { body with entries := kept }))
    (rewritten : Rewritten m m' leaf) :
    IndexInv tree m' (Function.update nodes leaf (.leaf { body with entries := kept })) height other ∧
      leafPages (Function.update nodes leaf (.leaf { body with entries := kept })) height tree =
        leafPages nodes height tree ∧ Frame other m m' := by
  have owned := leaf_page leaf listed
  have shapes : ∀ page, SameShape (nodes page)
      (Function.update nodes leaf (.leaf { body with entries := kept }) page) := by
    intro page
    by_cases same : page = leaf
    · subst same
      rw [Function.update_self]
      exact .inr ⟨⟨body, node⟩, _, rfl⟩
    · rw [Function.update_of_ne same]
      exact .inl rfl
  have here : ∀ page ∈ nodePages nodes height [(tree.rootPage, ⊤)], SameShape (nodes page)
      (Function.update nodes leaf (.leaf { body with entries := kept }) page) := fun page _ => shapes page
  obtain ⟨sameLeaves, samePages, graded⟩ := levels_congr here
  have fewer : ∀ page, (leafEntries (Function.update nodes leaf (.leaf { body with entries := kept })) page).Sublist
      (leafEntries nodes page) := by
    intro page
    by_cases same : page = leaf
    · subst same
      rw [leafEntries_update, leafEntries, node]
      exact sub
    · rw [leafEntries_update_ne same]
  refine ⟨⟨⟨graded inv.graded, ?_, ?_, ?_⟩, ?_, ?_, ?_⟩, ?_, ?_⟩
  · rw [samePages]
    exact inv.nodup
  · rw [sameLeaves]
    refine inv.linked.congr ?_
    intro page _ b found
    by_cases same : page = leaf
    · subst same
      rw [node] at found
      cases found
      exact ⟨_, Function.update_self .., rfl, rfl⟩
    · exact ⟨b, (Function.update_of_ne same ..).trans found, rfl, rfl⟩
  · rw [sameLeaves]
    exact inv.ordered.of_sublist fun x _ => fewer x.1
  · rw [samePages]
    intro page member
    by_cases same : page = leaf
    · subst same
      rwa [Function.update_self]
    · rw [Function.update_of_ne same]
      exact (inv.holds page member).of_same (Nat.le_of_eq rewritten.pages.symm) (rewritten.same page same)
  · rw [samePages]
    refine inv.supply.of_same rewritten.pages ?_
    intro page foreign
    refine rewritten.same page ?_
    rintro rfl
    exact foreign (.inl owned)
  · rw [samePages]
    exact inv.separate
  · unfold leafPages
    rw [sameLeaves]
  · refine ⟨Nat.le_of_eq rewritten.pages.symm, ?_⟩
    intro q foreign
    refine rewritten.same q ?_
    rintro rfl
    exact inv.separate q owned foreign

end IndexInv

end WasmDbms
