import WasmDbms.Index.Runs

/-!
# The representation of an index tree

The invariant node by node, as it is found on the pages: the depth of the leaves, the
keys of a node, the keys on either side of a separator, the links of the leaves.
-/
namespace WasmDbms
open MemoryManager

variable {K : Type} [Key K]

namespace NodeBody

/-- The children of a node from left to right. -/
def children : NodeBody K → List Nat
  | .internal body => body.entries.map InternalEntry.childPage ++ [body.rightmostChild]
  | .leaf _ => []

def nextLeaf : NodeBody K → Option Nat
  | .internal _ => none
  | .leaf body => body.nextLeaf

def prevLeaf : NodeBody K → Option Nat
  | .internal _ => none
  | .leaf body => body.prevLeaf

end NodeBody

section Subtrees
variable (nodes : Nodes K)

omit [Key K] in
/-- The nodes of a subtree, each with its height above the leaves. -/
def nodesBelow : Nat → Nat → List (Nat × Nat)
  | 0, page => [(0, page)]
  | height + 1, page => (height + 1, page) :: (nodes page).children.flatMap (nodesBelow height)

omit [Key K] in
/-- The leaves of a subtree from left to right. -/
def leavesBelow : Nat → Nat → List Nat
  | 0, page => [page]
  | height + 1, page => (nodes page).children.flatMap (leavesBelow height)

omit [Key K] in
/-- The keys of a subtree, those of its internal nodes included. -/
def keysBelow : Nat → Nat → List K
  | 0, page => (nodes page).keys
  | height + 1, page => (nodes page).keys ++ (nodes page).children.flatMap (keysBelow height)

omit [Key K] in
def leftmostLeaf : Nat → Nat → Nat
  | 0, page => page
  | height + 1, page => leftmostLeaf height ((nodes page).children.headD page)

omit [Key K] in
/-- The leaves visited from one on, for a number of steps. -/
def followNext : Nat → Option Nat → List Nat
  | steps + 1, some page => page :: followNext steps (nodes page).nextLeaf
  | _, _ => []

end Subtrees

/-- The tree in memory, node by node. -/
structure Represented (tree : IndexTree) (m : MemoryManager) (nodes : Nodes K) (height : Nat) : Prop where
  stored : ∀ x ∈ nodesBelow nodes height tree.rootPage, ∃ header : NodeHeader,
    m.Runs (BTreeNode.read x.2) ⟨x.2, header, nodes x.2, false⟩ m ∧ header.numEntries = (nodes x.2).keys.length
  fits : ∀ x ∈ nodesBelow nodes height tree.rootPage, (nodes x.2).used ≤ pageSize
  depth : ∀ x ∈ nodesBelow nodes height tree.rootPage, (∃ body, nodes x.2 = .leaf body) ↔ x.1 = 0
  sorted : ∀ x ∈ nodesBelow nodes height tree.rootPage, (nodes x.2).keys.Pairwise (· ≤ ·)
  separated : ∀ below page body, (below + 1, page) ∈ nodesBelow nodes height tree.rootPage →
    nodes page = .internal body → ∀ left e right, body.entries = left ++ e :: right →
      (∀ child ∈ left.map InternalEntry.childPage ++ [e.childPage], ∀ key ∈ keysBelow nodes below child,
        key ≤ e.key) ∧
      ∀ child ∈ right.map InternalEntry.childPage ++ [body.rightmostChild], ∀ key ∈ keysBelow nodes below child,
        e.key ≤ key
  chain : ∀ steps, (leavesBelow nodes height tree.rootPage).length ≤ steps →
    followNext nodes steps (some (leftmostLeaf nodes height tree.rootPage)) = leavesBelow nodes height tree.rootPage
  back : ∀ before page next after, leavesBelow nodes height tree.rootPage = before ++ page :: next :: after →
    (nodes page).nextLeaf = some next ∧ (nodes next).prevLeaf = some page
  first : (nodes (leftmostLeaf nodes height tree.rootPage)).prevLeaf = none
  distinct : (leavesBelow nodes height tree.rootPage).Nodup

/-! ## The leaves below a node -/

section Levels
variable {nodes : Nodes K}

omit [Key K] in
theorem fan_pages (x : Nat × WithTop K) : (fan nodes x).map Prod.fst = (nodes x.1).children := by
  unfold fan NodeBody.children
  cases nodes x.1 with
  | leaf body => rfl
  | internal body =>
      dsimp only [InternalNodeBody.fan]
      rw [List.map_append, List.map_map]
      rfl

omit [Key K] in
theorem leaves_append (height : Nat) (level level' : Level K) :
    leaves nodes height (level ++ level') = leaves nodes height level ++ leaves nodes height level' := by
  induction height generalizing level level' with
  | zero => rfl
  | succ height ih => rw [leaves, List.flatMap_append, ih, leaves, leaves]

omit [Key K] in
theorem leaves_nil (height : Nat) : leaves nodes height [] = [] := by
  induction height with
  | zero => rfl
  | succ height ih => exact ih

omit [Key K] in
theorem leaves_flatMap (height : Nat) (level : Level K) :
    leaves nodes height level = level.flatMap fun x => leaves nodes height [x] := by
  induction level with
  | nil => exact leaves_nil height
  | cons x level ih => rw [List.flatMap_cons, ← ih, ← leaves_append, List.singleton_append]

omit [Key K] in
theorem leaves_succ (height : Nat) (x : Nat × WithTop K) :
    leaves nodes (height + 1) [x] = leaves nodes height (fan nodes x) := by
  rw [leaves, List.flatMap_cons, List.flatMap_nil, List.append_nil]

omit [Key K] in
/-- A level is graded if and only if each of its nodes is. -/
theorem graded_iff (height : Nat) (level : Level K) :
    Graded nodes height level ↔ ∀ x ∈ level, Graded nodes height [x] := by
  induction height generalizing level with
  | zero => simp [Graded]
  | succ height ih =>
      have single : ∀ x : Nat × WithTop K, Graded nodes (height + 1) [x] ↔
          (∃ body, nodes x.1 = .internal body) ∧ Graded nodes height (fan nodes x) := by
        intro x
        rw [Graded, List.flatMap_cons, List.flatMap_nil, List.append_nil, List.forall_mem_singleton]
      rw [Graded, ih]
      constructor
      · rintro ⟨internal, below⟩ x member
        refine (single x).mpr ⟨internal x member, (ih _).mpr fun y child => ?_⟩
        exact below y (List.mem_flatMap.mpr ⟨x, member, child⟩)
      · intro each
        refine ⟨fun x member => ((single x).mp (each x member)).1, fun y child => ?_⟩
        obtain ⟨x, member, child⟩ := List.mem_flatMap.mp child
        exact (ih _).mp ((single x).mp (each x member)).2 y child

omit [Key K] in
theorem graded_internal {height : Nat} {x : Nat × WithTop K} (graded : Graded nodes (height + 1) [x]) :
    ∃ body, nodes x.1 = .internal body ∧ fan nodes x = body.fan x.2 ∧
      ∀ y ∈ fan nodes x, Graded nodes height [y] := by
  obtain ⟨internal, below⟩ := graded
  obtain ⟨body, node⟩ := internal x (List.mem_singleton.mpr rfl)
  refine ⟨body, node, by rw [fan, node], ?_⟩
  rw [List.flatMap_cons, List.flatMap_nil, List.append_nil] at below
  exact (graded_iff height _).mp below

omit [Key K] in
/-- The last leaf below a node has the separator of the node. -/
theorem leaves_last {height : Nat} {x : Nat × WithTop K} (graded : Graded nodes height [x]) :
    ∃ before leaf, leaves nodes height [x] = before ++ [(leaf, x.2)] := by
  induction height generalizing x with
  | zero => exact ⟨[], x.1, rfl⟩
  | succ height ih =>
      obtain ⟨body, node, children, below⟩ := graded_internal graded
      have member : (body.rightmostChild, x.2) ∈ fan nodes x := by
        rw [children]
        exact List.mem_append_right _ (List.mem_singleton.mpr rfl)
      obtain ⟨before, leaf, order⟩ := ih (below _ member)
      rw [leaves_succ, children, InternalNodeBody.fan, leaves_append, order, ← List.append_assoc]
      exact ⟨_, leaf, rfl⟩

omit [Key K] in
theorem leaves_pages {height : Nat} {x : Nat × WithTop K} (graded : Graded nodes height [x]) :
    (leaves nodes height [x]).map Prod.fst = leavesBelow nodes height x.1 := by
  induction height generalizing x with
  | zero => rfl
  | succ height ih =>
      obtain ⟨_, _, _, below⟩ := graded_internal graded
      rw [leaves_succ, leaves_flatMap, List.map_flatMap, leavesBelow, ← fan_pages x, List.flatMap_map]
      exact List.flatMap_congr fun y member => ih (below y member)

omit [Key K] in
/-- The first leaf in order is reached by the first children. -/
theorem leavesBelow_head {height : Nat} {x : Nat × WithTop K} (graded : Graded nodes height [x]) :
    ∃ rest, leavesBelow nodes height x.1 = leftmostLeaf nodes height x.1 :: rest := by
  induction height generalizing x with
  | zero => exact ⟨[], rfl⟩
  | succ height ih =>
      obtain ⟨body, node, children, below⟩ := graded_internal graded
      obtain ⟨y, ys, split⟩ : ∃ y ys, fan nodes x = y :: ys := by
        rw [children, InternalNodeBody.fan]
        cases body.entries with
        | nil => exact ⟨_, _, rfl⟩
        | cons e rest => exact ⟨_, _, rfl⟩
      obtain ⟨rest, order⟩ := ih (below y (by rw [split]; exact List.mem_cons_self))
      have pages : (nodes x.1).children = y.1 :: ys.map Prod.fst := by rw [← fan_pages x, split, List.map_cons]
      rw [leavesBelow, leftmostLeaf, pages, List.headD_cons, List.flatMap_cons, order, List.cons_append]
      exact ⟨_, rfl⟩

omit [Key K] in
/-- A node below another: it is graded, and its leaves are among those of the other. -/
theorem nodesBelow_spec {height below page : Nat} {x : Nat × WithTop K} (graded : Graded nodes height [x])
    (member : (below, page) ∈ nodesBelow nodes height x.1) :
    ∃ upper, Graded nodes below [(page, upper)] ∧
      (leaves nodes below [(page, upper)]).Sublist (leaves nodes height [x]) := by
  induction height generalizing x with
  | zero =>
      cases List.mem_singleton.mp member
      exact ⟨x.2, graded, .refl _⟩
  | succ height ih =>
      obtain ⟨_, _, _, each⟩ := graded_internal graded
      rcases List.mem_cons.mp member with same | lower
      · cases same
        exact ⟨x.2, graded, .refl _⟩
      · rw [← fan_pages x, List.flatMap_map] at lower
        obtain ⟨y, child, inside⟩ := List.mem_flatMap.mp lower
        obtain ⟨upper, graded', part⟩ := ih (each y child) inside
        refine ⟨upper, graded', part.trans ?_⟩
        rw [leaves_succ, leaves_flatMap height (fan nodes x), List.flatMap_def]
        exact List.sublist_flatten_of_mem (List.mem_map_of_mem child)

omit [Key K] in
theorem mem_nodePages_of_below {height : Nat} {level : Level K} {x : Nat × WithTop K} (member : x ∈ level)
    {y : Nat × Nat} (below : y ∈ nodesBelow nodes height x.1) : y.2 ∈ nodePages nodes height level := by
  induction height generalizing level x with
  | zero =>
      cases List.mem_singleton.mp below
      exact mem_nodePages nodes 0 member
  | succ height ih =>
      rcases List.mem_cons.mp below with rfl | lower
      · exact mem_nodePages nodes (height + 1) member
      · rw [← fan_pages x, List.flatMap_map] at lower
        obtain ⟨z, child, inside⟩ := List.mem_flatMap.mp lower
        exact List.mem_append_right _ (ih (List.mem_flatMap.mpr ⟨x, member, child⟩) inside)

omit [Key K] in
/-- A key below a node is the key of an entry of one of its leaves or the separator of
one. -/
theorem keysBelow_spec {height : Nat} {x : Nat × WithTop K} (graded : Graded nodes height [x]) {key : K}
    (member : key ∈ keysBelow nodes height x.1) :
    ∃ y ∈ leaves nodes height [x], (∃ e ∈ leafEntries nodes y.1, e.key = key) ∨ y.2 = (key : WithTop K) := by
  induction height generalizing x with
  | zero =>
      obtain ⟨body, node⟩ := graded x (List.mem_singleton.mpr rfl)
      rw [keysBelow, node] at member
      obtain ⟨e, listed, rfl⟩ := List.mem_map.mp member
      refine ⟨x, List.mem_singleton.mpr rfl, .inl ⟨e, ?_, rfl⟩⟩
      rw [leafEntries, node]
      exact listed
  | succ height ih =>
      obtain ⟨body, node, children, each⟩ := graded_internal graded
      have inner : ∀ z ∈ fan nodes x, ∀ y ∈ leaves nodes height [z], y ∈ leaves nodes (height + 1) [x] := by
        intro z child y leaf
        rw [leaves_succ, leaves_flatMap]
        exact List.mem_flatMap.mpr ⟨z, child, leaf⟩
      rcases List.mem_append.mp member with own | lower
      · rw [node] at own
        obtain ⟨e, listed, rfl⟩ := List.mem_map.mp own
        have child : (e.childPage, (e.key : WithTop K)) ∈ fan nodes x := by
          rw [children]
          exact List.mem_append_left _ (List.mem_map.mpr ⟨e, listed, rfl⟩)
        obtain ⟨before, leaf, order⟩ := leaves_last (each _ child)
        refine ⟨(leaf, (e.key : WithTop K)), inner _ child _ ?_, .inr rfl⟩
        rw [order]
        exact List.mem_append_right _ (List.mem_singleton.mpr rfl)
      · rw [← fan_pages x, List.flatMap_map] at lower
        obtain ⟨z, child, inside⟩ := List.mem_flatMap.mp lower
        obtain ⟨y, leaf, found⟩ := ih (each z child) inside
        exact ⟨y, inner z child y leaf, found⟩

end Levels

/-! ## The order of the keys -/

section Order
variable {nodes : Nodes K}

theorem Ordered.sublist {level level' : Level K} (ordered : Ordered nodes level') (sub : level.Sublist level') :
    Ordered nodes level where
  ascending := ordered.ascending.sublist sub
  below := fun x member => ordered.below x (sub.subset member)
  above := ordered.above.sublist sub
  inner := fun x member => ordered.inner x (sub.subset member)

/-- The keys of a node are sorted. -/
theorem keys_sorted {height : Nat} {x : Nat × WithTop K} (graded : Graded nodes height [x])
    (ordered : Ordered nodes (leaves nodes height [x])) : (nodes x.1).keys.Pairwise (· ≤ ·) := by
  cases height with
  | zero =>
      obtain ⟨body, node⟩ := graded x (List.mem_singleton.mpr rfl)
      have inner := ordered.inner x (List.mem_singleton.mpr rfl)
      rw [leafEntries, node] at inner
      rw [node]
      exact List.pairwise_map.mpr (inner.imp EntryLe.key_le)
  | succ height =>
      obtain ⟨body, node, children, each⟩ := graded_internal graded
      rw [leaves_succ] at ordered
      have graded' : Graded nodes height (fan nodes x) := (graded_iff height _).mpr each
      have ascending := ordered.ascending.of_sublist (leaves_sublist graded')
      rw [children] at ascending
      rw [node]
      refine List.pairwise_map.mpr ((List.pairwise_map.mp (List.pairwise_append.mp ascending).1).imp ?_)
      exact fun le => WithTop.coe_le_coe.mp le

/-- The keys left of a separator are at most it, those right of it at least. -/
theorem keys_separated {height : Nat} {x : Nat × WithTop K} (graded : Graded nodes (height + 1) [x])
    (ordered : Ordered nodes (leaves nodes (height + 1) [x])) {body : InternalNodeBody K}
    (node : nodes x.1 = .internal body) {left right : List (InternalEntry K)} {e : InternalEntry K}
    (split : body.entries = left ++ e :: right) :
    (∀ child ∈ left.map InternalEntry.childPage ++ [e.childPage], ∀ key ∈ keysBelow nodes height child,
      key ≤ e.key) ∧
    ∀ child ∈ right.map InternalEntry.childPage ++ [body.rightmostChild], ∀ key ∈ keysBelow nodes height child,
      e.key ≤ key := by
  obtain ⟨body', node', children, each⟩ := graded_internal graded
  cases node.symm.trans node'
  let low : Level K := left.map fun e => (e.childPage, (e.key : WithTop K))
  let high : Level K := right.map (fun e => (e.childPage, (e.key : WithTop K))) ++ [(body.rightmostChild, x.2)]
  have whole : fan nodes x = low ++ (e.childPage, (e.key : WithTop K)) :: high := by
    rw [children, InternalNodeBody.fan, split, List.map_append, List.map_cons, List.append_assoc,
      List.cons_append]
  have here : (e.childPage, (e.key : WithTop K)) ∈ fan nodes x := by
    rw [whole]
    exact List.mem_append_right _ List.mem_cons_self
  obtain ⟨before, leaf, last⟩ := leaves_last (each _ here)
  have order : leaves nodes (height + 1) [x] =
      (leaves nodes height low ++ before) ++ (leaf, (e.key : WithTop K)) :: leaves nodes height high := by
    rw [leaves_succ, whole, leaves_append, ← List.singleton_append, leaves_append, last]
    simp only [List.append_assoc, List.singleton_append]
  rw [order] at ordered
  have ascending := List.pairwise_append.mp ordered.ascending
  have above := List.pairwise_append.mp ordered.above
  -- the leaves of a child, left or right
  have inside : ∀ {level : Level K} {z : Nat × WithTop K}, z ∈ level → ∀ y ∈ leaves nodes height [z],
      y ∈ leaves nodes height level := by
    intro level z child y listed
    rw [leaves_flatMap]
    exact List.mem_flatMap.mpr ⟨z, child, listed⟩
  constructor
  · intro child member key stored
    obtain ⟨z, listed, rfl⟩ : ∃ z ∈ low ++ [(e.childPage, (e.key : WithTop K))], z.1 = child := by
      have pages : (low ++ [(e.childPage, (e.key : WithTop K))]).map Prod.fst =
          left.map InternalEntry.childPage ++ [e.childPage] := by
        rw [List.map_append, List.map_map]
        rfl
      exact List.mem_map.mp (pages ▸ member)
    have own : z ∈ fan nodes x := by
      rw [whole, ← List.singleton_append, ← List.append_assoc]
      exact List.mem_append_left _ listed
    obtain ⟨y, found, cases⟩ := keysBelow_spec (each z own) stored
    have place : y ∈ (leaves nodes height low ++ before) ++ [(leaf, (e.key : WithTop K))] := by
      rw [List.append_assoc, ← last, ← leaves_append]
      exact inside listed y found
    have bound : y.2 ≤ (e.key : WithTop K) := by
      rcases List.mem_append.mp place with earlier | same
      · exact ascending.2.2 y earlier _ List.mem_cons_self
      · rw [List.mem_singleton.mp same]
    have whole' : y ∈ (leaves nodes height low ++ before) ++ (leaf, (e.key : WithTop K)) ::
        leaves nodes height high := by
      rw [← List.singleton_append, ← List.append_assoc]
      exact List.mem_append_left _ place
    rcases cases with ⟨entry, stored', rfl⟩ | same
    · exact WithTop.coe_le_coe.mp ((ordered.below y whole' entry stored').trans bound)
    · exact WithTop.coe_le_coe.mp (same ▸ bound)
  · intro child member key stored
    obtain ⟨z, listed, rfl⟩ : ∃ z ∈ high, z.1 = child := by
      have pages : high.map Prod.fst = right.map InternalEntry.childPage ++ [body.rightmostChild] := by
        rw [List.map_append, List.map_map]
        rfl
      exact List.mem_map.mp (pages ▸ member)
    have own : z ∈ fan nodes x := by
      rw [whole]
      exact List.mem_append_right _ (List.mem_cons_of_mem _ listed)
    obtain ⟨y, found, cases⟩ := keysBelow_spec (each z own) stored
    have place := inside listed y found
    rcases cases with ⟨entry, stored', rfl⟩ | same
    · exact WithTop.coe_le_coe.mp ((List.pairwise_cons.mp above.2.1).1 y place entry stored')
    · exact WithTop.coe_le_coe.mp (same ▸ (List.pairwise_cons.mp ascending.2.1).1 y place)

end Order

/-! ## The links of the leaves -/

section Links
variable {nodes : Nodes K}

omit [Key K] in
/-- Linked leaves are visited in order. -/
theorem followNext_linked {prev : Option Nat} {pages : List Nat} (linked : Linked nodes prev none pages)
    {steps : Nat} (enough : pages.length ≤ steps) : followNext nodes steps pages.head? = pages := by
  induction pages generalizing prev steps with
  | nil => cases steps <;> rfl
  | cons page pages ih =>
      obtain ⟨⟨body, node, _, next⟩, rest⟩ := linked
      cases steps with
      | zero => cases enough
      | succ steps =>
          rw [List.head?_cons, followNext, node, NodeBody.nextLeaf, next, Option.or_none,
            ih rest (Nat.le_of_succ_le_succ enough)]

omit [Key K] in
theorem linked_neighbours {prev next : Option Nat} {before after : List Nat} {page page' : Nat}
    (linked : Linked nodes prev next (before ++ page :: page' :: after)) :
    (nodes page).nextLeaf = some page' ∧ (nodes page').prevLeaf = some page := by
  obtain ⟨⟨body, node, _, forward⟩, ⟨body', node', backward, _⟩, _⟩ := (linked_append.mp linked).2
  rw [node, node']
  exact ⟨forward, backward⟩

end Links

/-- A tree that keeps the invariant of the levels keeps it node by node. -/
theorem IndexInv.represented {tree : IndexTree} {m : MemoryManager} {nodes : Nodes K} {height : Nat}
    {other : Nat → Prop} (inv : IndexInv tree m nodes height other) : Represented tree m nodes height := by
  let root : Nat × WithTop K := (tree.rootPage, ⊤)
  have graded : Graded nodes height [root] := inv.graded
  have holds : ∀ x ∈ nodesBelow nodes height tree.rootPage, Holds m x.2 (nodes x.2) := fun x member =>
    inv.holds x.2 (mem_nodePages_of_below (List.mem_singleton.mpr rfl : root ∈ [root]) member)
  have pages : (leaves nodes height [root]).map Prod.fst = leavesBelow nodes height tree.rootPage :=
    leaves_pages graded
  have linked : Linked nodes none none (leavesBelow nodes height tree.rootPage) := pages ▸ inv.linked
  have counted : ∀ body : NodeBody K, body.items.length = body.keys.length := by
    intro body
    cases body <;> simp [NodeBody.items, NodeBody.keys]
  obtain ⟨rest, order⟩ := leavesBelow_head graded
  constructor
  · intro x member
    obtain ⟨header, entries, read⟩ := (holds x member).read_runs
    exact ⟨header, read, entries.trans (counted _)⟩
  · exact fun x member => (holds x member).fits
  · rintro ⟨below, page⟩ member
    obtain ⟨upper, graded', _⟩ := nodesBelow_spec graded member
    cases below with
    | zero => exact iff_of_true (graded' _ (List.mem_singleton.mpr rfl)) rfl
    | succ below =>
        obtain ⟨body, node, _⟩ := graded_internal graded'
        refine iff_of_false ?_ (Nat.succ_ne_zero below)
        rintro ⟨body', leaf⟩
        cases node.symm.trans leaf
  · rintro ⟨below, page⟩ member
    obtain ⟨upper, graded', part⟩ := nodesBelow_spec graded member
    exact keys_sorted graded' (inv.ordered.sublist part)
  · intro below page body member node left e right split
    obtain ⟨upper, graded', part⟩ := nodesBelow_spec graded member
    exact keys_separated graded' (inv.ordered.sublist part) node split
  · intro steps enough
    have visited := followNext_linked linked enough
    rw [show (leavesBelow nodes height tree.rootPage).head? = some (leftmostLeaf nodes height tree.rootPage) from
      congrArg List.head? order] at visited
    exact visited
  · intro before page next after split
    rw [split] at linked
    exact linked_neighbours linked
  · rw [show leavesBelow nodes height tree.rootPage = leftmostLeaf nodes height tree.rootPage :: rest from order]
      at linked
    obtain ⟨⟨body, node, before, _⟩, _⟩ := linked
    rw [node]
    exact before
  · rw [← pages]
    exact inv.nodup.sublist (leaves_pages_sublist nodes height _)

/-- After every sequence of calls on a new tree, the tree keeps the invariant of its
representation. -/
theorem index_tree_represented {other : Nat → Prop} {m₀ m₁ m : MemoryManager} {tree₀ tree : IndexTree}
    {calls : List (IndexCall K)} (supply : PageSupply m₀ other) (created : m₀.Runs (IndexTree.init K) tree₀ m₁)
    (run : IndexRun tree₀ m₁ calls tree m) :
    ∃ (nodes : Nodes K) (height : Nat), Represented tree m nodes height ∧
      IndexCall.Effects calls 0 ((leavesBelow nodes height tree.rootPage).flatMap (leafEntries nodes) :
        Multiset (LeafEntry K)) := by
  obtain ⟨pairs, effects, nodes, height, inv, rfl⟩ := run.holds (IndexTree.init_holds supply created)
  refine ⟨nodes, height, inv.represented, ?_⟩
  have pages : IndexInv.leafPages nodes height tree = leavesBelow nodes height tree.rootPage :=
    leaves_pages inv.graded
  rw [IndexInv.entries, content, pages] at effects
  exact effects

theorem index_tree_represented_after_sample_insert :
    ∃ (m : MemoryManager) (nodes : Nodes UInt8) (height : Nat), Represented ⟨2⟩ m nodes height := by
  obtain ⟨m₁, created, root, _⟩ := IndexSample.created UInt8
  obtain ⟨m, run⟩ := IndexSample.inserted root
  obtain ⟨nodes, height, represented, _⟩ := index_tree_represented IndexSample.memory_supply created run
  exact ⟨m, nodes, height, represented⟩

end WasmDbms
