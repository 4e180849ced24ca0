import Mathlib.Tactic.Tauto
import WasmDbms.Index.Split

/-!
# Halving a node

During an insertion the nodes of the path wait in memory to be flushed, while
the right halves of splits are written at once. A level is settled when its
forest is in order, seen through the nodes that wait.
-/
namespace WasmDbms
open Bisect MemoryManager

variable {K : Type} [Key K]

/-- The nodes of some pages: on disk, except for those that wait to be flushed. -/
structure Overlay (m : MemoryManager) (nodes : Nodes K) (pages : List Nat) (waiting : List (BTreeNode K)) :
    Prop where
  loaded : ∀ n ∈ waiting, n.page ∈ pages ∧ n.body = nodes n.page ∧ n.Counted ∧ n.body.InRange ∧
    (n.dirty = false → Holds m n.page n.body)
  distinct : (waiting.map BTreeNode.page).Nodup
  disk : ∀ page ∈ pages, page ∉ waiting.map BTreeNode.page → Holds m page (nodes page)

/-- A level in order, with nodes waiting to be flushed. -/
structure Settled (other : Nat → Prop) (m : MemoryManager) (nodes : Nodes K) (height : Nat) (level : Level K)
    (waiting : List (BTreeNode K)) : Prop where
  forest : Forest nodes height level
  overlay : Overlay m nodes (nodePages nodes height level) waiting
  supply : PageSupply m fun q => q ∈ nodePages nodes height level ∨ other q
  separate : ∀ q ∈ nodePages nodes height level, ¬ other q

/-- The node is left alone, or split with a promotion. -/
inductive Outcome (before after : Level K) (page : Nat) (upper : WithTop K) :
    Option (Promotion K) → Level K → Prop where
  | whole : Outcome before after page upper none (before ++ (page, upper) :: after)
  | split (key : K) (right : Nat) : Outcome before after page upper (some ⟨key, page, right⟩)
      (before ++ (page, (key : WithTop K)) :: (right, upper) :: after)

/-- What a change of a level does around it. -/
structure Widens (other : Nat → Prop) (m m' : MemoryManager) (nodes nodes' : Nodes K) (height : Nat)
    (level level' : Level K) : Prop where
  frame : Frame other m m'
  kept : ∀ page ∈ nodePages nodes height level, page ∈ nodePages nodes' height level'
  same : ∀ page, page ∉ nodePages nodes' height level' → nodes' page = nodes page

omit [Key K] in
theorem Widens.trans {other : Nat → Prop} {m m₁ m₂ : MemoryManager} {nodes nodes₁ nodes₂ : Nodes K}
    {height : Nat} {level level₁ level₂ : Level K} (first : Widens other m m₁ nodes nodes₁ height level level₁)
    (second : Widens other m₁ m₂ nodes₁ nodes₂ height level₁ level₂) :
    Widens other m m₂ nodes nodes₂ height level level₂ where
  frame := first.frame.trans second.frame
  kept := fun page member => second.kept page (first.kept page member)
  same := fun page absent => (second.same page absent).trans
    (first.same page fun member => absent (second.kept page member))

section Pages

variable {other : Nat → Prop} {m m₁ m' : MemoryManager} {nodes : Nodes K} {height : Nat} {level : Level K}
  {waiting : List (BTreeNode K)}

theorem page_lt_sentinel {m : MemoryManager} {page : Nat} (alloc : page < m.pages) : page < noPageSentinel := by
  have bound := Nat.lt_of_lt_of_le alloc m.pages_le
  have capacity := m.capacity_lt
  unfold noPageSentinel
  omega

/-- A page is claimed and a new node flushed to it. -/
theorem claim_flush {owned : Nat → Prop} {page : Nat} {node r : BTreeNode K} (supply : PageSupply m owned)
    (claimed : m.Runs MemoryAccess.claimPage page m₁) (flushed : m₁.Runs node.flush r m')
    (here : node.page = page) (counted : node.Counted) (range : node.body.InRange)
    (dirty : node.dirty = true) :
    ¬ owned page ∧ Holds m' page node.body ∧ Frame owned m m' ∧
      PageSupply m' fun q => q = page ∨ owned q := by
  have claim := supply.claimPage_runs claimed
  obtain ⟨holds, rewritten⟩ := flush_dirty counted range dirty flushed
  rw [here] at holds rewritten
  refine ⟨claim.fresh, holds, ⟨?_, ?_⟩, ?_⟩
  · rw [rewritten.pages]
    exact claim.pages_le
  · intro q owns
    have allocated := supply.owned_allocated q owns
    refine (claim.same q allocated.1 allocated.2).trans (rewritten.same q ?_)
    rintro rfl
    exact claim.fresh owns
  · refine claim.supply.of_same rewritten.pages ?_
    intro q foreign
    exact rewritten.same q fun same => foreign (.inl same)

theorem Settled.allocated (settled : Settled other m nodes height level waiting) {page : Nat}
    (member : page ∈ nodePages nodes height level) : page < m.pages :=
  (settled.supply.owned_allocated page (.inl member)).1

theorem Overlay.congr {nodes' : Nodes K} {pages : List Nat} (overlay : Overlay m nodes pages waiting)
    (pages_le : m.pages ≤ m'.pages) (same : ∀ page ∈ pages, SamePage m m' page ∧ nodes' page = nodes page) :
    Overlay m' nodes' pages waiting := by
  refine ⟨?_, overlay.distinct, ?_⟩
  · intro n member
    obtain ⟨listed, body, counted, range, clean⟩ := overlay.loaded n member
    refine ⟨listed, body.trans (same _ listed).2.symm, counted, range, ?_⟩
    exact fun h => (clean h).of_same pages_le (same _ listed).1
  · intro page listed absent
    rw [(same page listed).2]
    exact (overlay.disk page listed absent).of_same pages_le (same page listed).1

end Pages

/-- The entries of the leaves below a level. -/
def entriesBelow (nodes : Nodes K) (height : Nat) (level : Level K) : List (LeafEntry K) :=
  content nodes ((leaves nodes height level).map Prod.fst)

/-- What the split of a settled node gives. -/
structure Halved (other : Nat → Prop) (m m' : MemoryManager) (nodes : Nodes K) (height : Nat)
    (before after : Level K) (page : Nat) (upper : WithTop K) (waiting : List (BTreeNode K)) (n' : BTreeNode K)
    (promotion : Option (Promotion K)) (nodes' : Nodes K) (level' : Level K) : Prop where
  outcome : Outcome before after page upper promotion level'
  settled : Settled other m' nodes' height level' (waiting ++ [n'])
  widens : Widens other m m' nodes nodes' height (before ++ (page, upper) :: after) level'
  entries : entriesBelow nodes' height level' =
    entriesBelow nodes height (before ++ (page, upper) :: after)

omit [Key K] in
theorem exists_two_new (nodes : Nodes K) {a b : Nat} (apart : a ≠ b) (x y : NodeBody K) :
    ∃ nodes' : Nodes K, nodes' a = x ∧ nodes' b = y ∧ ∀ q, q ≠ a → q ≠ b → nodes' q = nodes q := by
  refine ⟨Function.update (Function.update nodes a x) b y, ?_, Function.update_self .., ?_⟩
  · rw [Function.update_of_ne apart, Function.update_self]
  · intro q one two
    rw [Function.update_of_ne two, Function.update_of_ne one]

section Internal

variable {other : Nat → Prop} {m m' : MemoryManager} {nodes : Nodes K} {height : Nat}
  {before after : Level K} {upper : WithTop K} {waiting : List (BTreeNode K)}

/-- The two halves of an internal node on a level. -/
theorem Forest.split_internal {page right : Nat} {body : InternalNodeBody K} {mid : Nat}
    {median : InternalEntry K}
    (forest : Forest nodes (height + 1) (before ++ (page, upper) :: after)) (node : nodes page = .internal body)
    (found : body.entries[mid]? = some median)
    (fresh : right ∉ nodePages nodes (height + 1) (before ++ (page, upper) :: after)) {nodes' : Nodes K}
    (left : nodes' page = .internal ⟨body.entries.take mid, median.childPage⟩)
    (rightNode : nodes' right = .internal ⟨body.entries.drop (mid + 1), body.rightmostChild⟩)
    (others : ∀ q, q ≠ page → q ≠ right → nodes' q = nodes q) :
    Forest nodes' (height + 1) (before ++ (page, (median.key : WithTop K)) :: (right, upper) :: after) ∧
      (nodePages nodes' (height + 1) (before ++ (page, (median.key : WithTop K)) :: (right, upper) :: after)).Perm
        (right :: nodePages nodes (height + 1) (before ++ (page, upper) :: after)) ∧
      entriesBelow nodes' (height + 1) (before ++ (page, (median.key : WithTop K)) :: (right, upper) :: after) =
        entriesBelow nodes (height + 1) (before ++ (page, upper) :: after) := by
  obtain ⟨internal, nodup, lower⟩ := forest_succ.mp forest
  have here : page ∈ (before ++ (page, upper) :: after).map Prod.fst := by simp
  have notHere : ∀ x ∈ before ++ after, x.1 ≠ page ∧ x.1 ≠ right := by
    intro x member
    have distinct := (List.nodup_append.mp nodup).1
    rw [List.map_append, List.map_cons, List.nodup_middle, List.nodup_cons, ← List.map_append] at distinct
    constructor
    · rintro rfl
      exact distinct.1 (List.mem_map.mpr ⟨x, member, rfl⟩)
    · rintro rfl
      refine fresh (mem_nodePages nodes (height + 1) (x := x) ?_)
      simp only [List.mem_append, List.mem_cons] at member ⊢
      rcases member with early | late
      · exact .inl early
      · exact .inr (.inr late)
  have sideSame : ∀ x ∈ before ++ after, nodes' x.1 = nodes x.1 :=
    fun x member => others x.1 (notHere x member).1 (notHere x member).2
  -- the level below is the same
  have below : (before ++ (page, (median.key : WithTop K)) :: (right, upper) :: after).flatMap (fan nodes') =
      (before ++ (page, upper) :: after).flatMap (fan nodes) := by
    have early : before.flatMap (fan nodes') = before.flatMap (fan nodes) :=
      fan_congr fun x member => .inl (sideSame x (List.mem_append_left _ member))
    have late : after.flatMap (fan nodes') = after.flatMap (fan nodes) :=
      fan_congr fun x member => .inl (sideSame x (List.mem_append_right _ member))
    have whole : fan nodes (page, upper) = body.fan upper := by
      unfold fan
      rw [node]
    have first : fan nodes' (page, (median.key : WithTop K)) =
        InternalNodeBody.fan ⟨body.entries.take mid, median.childPage⟩ (median.key : WithTop K) := by
      unfold fan
      rw [left]
    have second : fan nodes' (right, upper) =
        InternalNodeBody.fan ⟨body.entries.drop (mid + 1), body.rightmostChild⟩ upper := by
      unfold fan
      rw [rightNode]
    simp only [List.flatMap_append, List.flatMap_cons, early, late, whole, first, second]
    rw [← fan_split found, List.append_assoc]
  have lowerSame : ∀ q ∈ nodePages nodes height ((before ++ (page, upper) :: after).flatMap (fan nodes)),
      nodes' q = nodes q := by
    intro q member
    refine others q ?_ ?_
    · rintro rfl
      exact (List.nodup_append.mp nodup).2.2 q here q member rfl
    · rintro rfl
      exact fresh (List.mem_append_right _ member)
  obtain ⟨lower', sameLeaves, samePages⟩ := lower.congr lowerSame
  have pages : (nodePages nodes' (height + 1)
      (before ++ (page, (median.key : WithTop K)) :: (right, upper) :: after)).Perm
        (right :: nodePages nodes (height + 1) (before ++ (page, upper) :: after)) := by
    simp only [nodePages, below, samePages, List.map_append, List.map_cons]
    have moved : ((before.map Prod.fst ++ [page]) ++ right :: after.map Prod.fst).Perm
        (right :: ((before.map Prod.fst ++ [page]) ++ after.map Prod.fst)) := List.perm_middle
    rw [← List.cons_append]
    refine List.Perm.append_right _ ?_
    simpa using moved
  refine ⟨forest_succ.mpr ⟨?_, ?_, ?_⟩, pages, ?_⟩
  · intro x member
    simp only [List.mem_append, List.mem_cons] at member
    rcases member with early | rfl | rfl | late
    · rw [sideSame x (List.mem_append_left _ early)]
      exact internal x (List.mem_append_left _ early)
    · exact ⟨_, left⟩
    · exact ⟨_, rightNode⟩
    · rw [sideSame x (List.mem_append_right _ late)]
      exact internal x (by simp [late])
  · rw [pages.nodup_iff, List.nodup_cons]
    exact ⟨fresh, nodup⟩
  · rw [below]
    exact lower'
  · unfold entriesBelow
    simp only [leaves, below, sameLeaves]
    apply List.flatMap_congr
    intro q member
    unfold leafEntries
    rw [lowerSame q ((leaves_pages_sublist nodes height _).subset member)]

/-- An internal node that waits to be flushed is split. -/
theorem Settled.split_internal {n n' : BTreeNode K} {p : Promotion K} {body : InternalNodeBody K}
    (settled : Settled other m nodes (height + 1) (before ++ (n.page, upper) :: after) (waiting ++ [n]))
    (kind : n.body = .internal body) (small : body.entries.length ≤ 16384)
    (run : m.Runs (IndexTree.splitNode n) (n', p) m') :
    ∃ nodes' level', Halved other m m' nodes (height + 1) before after n.page upper waiting n' (some p)
      nodes' level' := by
  obtain ⟨listed, bodyEq, _, range, _⟩ := settled.overlay.loaded n (by simp)
  rw [kind] at range
  have node : nodes n.page = .internal body := by rw [← bodyEq, kind]
  simp only [IndexTree.splitNode, kind, runs_bind, runs_lift] at run
  obtain ⟨mid, _, ⟨_, rfl⟩, rest⟩ := run
  cases found : body.entries[mid]? with
  | none => simp [found] at rest
  | some median =>
      simp only [found, runs_bind, runs_pure] at rest
      obtain ⟨right, m₁, claimed, flushed, m₂, flush, result, rfl⟩ := rest
      cases result
      have medianIn := List.mem_of_getElem? found
      have leftShort : (body.entries.take mid).length ≤ 16384 := by
        rw [List.length_take]
        omega
      have rightShort : (body.entries.drop (mid + 1)).length ≤ 16384 := by
        rw [List.length_drop]
        omega
      have counted : ∀ (page : Nat) (parent : Option Nat) (entries : List (InternalEntry K)) (last : Nat),
          entries.length ≤ 16384 → BTreeNode.Counted (⟨page, ⟨parent, entries.length % 65536⟩,
            .internal ⟨entries, last⟩, true⟩ : BTreeNode K) := by
        intro page parent entries last short
        unfold BTreeNode.Counted
        rw [NodeBody.items, List.length_map]
        exact Nat.mod_eq_of_lt (by omega)
      have rightRange : (NodeBody.internal ⟨body.entries.drop (mid + 1), body.rightmostChild⟩).InRange :=
        ⟨range.1, fun e member => range.2 e (List.mem_of_mem_drop member)⟩
      have leftRange : (NodeBody.internal ⟨body.entries.take mid, median.childPage⟩).InRange :=
        ⟨range.2 median medianIn, fun e member => range.2 e (List.mem_of_mem_take member)⟩
      obtain ⟨fresh, rightHolds, frame, supply⟩ := claim_flush settled.supply claimed flush rfl
        (counted _ _ _ _ rightShort) rightRange rfl
      rw [not_or] at fresh
      have apart : n.page ≠ right := by
        rintro same
        exact fresh.1 (same ▸ listed)
      obtain ⟨nodes', leftNode, rightNode, others⟩ := exists_two_new nodes apart
        (.internal ⟨body.entries.take mid, median.childPage⟩)
        (.internal ⟨body.entries.drop (mid + 1), body.rightmostChild⟩)
      obtain ⟨forest, pages, entries⟩ :=
        settled.forest.split_internal node found fresh.1 leftNode rightNode others
      have members : ∀ q, q ∈ nodePages nodes' (height + 1)
          (before ++ (n.page, (median.key : WithTop K)) :: (right, upper) :: after) ↔
          q = right ∨ q ∈ nodePages nodes (height + 1) (before ++ (n.page, upper) :: after) := by
        intro q
        rw [pages.mem_iff, List.mem_cons]
      have waitingApart : ∀ k ∈ waiting, k.page ≠ n.page := by
        intro k member same
        have distinct := settled.overlay.distinct
        rw [List.map_append, List.nodup_append] at distinct
        exact distinct.2.2 k.page (List.mem_map_of_mem member) n.page (by simp) same
      refine ⟨nodes', _, .split median.key right, ⟨forest, ⟨?_, ?_, ?_⟩, ?_, ?_⟩, ⟨?_, ?_, ?_⟩, entries⟩
      · intro k member
        rw [List.mem_append, List.mem_singleton] at member
        rcases member with old | rfl
        · obtain ⟨owned, same, count, inRange, clean⟩ := settled.overlay.loaded k (List.mem_append_left _ old)
          have unchanged : nodes' k.page = nodes k.page :=
            others k.page (waitingApart k old) (fun here => fresh.1 (here ▸ owned))
          refine ⟨(members _).mpr (.inr owned), same.trans unchanged.symm, count, inRange, ?_⟩
          exact fun h => (clean h).of_same frame.pages_le (frame.same _ (.inl owned))
        · exact ⟨(members _).mpr (.inr listed), leftNode.symm, counted _ _ _ _ leftShort, leftRange,
            fun clean => by cases clean⟩
      · have distinct := settled.overlay.distinct
        rwa [List.map_append] at distinct ⊢
      · intro q member absent
        rcases (members q).mp member with rfl | old
        · rw [rightNode]
          exact rightHolds
        · have notPage : q ≠ n.page := by
            rintro rfl
            exact absent (by simp)
          rw [others q notPage (fun here => fresh.1 (here ▸ old))]
          have absent' : q ∉ (waiting ++ [n]).map BTreeNode.page := by
            rw [List.map_append] at absent ⊢
            exact absent
          exact (settled.overlay.disk q old absent').of_same frame.pages_le (frame.same q (.inl old))
      · exact supply.congr fun q => by rw [members, or_assoc]
      · intro q member
        rcases (members q).mp member with rfl | old
        · exact fresh.2
        · exact settled.separate q old
      · exact ⟨frame.pages_le, fun q foreign => frame.same q (.inr foreign)⟩
      · exact fun q old => (members q).mpr (.inr old)
      · intro q absent
        rw [members, not_or] at absent
        exact others q (fun here => absent.2 (here ▸ listed)) absent.1

end Internal

section Leaf

variable {other : Nat → Prop} {m m' : MemoryManager} {nodes : Nodes K}
  {before after : Level K} {upper : WithTop K}

/-- The leaf behind a split leaf points back to the new one. -/
theorem relinkNext_runs {next : Option Nat} {right : Nat} {r : Unit}
    (held : ∀ x, next = some x → ∃ b, nodes x = .leaf b ∧ Holds m x (.leaf b))
    (small : right < noPageSentinel) (run : m.Runs (IndexTree.relinkNext (K := K) next right) r m') :
    m'.pages = m.pages ∧ ∃ nodes₁ : Nodes K,
      (∀ x b, next = some x → nodes x = .leaf b →
        nodes₁ x = .leaf { b with prevLeaf := some right } ∧ Holds m' x (nodes₁ x)) ∧
      ∀ q, next ≠ some q → nodes₁ q = nodes q ∧ SamePage m m' q := by
  cases next with
  | none =>
      obtain ⟨_, rfl⟩ := runs_pure.mp run
      exact ⟨rfl, nodes, by simp, fun q _ => ⟨rfl, fun _ _ => rfl⟩⟩
  | some x =>
      obtain ⟨b, node, holds⟩ := held x rfl
      simp only [IndexTree.relinkNext, runs_bind] at run
      obtain ⟨n, _, read, rest⟩ := run
      obtain ⟨rfl, page, body, _, counted⟩ := holds.read_eq read
      simp only [body, runs_bind, runs_pure] at rest
      obtain ⟨_, _, flush, _, rfl⟩ := rest
      have range : (NodeBody.leaf { b with prevLeaf := some right }).InRange :=
        ⟨fun q same => Option.some.inj same ▸ small, holds.range.2.1, holds.range.2.2⟩
      have count : BTreeNode.Counted (⟨n.page, n.header, .leaf { b with prevLeaf := some right }, true⟩ :
        BTreeNode K) := counted
      obtain ⟨written, rewritten⟩ := flush_dirty count range rfl flush
      simp only [page] at written rewritten
      refine ⟨rewritten.pages, Function.update nodes x (.leaf { b with prevLeaf := some right }), ?_, ?_⟩
      · intro y c same found
        cases same
        rw [node] at found
        cases found
        rw [Function.update_self]
        exact ⟨rfl, written⟩
      · intro q differs
        have apart : q ≠ x := fun same => differs (same ▸ rfl)
        exact ⟨Function.update_of_ne apart .., rewritten.same q apart⟩

/-- The two halves of a leaf in the chain. -/
theorem Forest.split_leaf {page right : Nat} {body leftBody rightBody : LeafNodeBody K} {first : LeafEntry K}
    {rest : List (LeafEntry K)} {nodes' : Nodes K}
    (forest : Forest nodes 0 (before ++ (page, upper) :: after)) (node : nodes page = .leaf body)
    (whole : body.entries = leftBody.entries ++ first :: rest) (cut : rightBody.entries = first :: rest)
    (fresh : right ∉ nodePages nodes 0 (before ++ (page, upper) :: after))
    (left : nodes' page = .leaf leftBody) (rightNode : nodes' right = .leaf rightBody)
    (links : leftBody.prevLeaf = body.prevLeaf ∧ leftBody.nextLeaf = some right ∧
      rightBody.prevLeaf = some page ∧ rightBody.nextLeaf = body.nextLeaf)
    (neighbour : ∀ x b, body.nextLeaf = some x → nodes x = .leaf b →
      nodes' x = .leaf { b with prevLeaf := some right })
    (others : ∀ q ∈ (before ++ after).map Prod.fst, body.nextLeaf ≠ some q → nodes' q = nodes q) :
    Forest nodes' 0 (before ++ (page, (first.key : WithTop K)) :: (right, upper) :: after) ∧
      entriesBelow nodes' 0 (before ++ (page, (first.key : WithTop K)) :: (right, upper) :: after) =
        entriesBelow nodes 0 (before ++ (page, upper) :: after) := by
  have distinct : ((before ++ (page, upper) :: after).map Prod.fst).Nodup := forest.nodup
  rw [List.map_append, List.map_cons, List.nodup_append, List.nodup_cons] at distinct
  obtain ⟨_, ⟨notAfter, afterNodup⟩, cross⟩ := distinct
  have chained : Linked nodes none none (before.map Prod.fst ++ page :: after.map Prod.fst) := by
    have linked := forest.linked
    rwa [leaves, List.map_append, List.map_cons] at linked
  have next : body.nextLeaf = (after.map Prod.fst).head? := by
    obtain ⟨⟨b, found, _, following⟩, _⟩ := (linked_append.mp chained).2
    rw [node] at found
    cases found
    simpa using following
  have leaf : ∀ x ∈ before ++ after, ∃ b, nodes x.1 = .leaf b := by
    intro x member
    refine forest.graded x ?_
    simp only [List.mem_append, List.mem_cons] at member ⊢
    rcases member with early | late
    · exact .inl early
    · exact .inr (.inr late)
  have shapes : ∀ x ∈ before ++ after, ∃ b b', nodes x.1 = .leaf b ∧ nodes' x.1 = .leaf b' ∧
      b'.entries = b.entries := by
    intro x member
    obtain ⟨b, found⟩ := leaf x member
    by_cases behind : body.nextLeaf = some x.1
    · exact ⟨b, _, found, neighbour x.1 b behind found, rfl⟩
    · exact ⟨b, b, found, (others x.1 (List.mem_map_of_mem member) behind).trans found, rfl⟩
  have sameEntries : ∀ x ∈ before ++ after, leafEntries nodes' x.1 = leafEntries nodes x.1 := by
    intro x member
    obtain ⟨b, b', old, new, same⟩ := shapes x member
    unfold leafEntries
    rw [old, new]
    exact same
  have entriesHere : leafEntries nodes page = leftBody.entries ++ first :: rest := by
    unfold leafEntries
    rw [node]
    exact whole
  have entriesLeft : leafEntries nodes' page = leftBody.entries := by
    unfold leafEntries
    rw [left]
  have entriesRight : leafEntries nodes' right = first :: rest := by
    unfold leafEntries
    rw [rightNode]
    exact cut
  refine ⟨⟨?_, ?_, ?_, ?_⟩, ?_⟩
  · intro x member
    simp only [List.mem_append, List.mem_cons] at member
    rcases member with early | rfl | rfl | late
    · obtain ⟨_, b', _, new, _⟩ := shapes x (List.mem_append_left _ early)
      exact ⟨b', new⟩
    · exact ⟨_, left⟩
    · exact ⟨_, rightNode⟩
    · obtain ⟨_, b', _, new, _⟩ := shapes x (List.mem_append_right _ late)
      exact ⟨b', new⟩
  · have nodup := forest.nodup
    simp only [nodePages, List.map_append, List.map_cons] at nodup fresh ⊢
    have moved : ((before.map Prod.fst ++ [page]) ++ right :: after.map Prod.fst).Perm
        (right :: ((before.map Prod.fst ++ [page]) ++ after.map Prod.fst)) := List.perm_middle
    simp only [List.append_assoc, List.singleton_append] at moved
    rw [moved.nodup_iff, List.nodup_cons]
    exact ⟨fresh, nodup⟩
  · simp only [leaves, List.map_append, List.map_cons]
    refine chained.cut node left rightNode links.1 links.2.1 links.2.2.1 links.2.2.2 ?_ ?_ ?_
    · intro x member
      refine others x (by rw [List.map_append]; exact List.mem_append_left _ member) ?_
      rw [next]
      intro head
      exact cross x member x (List.mem_cons_of_mem _ (List.mem_of_head? head)) rfl
    · intro x member
      refine others x (by rw [List.map_append]; exact List.mem_append_right _ (List.mem_of_mem_tail member)) ?_
      rw [next]
      intro head
      cases list : after.map Prod.fst with
      | nil => simp [list] at head
      | cons y ys =>
          rw [list] at head member afterNodup
          cases head
          exact (List.nodup_cons.mp afterNodup).1 member
    · intro x b head found
      exact neighbour x b (next.trans head) found
  · exact forest.ordered.cut entriesHere entriesLeft entriesRight sameEntries
  · have early : content nodes' (before.map Prod.fst) = content nodes (before.map Prod.fst) := by
      simp only [content, List.flatMap_map]
      exact List.flatMap_congr fun x member => sameEntries x (List.mem_append_left _ member)
    have late : content nodes' (after.map Prod.fst) = content nodes (after.map Prod.fst) := by
      simp only [content, List.flatMap_map]
      exact List.flatMap_congr fun x member => sameEntries x (List.mem_append_right _ member)
    simp only [entriesBelow, leaves, List.map_append, List.map_cons, content_split]
    have second : content nodes' (right :: after.map Prod.fst) =
        leafEntries nodes' right ++ content nodes' (after.map Prod.fst) := List.flatMap_cons
    rw [early, second, late, entriesLeft, entriesRight, entriesHere]
    simp only [List.append_assoc, List.cons_append]

/-- The leaf behind a leaf that waits to be flushed is another one of the level. -/
theorem Settled.neighbour {n : BTreeNode K} {body : LeafNodeBody K}
    (settled : Settled other m nodes 0 (before ++ (n.page, upper) :: after) [n]) (kind : n.body = .leaf body)
    {x : Nat} (behind : body.nextLeaf = some x) :
    x ∈ nodePages nodes 0 (before ++ (n.page, upper) :: after) ∧ x ≠ n.page ∧
      ∃ b, nodes x = .leaf b ∧ Holds m x (.leaf b) := by
  have node : nodes n.page = .leaf body := by rw [← (settled.overlay.loaded n (by simp)).2.1, kind]
  have chained : Linked nodes none none (before.map Prod.fst ++ n.page :: after.map Prod.fst) := by
    have linked := settled.forest.linked
    rwa [leaves, List.map_append, List.map_cons] at linked
  have next : body.nextLeaf = (after.map Prod.fst).head? := by
    obtain ⟨⟨b, found, _, following⟩, _⟩ := (linked_append.mp chained).2
    rw [node] at found
    cases found
    simpa using following
  rw [next] at behind
  have member := List.mem_of_head? behind
  have distinct : ((before ++ (n.page, upper) :: after).map Prod.fst).Nodup := settled.forest.nodup
  rw [List.map_append, List.map_cons, List.nodup_append, List.nodup_cons] at distinct
  have differs : x ≠ n.page := fun same => distinct.2.1.1 (same ▸ member)
  have listed : x ∈ nodePages nodes 0 (before ++ (n.page, upper) :: after) := by
    simp only [nodePages, List.map_append, List.map_cons, List.mem_append, List.mem_cons]
    exact .inr (.inr member)
  obtain ⟨y, inLevel, rfl⟩ := List.mem_map.mp listed
  obtain ⟨b, found⟩ := settled.forest.graded y inLevel
  exact ⟨listed, differs, b, found, found ▸ settled.overlay.disk y.1 listed (by simpa using differs)⟩

/-- A leaf that waits to be flushed is split. -/
theorem Settled.split_leaf {n n' : BTreeNode K} {p : Promotion K} {body : LeafNodeBody K}
    (settled : Settled other m nodes 0 (before ++ (n.page, upper) :: after) [n])
    (kind : n.body = .leaf body) (small : body.entries.length ≤ 16384)
    (run : m.Runs (IndexTree.splitNode n) (n', p) m') :
    ∃ nodes' level', Halved other m m' nodes 0 before after n.page upper [] n' (some p) nodes' level' := by
  obtain ⟨listed, bodyEq, _, range, _⟩ := settled.overlay.loaded n (by simp)
  rw [kind] at range
  have node : nodes n.page = .leaf body := by rw [← bodyEq, kind]
  simp only [IndexTree.splitNode, kind, runs_bind, runs_lift] at run
  obtain ⟨splitAt, _, ⟨_, rfl⟩, rest⟩ := run
  cases cut : body.entries.drop splitAt with
  | nil => simp [cut] at rest
  | cons first tail =>
      simp only [cut, List.head?_cons, runs_bind, runs_pure] at rest
      obtain ⟨right, m₁, claimed, _, m₂, relinked, flushed, m₃, flush, result, rfl⟩ := rest
      cases result
      have split := List.take_append_drop splitAt body.entries
      rw [cut] at split
      have lengths := congrArg List.length split
      rw [List.length_append, List.length_cons] at lengths
      have claim := settled.supply.claimPage_runs claimed
      have fresh := claim.fresh
      rw [not_or] at fresh
      have apart : n.page ≠ right := fun same => fresh.1 (same ▸ listed)
      have rightSmall : right < noPageSentinel :=
        page_lt_sentinel (claim.supply.owned_allocated right (.inl rfl)).1
      have distinct : ((before ++ (n.page, upper) :: after).map Prod.fst).Nodup := settled.forest.nodup
      have disk : ∀ q ∈ nodePages nodes 0 (before ++ (n.page, upper) :: after), q ≠ n.page →
          Holds m₁ q (nodes q) := by
        intro q member differs
        have allocated := settled.supply.owned_allocated q (.inl member)
        refine (settled.overlay.disk q member (by simpa using differs)).of_same claim.pages_le
          (claim.same q allocated.1 allocated.2)
      have held : ∀ x, body.nextLeaf = some x → ∃ b, nodes x = .leaf b ∧ Holds m₁ x (.leaf b) := by
        intro x head
        obtain ⟨member, differs, b, found, _⟩ := settled.neighbour kind head
        exact ⟨b, found, found ▸ disk x member differs⟩
      obtain ⟨samePages, nodes₁, relinkedNode, unlinked⟩ := relinkNext_runs held rightSmall relinked
      have counted : ∀ (page : Nat) (parent : Option Nat) (entries : List (LeafEntry K)) (prev following : Option Nat),
          entries.length ≤ 16384 → BTreeNode.Counted (⟨page, ⟨parent, entries.length % 65536⟩,
            .leaf ⟨entries, prev, following⟩, true⟩ : BTreeNode K) := by
        intro page parent entries prev following short
        unfold BTreeNode.Counted
        rw [NodeBody.items, List.length_map]
        exact Nat.mod_eq_of_lt (by omega)
      have pointers : ∀ e ∈ body.entries, e.pointer.InRange := range.2.2
      have pageSmall : n.page < noPageSentinel := page_lt_sentinel (settled.allocated listed)
      have rightRange : (NodeBody.leaf (⟨first :: tail, some n.page, body.nextLeaf⟩ : LeafNodeBody K)).InRange :=
        ⟨fun q same => Option.some.inj same ▸ pageSmall, range.2.1, fun e member => pointers e (by
          rw [← split]
          exact List.mem_append_right _ member)⟩
      have leftRange : (NodeBody.leaf (⟨body.entries.take splitAt, body.prevLeaf, some right⟩ :
          LeafNodeBody K)).InRange :=
        ⟨range.1, fun q same => Option.some.inj same ▸ rightSmall,
          fun e member => pointers e (List.mem_of_mem_take member)⟩
      obtain ⟨rightHolds, rewritten⟩ := flush_dirty (counted _ _ _ _ _ (by rw [List.length_cons]; omega))
        rightRange rfl flush
      obtain ⟨nodes', leftNode, rightNode, others⟩ := exists_two_new nodes₁ apart
        (.leaf ⟨body.entries.take splitAt, body.prevLeaf, some right⟩)
        (.leaf ⟨first :: tail, some n.page, body.nextLeaf⟩)
      have neighbour : ∀ x b, body.nextLeaf = some x → nodes x = .leaf b →
          nodes' x = .leaf { b with prevLeaf := some right } := by
        intro x b head found
        obtain ⟨member, differs, _⟩ := settled.neighbour kind head
        rw [others x differs (fun same => fresh.1 (same ▸ member))]
        exact (relinkedNode x b head found).1
      have unchanged : ∀ q, q ≠ n.page → q ≠ right → body.nextLeaf ≠ some q → nodes' q = nodes q :=
        fun q one two three => (others q one two).trans (unlinked q three).1
      have members : ∀ q, q ∈ nodePages nodes' 0
          (before ++ (n.page, (first.key : WithTop K)) :: (right, upper) :: after) ↔
          q = right ∨ q ∈ nodePages nodes 0 (before ++ (n.page, upper) :: after) := by
        intro q
        simp only [nodePages, List.map_append, List.map_cons, List.mem_append, List.mem_cons]
        tauto
      have sides : ∀ q ∈ (before ++ after).map Prod.fst, q ≠ n.page ∧ q ≠ right := by
        intro q member
        rw [List.map_append, List.map_cons, List.nodup_middle, List.nodup_cons, ← List.map_append] at distinct
        refine ⟨fun same => distinct.1 (same ▸ member), fun same => fresh.1 ?_⟩
        simp only [nodePages, List.map_append, List.map_cons, List.mem_append, List.mem_cons] at member ⊢
        subst same
        tauto
      obtain ⟨forest, entries⟩ := settled.forest.split_leaf node split.symm rfl fresh.1 leftNode rightNode
        ⟨rfl, rfl, rfl, rfl⟩ neighbour
        fun q member => unchanged q (sides q member).1 (sides q member).2
      have pages_le : m.pages ≤ m₃.pages := by
        rw [rewritten.pages, samePages]
        exact claim.pages_le
      refine ⟨nodes', _, .split first.key right, ⟨forest, ⟨?_, by simp, ?_⟩, ?_, ?_⟩, ⟨⟨pages_le, ?_⟩, ?_, ?_⟩,
        entries⟩
      · intro k member
        obtain rfl := List.mem_singleton.mp member
        exact ⟨(members _).mpr (.inr listed), leftNode.symm,
          counted _ _ _ _ _ (by rw [List.length_take]; omega), leftRange, fun clean => by cases clean⟩
      · intro q member absent
        rcases (members q).mp member with rfl | old
        · rw [rightNode]
          exact rightHolds
        · have notPage : q ≠ n.page := by simpa using absent
          have notRight : q ≠ right := fun same => fresh.1 (same ▸ old)
          have later := rewritten.same q notRight
          have bound : m₂.pages ≤ m₃.pages := Nat.le_of_eq rewritten.pages.symm
          by_cases head : body.nextLeaf = some q
          · obtain ⟨b, found, _⟩ := held q head
            rw [others q notPage notRight]
            exact (relinkedNode q b head found).2.of_same bound later
          · rw [unchanged q notPage notRight head]
            exact ((disk q old notPage).of_same (Nat.le_of_eq samePages.symm) (unlinked q head).2).of_same bound later
      · refine (claim.supply.of_same (rewritten.pages.trans samePages) ?_).congr
          fun q => by rw [members, or_assoc]
        intro q foreign
        rw [not_or, not_or] at foreign
        refine (unlinked q fun head => foreign.2.1 (settled.neighbour kind head).1).2.trans
          (rewritten.same q foreign.1)
      · intro q member
        rcases (members q).mp member with rfl | old
        · exact fresh.2
        · exact settled.separate q old
      · intro q foreign
        have allocated := settled.supply.owned_allocated q (.inr foreign)
        have notRight : q ≠ right := fun same => fresh.2 (same ▸ foreign)
        refine ((claim.same q allocated.1 allocated.2).trans ?_).trans (rewritten.same q notRight)
        exact (unlinked q fun head => settled.separate q (settled.neighbour kind head).1 foreign).2
      · exact fun q old => (members q).mpr (.inr old)
      · intro q absent
        rw [members, not_or] at absent
        exact unchanged q (fun same => absent.2 (same ▸ listed)) absent.1
          fun head => absent.2 (settled.neighbour kind head).1

end Leaf

end WasmDbms
