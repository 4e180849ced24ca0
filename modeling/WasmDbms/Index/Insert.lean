import WasmDbms.Index.Halve

/-!
# Insertion

The climb along the path, level by level from the leaf up, and the new root.
-/
namespace WasmDbms
open Bisect MemoryManager

variable {K : Type} [Key K]

/-- One round of the climb: a node that overflows is split. -/
def Round (m : MemoryManager) (n n' : BTreeNode K) (promotion : Option (Promotion K)) (m' : MemoryManager) :
    Prop :=
  (n.wouldOverflow = .ok false ∧ n' = n ∧ promotion = none ∧ m = m') ∨
    (n.wouldOverflow = .ok true ∧ ∃ p, promotion = some p ∧ m.Runs (IndexTree.splitNode n) (n', p) m')

theorem climb_cons {m m' : MemoryManager} {n : BTreeNode K} {above out : List (BTreeNode K)}
    {promotion left : Option (Promotion K)} :
    m.Runs (IndexTree.climb promotion (n :: above)) (out, left) m' ↔
      ∃ n₁ n₂ mid m₁ rest, IndexTree.absorb n promotion = .ok n₁ ∧ Round m n₁ n₂ mid m₁ ∧
        m₁.Runs (IndexTree.climb mid above) (rest, left) m' ∧ out = n₂ :: rest := by
  rw [IndexTree.climb]
  simp only [runs_bind, runs_lift]
  constructor
  · rintro ⟨n₁, _, ⟨absorbed, rfl⟩, overflow, _, ⟨checked, rfl⟩, rest⟩
    cases overflow with
    | true =>
        rw [if_pos rfl] at rest
        simp only [runs_bind, runs_pure] at rest
        obtain ⟨⟨n₂, p⟩, m₁, halved, ⟨rest, final⟩, _, climbed, result, rfl⟩ := rest
        cases result
        exact ⟨n₁, n₂, some p, m₁, rest, absorbed, .inr ⟨checked, p, rfl, halved⟩, climbed, rfl⟩
    | false =>
        rw [if_neg (by simp)] at rest
        simp only [runs_bind, runs_pure] at rest
        obtain ⟨⟨rest, final⟩, _, climbed, result, rfl⟩ := rest
        cases result
        exact ⟨n₁, n₁, none, m, rest, absorbed, .inl ⟨checked, rfl, rfl, rfl⟩, climbed, rfl⟩
  · rintro ⟨n₁, n₂, mid, m₁, rest, absorbed, round, climbed, rfl⟩
    refine ⟨n₁, m, ⟨absorbed, rfl⟩, ?_⟩
    rcases round with ⟨checked, rfl, rfl, rfl⟩ | ⟨checked, p, rfl, halved⟩
    · refine ⟨false, m, ⟨checked, rfl⟩, ?_⟩
      rw [if_neg (by simp)]
      exact runs_bind.mpr ⟨_, m', climbed, runs_pure.mpr ⟨rfl, rfl⟩⟩
    · refine ⟨true, m, ⟨checked, rfl⟩, ?_⟩
      rw [if_pos rfl]
      exact runs_bind.mpr ⟨_, m₁, halved, runs_bind.mpr ⟨_, m', climbed, runs_pure.mpr ⟨rfl, rfl⟩⟩⟩

theorem climb_append {m m' : MemoryManager} {xs ys out : List (BTreeNode K)}
    {promotion left : Option (Promotion K)} :
    m.Runs (IndexTree.climb promotion (xs ++ ys)) (out, left) m' ↔
      ∃ out₁ mid m₁ out₂, m.Runs (IndexTree.climb promotion xs) (out₁, mid) m₁ ∧
        m₁.Runs (IndexTree.climb mid ys) (out₂, left) m' ∧ out = out₁ ++ out₂ := by
  induction xs generalizing m promotion out with
  | nil =>
      constructor
      · intro run
        exact ⟨[], promotion, m, out, runs_pure.mpr ⟨rfl, rfl⟩, run, rfl⟩
      · rintro ⟨out₁, mid, m₁, out₂, first, second, rfl⟩
        obtain ⟨result, rfl⟩ := runs_pure.mp first
        cases result
        exact second
  | cons n xs ih =>
      constructor
      · intro run
        obtain ⟨n₁, n₂, mid, m₁, rest, absorbed, round, climbed, rfl⟩ := climb_cons.mp run
        obtain ⟨out₁, next, m₂, out₂, first, second, rfl⟩ := ih.mp climbed
        exact ⟨n₂ :: out₁, next, m₂, out₂,
          climb_cons.mpr ⟨n₁, n₂, mid, m₁, out₁, absorbed, round, first, rfl⟩, second, rfl⟩
      · rintro ⟨out₁, next, m₂, out₂, first, second, rfl⟩
        obtain ⟨n₁, n₂, mid, m₁, rest, absorbed, round, climbed, rfl⟩ := climb_cons.mp first
        have joined := ih.mpr ⟨rest, next, m₂, out₂, climbed, second, rfl⟩
        exact climb_cons.mpr ⟨n₁, n₂, mid, m₁, rest ++ out₂, absorbed, round, joined, rfl⟩

/-- The climb over the last node. -/
theorem climb_single {m m' : MemoryManager} {n : BTreeNode K} {out : List (BTreeNode K)}
    {promotion left : Option (Promotion K)}
    (run : m.Runs (IndexTree.climb promotion [n]) (out, left) m') :
    ∃ n₁ n₂, IndexTree.absorb n promotion = .ok n₁ ∧ Round m n₁ n₂ left m' ∧ out = [n₂] := by
  obtain ⟨n₁, n₂, mid, m₁, rest, absorbed, round, climbed, rfl⟩ := climb_cons.mp run
  obtain ⟨result, rfl⟩ := runs_pure.mp climbed
  cases result
  exact ⟨n₁, n₂, absorbed, round, rfl⟩

theorem insertIntoLeaf_eq {n : BTreeNode K} {body : LeafNodeBody K} (kind : n.body = .leaf body) (key : K)
    (pointer : RecordAddress) : IndexTree.insertIntoLeaf n key pointer =
      ⟨n.page, { n.header with numEntries := (withEntry key pointer body.entries).length % 65536 },
        .leaf { body with entries := withEntry key pointer body.entries }, true⟩ := by
  unfold IndexTree.insertIntoLeaf
  rw [kind]
  rfl

section Climb

variable {other : Nat → Prop} {m m' : MemoryManager} {nodes : Nodes K} {height : Nat}
  {before after : Level K} {page : Nat} {upper : WithTop K} {key : K} {pointer : RecordAddress}

/-- The new entry in its leaf, which waits to be flushed. -/
theorem Settled.enter {n : BTreeNode K} {body : LeafNodeBody K}
    (settled : Settled other m nodes 0 (before ++ (page, upper) :: after) [])
    (routed : Routed key before upper) (range : pointer.InRange) (here : n.page = page)
    (kind : n.body = .leaf body) (node : nodes page = .leaf body) : ∃ nodes' : Nodes K,
    Settled other m nodes' 0 (before ++ (page, upper) :: after) [IndexTree.insertIntoLeaf n key pointer] ∧
      Widens other m m nodes nodes' 0 (before ++ (page, upper) :: after) (before ++ (page, upper) :: after) ∧
      (entriesBelow nodes' 0 (before ++ (page, upper) :: after)).Perm
        (⟨key, pointer⟩ :: entriesBelow nodes 0 (before ++ (page, upper) :: after)) := by
  obtain ⟨forest, overlay, supply, separate⟩ := settled
  have listed : page ∈ nodePages nodes 0 (before ++ (page, upper) :: after) := by simp [nodePages]
  have member : (page, upper) ∈ before ++ (page, upper) :: after := by simp
  have held : Holds m page (.leaf body) := node ▸ overlay.disk page listed (by simp)
  have entries : leafEntries nodes page = body.entries := by
    unfold leafEntries
    rw [node]
  have sorted := forest.ordered.inner (page, upper) member
  rw [entries] at sorted
  obtain ⟨placed, perm⟩ := withEntry_spec key pointer sorted
  have short := held.fits.length_lt
  rw [NodeBody.items, List.length_map] at short
  have length := perm.length_eq
  rw [List.length_cons] at length
  obtain ⟨nodes', node', others⟩ : ∃ nodes' : Nodes K,
      nodes' page = .leaf { body with entries := withEntry key pointer body.entries } ∧
        ∀ q, q ≠ page → nodes' q = nodes q :=
    ⟨_, Function.update_self .., fun q differs => Function.update_of_ne differs ..⟩
  have entriesNew : leafEntries nodes' page = withEntry key pointer body.entries := by
    unfold leafEntries
    rw [node']
  have distinct : ((before ++ (page, upper) :: after).map Prod.fst).Nodup := forest.nodup
  rw [List.map_append, List.map_cons, List.nodup_middle, List.nodup_cons, ← List.map_append] at distinct
  have apart : ∀ x ∈ before ++ after, x.1 ≠ page := by
    rintro x inLevel rfl
    exact distinct.1 (List.mem_map.mpr ⟨x, inLevel, rfl⟩)
  have sides : ∀ x ∈ before ++ after, leafEntries nodes' x.1 = leafEntries nodes x.1 := by
    intro x inLevel
    unfold leafEntries
    rw [others x.1 (apart x inLevel)]
  have known : ∀ e ∈ withEntry key pointer body.entries, e = ⟨key, pointer⟩ ∨ e ∈ leafEntries nodes page := by
    intro e inNew
    rw [entries]
    exact List.mem_cons.mp (perm.mem_iff.mp inNew)
  refine ⟨nodes', ⟨⟨?_, forest.nodup, ?_, ?_⟩, ⟨?_, by simp, ?_⟩, supply, separate⟩,
    ⟨⟨Nat.le_refl _, fun _ _ _ _ => rfl⟩, fun _ h => h, fun q absent => others q fun same => absent (same ▸ listed)⟩,
    ?_⟩
  · intro x inLevel
    by_cases same : x.1 = page
    · exact ⟨_, same ▸ node'⟩
    · rw [others x.1 same]
      exact forest.graded x inLevel
  · refine forest.linked.congr ?_
    intro q _ b found
    by_cases same : q = page
    · subst same
      rw [node] at found
      cases found
      exact ⟨_, node', rfl, rfl⟩
    · exact ⟨b, (others q same).trans found, rfl, rfl⟩
  · refine forest.ordered.replace sides (by rw [entriesNew]; exact placed) ?_ ?_
    · rw [entriesNew]
      intro e inNew
      rcases known e inNew with rfl | old
      · exact routed.right.le
      · exact forest.ordered.below (page, upper) member e old
    · rw [entriesNew]
      intro e inNew x early
      rcases known e inNew with rfl | old
      · exact routed.left x early
      · exact (List.pairwise_append.mp forest.ordered.above).2.2 x early (page, upper) List.mem_cons_self e old
  · intro k only
    obtain rfl := List.mem_singleton.mp only
    rw [insertIntoLeaf_eq kind, here]
    refine ⟨listed, node'.symm, ?_, ⟨held.range.1, held.range.2.1, ?_⟩, fun clean => by cases clean⟩
    · unfold BTreeNode.Counted
      rw [NodeBody.items, List.length_map]
      exact Nat.mod_eq_of_lt (by omega)
    · intro e inNew
      rcases known e inNew with rfl | old
      · exact range
      · exact held.range.2.2 e (entries ▸ old)
  · intro q inPages absent
    have differs : q ≠ page := by
      rintro rfl
      refine absent ?_
      rw [insertIntoLeaf_eq kind, List.map_singleton, here]
      exact List.mem_singleton_self _
    rw [others q differs]
    exact overlay.disk q inPages (by simp)
  · have notEarly : page ∉ before.map Prod.fst := fun h => distinct.1 (by simp_all)
    have notLate : page ∉ after.map Prod.fst := fun h => distinct.1 (by simp_all)
    simp only [entriesBelow, leaves, List.map_append, List.map_cons, content_split]
    rw [content_congr fun q inPages => others q fun same => notEarly (same ▸ inPages),
      content_congr fun q inPages => others q fun same => notLate (same ▸ inPages), entriesNew, entries]
    have inner := (perm.append_right (content nodes (after.map Prod.fst))).append_left
      (content nodes (before.map Prod.fst))
    exact inner.trans List.perm_middle

omit [Key K] in
theorem level_pages_sublist (nodes : Nodes K) (height : Nat) (level : Level K) :
    (level.map Prod.fst).Sublist (nodePages nodes height level) := by
  cases height with
  | zero => exact .refl _
  | succ height => exact List.sublist_append_left _ _

/-- What a node of the path makes of the promotion from below: its children are
then those of the level below. -/
theorem absorb_fan {n n₁ : BTreeNode K} {body : InternalNodeBody K} {left rest pre post level' : Level K}
    {child : Nat} {sep : WithTop K} {mid : Option (Promotion K)} (kind : n.body = .internal body)
    (short : body.entries.length < 16384) (counted : n.Counted)
    (order : body.fan upper = left ++ (child, sep) :: rest) (distinct : ((body.fan upper).map Prod.fst).Nodup)
    (outcome : Outcome (pre ++ left) (rest ++ post) child sep mid level')
    (absorbed : IndexTree.absorb n mid = .ok n₁) :
    ∃ body₁, n₁.page = n.page ∧ n₁.body = .internal body₁ ∧ n₁.Counted ∧ body₁.entries.length ≤ 16384 ∧
      (n₁.dirty = false → n₁ = n) ∧ pre ++ (body₁.fan upper ++ post) = level' := by
  cases outcome with
  | whole =>
      cases absorbed
      refine ⟨body, rfl, kind, counted, by omega, fun _ => rfl, ?_⟩
      rw [order]
      simp
  | split key right =>
      obtain ⟨body₁, promoted, fan₁, length⟩ := fan_promote key right order distinct
      simp only [IndexTree.absorb, IndexTree.promoteIntoInternal, kind, promoted] at absorbed
      cases absorbed
      refine ⟨body₁, rfl, rfl, ?_, by omega, (fun clean => by cases clean), ?_⟩
      · unfold BTreeNode.Counted
        rw [NodeBody.items, List.length_map]
        exact Nat.mod_eq_of_lt (by omega)
      · rw [fan₁]
        simp

/-- A level with the level below it changed: its node on the path waits with new children. -/
theorem Settled.raise {m₁ : MemoryManager} {nodes₁ : Nodes K} {level' : Level K} {waiting : List (BTreeNode K)}
    {n n₁ : BTreeNode K} {body body₁ : InternalNodeBody K}
    (settled : Settled other m nodes (height + 1) (before ++ (page, upper) :: after) [])
    (lower : Settled (fun q => q ∈ (before ++ (page, upper) :: after).map Prod.fst ∨ other q) m₁ nodes₁ height
      level' waiting)
    (widens : Widens (fun q => q ∈ (before ++ (page, upper) :: after).map Prod.fst ∨ other q) m m₁ nodes nodes₁
      height ((before ++ (page, upper) :: after).flatMap (fan nodes)) level')
    (node : nodes page = .internal body) (here : n.page = page) (kind : n.body = .internal body)
    (here₁ : n₁.page = page) (kind₁ : n₁.body = .internal body₁) (counted : n₁.Counted)
    (clean : n₁.dirty = false → n₁ = n)
    (children : before.flatMap (fan nodes) ++ (body₁.fan upper ++ after.flatMap (fan nodes)) = level') :
    ∃ nodes₂ : Nodes K,
      Settled other m₁ nodes₂ (height + 1) (before ++ (page, upper) :: after) (waiting ++ [n₁]) ∧
      Widens other m m₁ nodes nodes₂ (height + 1) (before ++ (page, upper) :: after)
        (before ++ (page, upper) :: after) ∧
      entriesBelow nodes₂ (height + 1) (before ++ (page, upper) :: after) =
        entriesBelow nodes₁ height level' := by
  obtain ⟨nodes₂, node₂, others⟩ : ∃ nodes₂ : Nodes K,
      nodes₂ page = .internal body₁ ∧ ∀ q, q ≠ page → nodes₂ q = nodes₁ q :=
    ⟨_, Function.update_self .., fun q differs => Function.update_of_ne differs ..⟩
  obtain ⟨internal, nodup, _⟩ := forest_succ.mp settled.forest
  have distinct := (List.nodup_append.mp nodup).1
  have upperApart : ∀ q ∈ (before ++ (page, upper) :: after).map Prod.fst, q ∉ nodePages nodes₁ height level' :=
    fun q listed inLower => lower.separate q inLower (.inl listed)
  have pageListed : page ∈ (before ++ (page, upper) :: after).map Prod.fst := by simp
  have upperSame : ∀ q ∈ (before ++ (page, upper) :: after).map Prod.fst, q ≠ page → nodes₂ q = nodes q :=
    fun q listed differs => (others q differs).trans (widens.same q (upperApart q listed))
  have sides : ∀ x ∈ before ++ after, nodes₂ x.1 = nodes x.1 := by
    intro x member
    rw [List.map_append, List.map_cons, List.nodup_middle, List.nodup_cons, ← List.map_append] at distinct
    refine upperSame x.1 ?_ ?_
    · refine List.mem_map_of_mem ?_
      simp only [List.mem_append, List.mem_cons] at member ⊢
      tauto
    · rintro rfl
      exact distinct.1 (List.mem_map.mpr ⟨x, member, rfl⟩)
  have below : (before ++ (page, upper) :: after).flatMap (fan nodes₂) = level' := by
    have early : before.flatMap (fan nodes₂) = before.flatMap (fan nodes) :=
      fan_congr fun x member => .inl (sides x (List.mem_append_left _ member))
    have late : after.flatMap (fan nodes₂) = after.flatMap (fan nodes) :=
      fan_congr fun x member => .inl (sides x (List.mem_append_right _ member))
    have middle : fan nodes₂ (page, upper) = body₁.fan upper := by
      unfold fan
      rw [node₂]
    rw [List.flatMap_append, List.flatMap_cons, early, late, middle, children]
  have lowerSame : ∀ q ∈ nodePages nodes₁ height level', nodes₂ q = nodes₁ q := by
    intro q inLower
    refine others q ?_
    rintro rfl
    exact upperApart q pageListed inLower
  obtain ⟨forest₂, sameLeaves, samePages⟩ := lower.forest.congr lowerSame
  have pages : nodePages nodes₂ (height + 1) (before ++ (page, upper) :: after) =
      (before ++ (page, upper) :: after).map Prod.fst ++ nodePages nodes₁ height level' := by
    rw [nodePages, below, samePages]
  have childIn : ∀ q ∈ (body₁.fan upper).map Prod.fst, q < 4294967296 := by
    intro q member
    have inLevel : q ∈ level'.map Prod.fst := by
      rw [← children, List.map_append, List.map_append]
      exact List.mem_append_right _ (List.mem_append_left _ member)
    have owned := (level_pages_sublist nodes₁ height level').subset inLevel
    exact PageSupply.page_lt m₁ (lower.allocated owned)
  have range : (NodeBody.internal body₁).InRange := by
    refine ⟨childIn _ (by simp [InternalNodeBody.fan]), fun e member => childIn _ ?_⟩
    simp only [InternalNodeBody.fan, List.map_append, List.map_map]
    exact List.mem_append_left _ (List.mem_map.mpr ⟨e, member, rfl⟩)
  have upperFrame : ∀ q ∈ (before ++ (page, upper) :: after).map Prod.fst, Holds m₁ q (nodes q) := by
    intro q listed
    have held := settled.overlay.disk q (List.mem_append_left _ listed) (by simp)
    exact held.of_same widens.frame.pages_le (widens.frame.same q (.inl listed))
  have waitingApart : ∀ k ∈ waiting, k.page ≠ page := by
    intro k member same
    exact upperApart page pageListed (same ▸ (lower.overlay.loaded k member).1)
  refine ⟨nodes₂, ⟨forest_succ.mpr ⟨?_, ?_, ?_⟩, ⟨?_, ?_, ?_⟩, ?_, ?_⟩, ⟨⟨widens.frame.pages_le, ?_⟩, ?_, ?_⟩, ?_⟩
  · intro x member
    by_cases same : x.1 = page
    · exact ⟨body₁, same ▸ node₂⟩
    · rw [upperSame x.1 (List.mem_map_of_mem member) same]
      exact internal x member
  · rw [pages, List.nodup_append]
    refine ⟨distinct, lower.forest.nodup, ?_⟩
    rintro a inUpper b inLower rfl
    exact upperApart a inUpper inLower
  · rw [below]
    exact forest₂
  · intro k member
    rw [List.mem_append, List.mem_singleton] at member
    rcases member with old | rfl
    · obtain ⟨owned, same, count, inRange, held⟩ := lower.overlay.loaded k old
      refine ⟨by rw [pages]; exact List.mem_append_right _ owned, ?_, count, inRange, held⟩
      exact same.trans (others k.page (waitingApart k old)).symm
    · refine ⟨by rw [pages, here₁]; exact List.mem_append_left _ pageListed, ?_, counted, ?_, ?_⟩
      · rw [kind₁, here₁, node₂]
      · rw [kind₁]
        exact range
      · intro notDirty
        obtain rfl := clean notDirty
        rw [here, kind, ← node]
        exact upperFrame page pageListed
  · rw [List.map_append, List.map_singleton, here₁, List.nodup_append]
    refine ⟨lower.overlay.distinct, List.nodup_singleton _, ?_⟩
    intro a inWaiting b only
    obtain ⟨k, member, rfl⟩ := List.mem_map.mp inWaiting
    rw [List.mem_singleton.mp only]
    exact waitingApart k member
  · intro q member absent
    rw [List.map_append, List.mem_append, not_or, List.map_singleton, List.mem_singleton, here₁] at absent
    rw [pages, List.mem_append] at member
    rcases member with inUpper | inLower
    · rw [upperSame q inUpper absent.2]
      exact upperFrame q inUpper
    · rw [others q absent.2]
      exact lower.overlay.disk q inLower absent.1
  · refine lower.supply.congr fun q => ?_
    rw [pages, List.mem_append]
    tauto
  · intro q member foreign
    rw [pages, List.mem_append] at member
    rcases member with inUpper | inLower
    · exact settled.separate q (List.mem_append_left _ inUpper) foreign
    · exact lower.separate q inLower (.inr foreign)
  · exact fun q foreign => widens.frame.same q (.inr foreign)
  · intro q member
    rw [pages]
    rcases List.mem_append.mp member with inUpper | inLower
    · exact List.mem_append_left _ inUpper
    · exact List.mem_append_right _ (widens.kept q inLower)
  · intro q absent
    rw [pages, List.mem_append, not_or] at absent
    rw [others q fun same => absent.1 (same ▸ pageListed)]
    exact widens.same q absent.2
  · unfold entriesBelow
    rw [leaves, below, sameLeaves]
    exact content_congr fun q member => lowerSame q ((leaves_pages_sublist nodes₁ height level').subset member)

theorem Settled.sorted_leaf {waiting : List (BTreeNode K)} {body : LeafNodeBody K}
    (settled : Settled other m nodes 0 (before ++ (page, upper) :: after) waiting)
    (node : nodes page = .leaf body) : body.entries.Pairwise EntryLe := by
  have sorted := settled.forest.ordered.inner (page, upper) (by simp [leaves])
  unfold leafEntries at sorted
  rwa [node] at sorted

/-- A node that waits to be flushed goes through its round. -/
theorem Settled.round {waiting : List (BTreeNode K)} {n n' : BTreeNode K} {promotion : Option (Promotion K)}
    (settled : Settled other m nodes height (before ++ (n.page, upper) :: after) (waiting ++ [n]))
    (bottom : height = 0 → waiting = []) (small : n.body.items.length ≤ 16384)
    (round : Round m n n' promotion m') : ∃ nodes' level',
      Halved other m m' nodes height before after n.page upper waiting n' promotion nodes' level' := by
  rcases round with ⟨_, rfl, rfl, rfl⟩ | ⟨_, p, rfl, halved⟩
  · exact ⟨nodes, _, .whole, settled, ⟨⟨Nat.le_refl _, fun _ _ _ _ => rfl⟩, fun _ h => h, fun _ _ => rfl⟩, rfl⟩
  · have node := (settled.overlay.loaded n (by simp)).2.1
    cases height with
    | zero =>
        obtain rfl := bottom rfl
        obtain ⟨body, leaf⟩ := settled.forest.graded (n.page, upper) (by simp)
        have kind : n.body = .leaf body := node.trans leaf
        rw [kind, NodeBody.items, List.length_map] at small
        exact settled.split_leaf kind small halved
    | succ height =>
        obtain ⟨body, internal⟩ := settled.forest.graded.1 (n.page, upper) (by simp)
        have kind : n.body = .internal body := node.trans internal
        rw [kind, NodeBody.items, List.length_map] at small
        exact settled.split_internal kind small halved

theorem readPath_ne_nil {fuel : Nat} {path : List (BTreeNode K)}
    (read : m.Runs (IndexTree.readPath key fuel page) path m') : path ≠ [] := by
  cases fuel with
  | zero => simp [IndexTree.readPath] at read
  | succ fuel =>
      simp only [IndexTree.readPath, runs_bind] at read
      obtain ⟨n, _, _, rest⟩ := read
      split at rest
      · simp only [runs_bind, runs_pure] at rest
        obtain ⟨_, _, _, rfl, _⟩ := rest
        simp
      · obtain ⟨rfl, _⟩ := runs_pure.mp rest
        simp

theorem readPath_keeps {fuel : Nat} {path : List (BTreeNode K)}
    (run : m.Runs (IndexTree.readPath key fuel page) path m') : m = m' := by
  induction fuel generalizing page path with
  | zero => simp [IndexTree.readPath] at run
  | succ fuel ih =>
      simp only [IndexTree.readPath, runs_bind] at run
      obtain ⟨n, m₁, read, rest⟩ := run
      obtain rfl := read_keeps read
      split at rest
      · simp only [runs_bind, runs_pure] at rest
        obtain ⟨_, m₂, lower, _, rfl⟩ := rest
        exact ih lower
      · exact (runs_pure.mp rest).2

theorem modifyHead_append {α : Type} (f : α → α) {xs : List α} (ys : List α) (filled : xs ≠ []) :
    (xs ++ ys).modifyHead f = xs.modifyHead f ++ ys := by
  cases xs with
  | nil => exact absurd rfl filled
  | cons x xs => rfl

/-- A node of the path and the one below it: the level below is settled, with the child the key routes to. -/
theorem Settled.descend {body : InternalNodeBody K}
    (settled : Settled other m nodes (height + 1) (before ++ (page, upper) :: after) [])
    (routed : Routed key before upper) (node : nodes page = .internal body) :
    ∃ left sep rest, body.fan upper = left ++ (IndexTree.findChild body key, sep) :: rest ∧
      ((body.fan upper).map Prod.fst).Nodup ∧
      (before ++ (page, upper) :: after).flatMap (fan nodes) =
        (before.flatMap (fan nodes) ++ left) ++ (IndexTree.findChild body key, sep) ::
          (rest ++ after.flatMap (fan nodes)) ∧
      Routed key (before.flatMap (fan nodes) ++ left) sep ∧
      Settled (fun q => q ∈ (before ++ (page, upper) :: after).map Prod.fst ∨ other q) m nodes height
        ((before.flatMap (fan nodes) ++ left) ++ (IndexTree.findChild body key, sep) ::
          (rest ++ after.flatMap (fan nodes))) [] := by
  obtain ⟨internal, nodup, lowerForest⟩ := forest_succ.mp settled.forest
  have ascending := lowerForest.ordered.ascending.of_sublist (leaves_sublist lowerForest.graded)
  obtain ⟨left, sep, rest, order, levelOrder, routed'⟩ := routed.descend node ascending
  have lower : Settled (fun q => q ∈ (before ++ (page, upper) :: after).map Prod.fst ∨ other q) m nodes height
      ((before ++ (page, upper) :: after).flatMap (fan nodes)) [] := by
    refine ⟨lowerForest, ⟨by simp, by simp, ?_⟩, ?_, ?_⟩
    · exact fun q member absent => settled.overlay.disk q (List.mem_append_right _ member) absent
    · refine settled.supply.congr fun q => ?_
      rw [nodePages, List.mem_append]
      tauto
    · rintro q member (inUpper | foreign)
      · exact (List.nodup_append.mp nodup).2.2 q inUpper q member rfl
      · exact settled.separate q (List.mem_append_right _ member) foreign
  have distinct : ((body.fan upper).map Prod.fst).Nodup := by
    have whole := lowerForest.nodup.sublist (level_pages_sublist nodes height _)
    rw [List.flatMap_append, List.flatMap_cons, List.map_append, List.map_append, List.nodup_append,
      List.nodup_append] at whole
    have inner := whole.2.1.1
    unfold fan at inner
    rwa [node] at inner
  rw [levelOrder] at lower
  exact ⟨left, sep, rest, order, distinct, levelOrder, routed', lower⟩

/-- The climb along the path of a key leaves every level below its start in order, with the new entry. -/
theorem climb_path {fuel : Nat} {path out : List (BTreeNode K)} {promotion : Option (Promotion K)}
    {m₀ : MemoryManager}
    (settled : Settled other m nodes height (before ++ (page, upper) :: after) [])
    (routed : Routed key before upper) (range : pointer.InRange)
    (read : m.Runs (IndexTree.readPath key fuel page) path m₀)
    (run : m.Runs (IndexTree.climb none
      (path.reverse.modifyHead fun leaf => IndexTree.insertIntoLeaf leaf key pointer)) (out, promotion) m') :
    ∃ nodes' level', Outcome before after page upper promotion level' ∧
      Settled other m' nodes' height level' out ∧
      Widens other m m' nodes nodes' height (before ++ (page, upper) :: after) level' ∧
      (entriesBelow nodes' height level').Perm
        (⟨key, pointer⟩ :: entriesBelow nodes height (before ++ (page, upper) :: after)) := by
  -- the induction is on the height of the subtree; the path of the child comes first in the climb
  induction height generalizing other before page after upper fuel path out promotion m₀ m' with
  | zero =>
      obtain ⟨body, node⟩ := settled.forest.graded (page, upper) (by simp)
      have held := settled.overlay.disk page (by simp [nodePages]) (by simp)
      cases fuel with
      | zero => simp [IndexTree.readPath] at read
      | succ fuel =>
          simp only [IndexTree.readPath, runs_bind] at read
          obtain ⟨n, _, found, rest⟩ := read
          obtain ⟨rfl, here, kind, _, _⟩ := held.read_eq found
          rw [node] at kind held
          simp only [kind, runs_pure] at rest
          obtain ⟨rfl, rfl⟩ := rest
          obtain ⟨n₁, n₂, absorbed, round, rfl⟩ := climb_single run
          cases absorbed
          obtain ⟨nodes₁, entered, widens₁, perm⟩ := settled.enter routed range here kind node
          have placed : (IndexTree.insertIntoLeaf n key pointer).page = page := by
            rw [insertIntoLeaf_eq kind]
            exact here
          have small : (IndexTree.insertIntoLeaf n key pointer).body.items.length ≤ 16384 := by
            have short := held.fits.length_lt
            have grown := (withEntry_spec key pointer (settled.sorted_leaf node)).2.length_eq
            rw [NodeBody.items, List.length_map] at short
            rw [insertIntoLeaf_eq kind, NodeBody.items, List.length_map, grown, List.length_cons]
            omega
          rw [← placed] at entered widens₁ perm ⊢
          have alone : Settled other m nodes₁ 0 (before ++ ((IndexTree.insertIntoLeaf n key pointer).page, upper) ::
            after) ([] ++ [IndexTree.insertIntoLeaf n key pointer]) := entered
          obtain ⟨nodes₂, level₂, halved⟩ := alone.round (fun _ => rfl) small round
          refine ⟨nodes₂, level₂, halved.outcome, halved.settled, ?_, halved.entries ▸ perm⟩
          rw [← placed] at settled
          exact widens₁.trans halved.widens
  | succ height ih =>
      obtain ⟨body, node⟩ := settled.forest.graded.1 (page, upper) (by simp)
      have listed : page ∈ nodePages nodes (height + 1) (before ++ (page, upper) :: after) :=
        mem_nodePages nodes (height + 1) (x := (page, upper)) (by simp)
      have held := settled.overlay.disk page listed (by simp)
      cases fuel with
      | zero => simp [IndexTree.readPath] at read
      | succ fuel =>
          simp only [IndexTree.readPath, runs_bind] at read
          obtain ⟨n, _, found, rest⟩ := read
          obtain ⟨rfl, here, kind, _, counted⟩ := held.read_eq found
          rw [← kind] at counted
          rw [node] at kind held
          simp only [kind, runs_bind, runs_pure] at rest
          obtain ⟨lowerPath, m₁, lowerRead, rfl, rfl⟩ := rest
          obtain ⟨left, sep, right, order, distinct, levelOrder, routed', lower⟩ := settled.descend routed node
          have short := held.fits.length_lt
          rw [NodeBody.items, List.length_map] at short
          -- the climb over the path of the child, then over this node
          have filled : lowerPath.reverse ≠ [] := by simpa using readPath_ne_nil lowerRead
          rw [List.reverse_cons, modifyHead_append _ _ filled] at run
          obtain ⟨out₁, mid, m₂, out₂, lowerRun, lastRun, rfl⟩ := climb_append.mp run
          obtain ⟨nodes₁, level₁, outcome, settled₁, widens₁, perm⟩ := ih lower routed' lowerRead lowerRun
          obtain ⟨n₁, n₂, absorbed, round, rfl⟩ := climb_single lastRun
          obtain ⟨body₁, here₁, kind₁, counted₁, short₁, clean, children⟩ :=
            absorb_fan kind short counted order distinct outcome absorbed
          rw [← levelOrder] at widens₁ perm
          obtain ⟨nodes₂, settled₂, widens₂, entries₂⟩ := settled.raise settled₁ widens₁ node here kind
            (here₁.trans here) kind₁ counted₁ clean children
          have small : n₁.body.items.length ≤ 16384 := by
            rw [kind₁, NodeBody.items, List.length_map]
            exact short₁
          have placed : n₁.page = page := here₁.trans here
          subst placed
          obtain ⟨nodes₃, level₃, halved⟩ := settled₂.round (fun zero => by cases zero) small round
          refine ⟨nodes₃, level₃, halved.outcome, halved.settled, widens₂.trans halved.widens, ?_⟩
          rw [halved.entries, entries₂]
          exact perm

end Climb

section Flush

variable {m m' : MemoryManager} {nodes : Nodes K} {pages : List Nat} {waiting : List (BTreeNode K)}

theorem Overlay.reverse (overlay : Overlay m nodes pages waiting) : Overlay m nodes pages waiting.reverse := by
  refine ⟨fun n member => overlay.loaded n (List.mem_reverse.mp member), ?_, ?_⟩
  · rw [List.map_reverse, List.nodup_reverse]
    exact overlay.distinct
  · intro page listed absent
    rw [List.map_reverse, List.mem_reverse] at absent
    exact overlay.disk page listed absent

/-- The root of the path learns its new parent. -/
theorem Overlay.adopt (overlay : Overlay m nodes pages waiting) (parent : Option Nat) :
    Overlay m nodes pages (waiting.modifyHead fun node =>
      { node with header := { node.header with parentPage := parent }, dirty := true }) := by
  cases waiting with
  | nil => exact overlay
  | cons n rest =>
      obtain ⟨listed, body, counted, range, _⟩ := overlay.loaded n List.mem_cons_self
      refine ⟨?_, overlay.distinct, overlay.disk⟩
      intro k member
      rcases List.mem_cons.mp member with rfl | old
      · exact ⟨listed, body, counted, range, fun clean => by cases clean⟩
      · exact overlay.loaded k (List.mem_cons_of_mem _ old)

theorem Overlay.flush_head {n r : BTreeNode K} (overlay : Overlay m nodes pages (n :: waiting))
    (run : m.Runs n.flush r m') :
    Overlay m' nodes pages waiting ∧ m'.pages = m.pages ∧ ∀ q, q ∉ pages → SamePage m m' q := by
  obtain ⟨listed, body, counted, range, clean⟩ := overlay.loaded n List.mem_cons_self
  obtain ⟨apart, distinct⟩ := List.nodup_cons.mp overlay.distinct
  have flushed : Holds m' n.page n.body ∧ Rewritten m m' n.page := by
    by_cases dirty : n.dirty = true
    · exact flush_dirty counted range dirty run
    · have kept : n.dirty = false := by simpa using dirty
      obtain rfl := flush_clean kept run
      exact ⟨clean kept, rfl, fun _ _ _ _ => rfl⟩
  obtain ⟨holds, rewritten⟩ := flushed
  have pagesEq := Nat.le_of_eq rewritten.pages.symm
  refine ⟨⟨?_, distinct, ?_⟩, rewritten.pages, ?_⟩
  · intro k member
    obtain ⟨inPages, same, count, inRange, held⟩ := overlay.loaded k (List.mem_cons_of_mem _ member)
    refine ⟨inPages, same, count, inRange, fun h => (held h).of_same pagesEq (rewritten.same k.page ?_)⟩
    intro equal
    exact apart (equal ▸ List.mem_map_of_mem member)
  · intro page inPages absent
    by_cases here : page = n.page
    · rw [here, ← body]
      exact holds
    · refine (overlay.disk page inPages ?_).of_same pagesEq (rewritten.same page here)
      rw [List.map_cons, List.mem_cons, not_or]
      exact ⟨here, absent⟩
  · intro q foreign
    refine rewritten.same q ?_
    rintro rfl
    exact foreign listed

/-- Once the path is flushed, every page of the tree is on disk. -/
theorem Overlay.flushAll {r : Unit} (overlay : Overlay m nodes pages waiting)
    (run : m.Runs (IndexTree.flushAll waiting) r m') :
    (∀ page ∈ pages, Holds m' page (nodes page)) ∧ m'.pages = m.pages ∧ ∀ q, q ∉ pages → SamePage m m' q := by
  induction waiting generalizing m with
  | nil =>
      obtain ⟨_, rfl⟩ := runs_pure.mp run
      exact ⟨fun page listed => overlay.disk page listed (by simp), rfl, fun _ _ _ _ => rfl⟩
  | cons n rest ih =>
      simp only [IndexTree.flushAll, runs_bind] at run
      obtain ⟨_, m₁, flushed, remaining⟩ := run
      obtain ⟨overlay₁, pages₁, same₁⟩ := overlay.flush_head flushed
      obtain ⟨holds, pages₂, same₂⟩ := ih overlay₁ remaining
      exact ⟨holds, pages₂.trans pages₁, fun q foreign => (same₁ q foreign).trans (same₂ q foreign)⟩

end Flush

section Root

variable {other : Nat → Prop} {m m₁ m' : MemoryManager} {nodes : Nodes K} {height : Nat}
  {waiting : List (BTreeNode K)}

/-- The two halves of the old root below a new one. -/
theorem Settled.grow {key : K} {left right root : Nat} {r : BTreeNode K}
    (settled : Settled other m nodes height [(left, (key : WithTop K)), (right, ⊤)] waiting)
    (claimed : m.Runs MemoryAccess.claimPage root m₁)
    (flushed : m₁.Runs (BTreeNode.flush ⟨root, ⟨none, 1⟩, .internal ⟨[⟨key, left⟩], right⟩, true⟩) r m') :
    ∃ nodes' : Nodes K, Settled other m' nodes' (height + 1) [(root, ⊤)] waiting ∧ Frame other m m' ∧
      entriesBelow nodes' (height + 1) [(root, ⊤)] =
        entriesBelow nodes height [(left, (key : WithTop K)), (right, ⊤)] := by
  have owned : ∀ x ∈ [(left, (key : WithTop K)), (right, (⊤ : WithTop K))], x.1 < 4294967296 :=
    fun x member => PageSupply.page_lt m (settled.allocated (mem_nodePages nodes height member))
  have range : (NodeBody.internal ⟨[⟨key, left⟩], right⟩ : NodeBody K).InRange := by
    refine ⟨owned (right, ⊤) (by simp), fun e member => ?_⟩
    obtain rfl := List.mem_singleton.mp member
    exact owned (left, (key : WithTop K)) (by simp)
  obtain ⟨fresh, holds, frame, supply⟩ := claim_flush settled.supply claimed flushed rfl rfl range rfl
  rw [not_or] at fresh
  obtain ⟨nodes', rootNode, others⟩ : ∃ nodes' : Nodes K,
      nodes' root = .internal ⟨[⟨key, left⟩], right⟩ ∧ ∀ q, q ≠ root → nodes' q = nodes q :=
    ⟨_, Function.update_self .., fun q differs => Function.update_of_ne differs ..⟩
  have same : ∀ q ∈ nodePages nodes height [(left, (key : WithTop K)), (right, ⊤)], nodes' q = nodes q := by
    intro q member
    refine others q ?_
    rintro rfl
    exact fresh.1 member
  obtain ⟨forest, sameLeaves, samePages⟩ := settled.forest.congr same
  have below : [(root, (⊤ : WithTop K))].flatMap (fan nodes') = [(left, (key : WithTop K)), (right, ⊤)] := by
    simp [fan, rootNode, InternalNodeBody.fan]
  have pages : nodePages nodes' (height + 1) [(root, ⊤)] =
      root :: nodePages nodes height [(left, (key : WithTop K)), (right, ⊤)] := by
    rw [nodePages, below, samePages]
    rfl
  refine ⟨nodes', ⟨forest_succ.mpr ⟨?_, ?_, ?_⟩, ?_, ?_, ?_⟩, ?_, ?_⟩
  · intro x member
    obtain rfl := List.mem_singleton.mp member
    exact ⟨_, rootNode⟩
  · rw [pages, List.nodup_cons]
    exact ⟨fresh.1, settled.forest.nodup⟩
  · rw [below]
    exact forest
  · have old := settled.overlay.congr frame.pages_le fun q member => ⟨frame.same q (.inl member), same q member⟩
    rw [pages]
    refine ⟨?_, old.distinct, ?_⟩
    · intro n member
      obtain ⟨listed, rest⟩ := old.loaded n member
      exact ⟨List.mem_cons_of_mem _ listed, rest⟩
    · intro q member absent
      rcases List.mem_cons.mp member with rfl | listed
      · rw [rootNode]
        exact holds
      · exact old.disk q listed absent
  · refine supply.congr fun q => ?_
    rw [pages, List.mem_cons, or_assoc]
  · intro q member
    rw [pages] at member
    rcases List.mem_cons.mp member with rfl | listed
    · exact fresh.2
    · exact settled.separate q listed
  · exact ⟨frame.pages_le, fun q foreign => frame.same q (.inr foreign)⟩
  · unfold entriesBelow
    rw [leaves, below, sameLeaves]
    exact content_congr fun q member => same q ((leaves_pages_sublist nodes height _).subset member)

/-- The end of an insertion: a promotion out of the root makes a new one. -/
theorem Settled.growRoot {tree tree' : IndexTree} {out path : List (BTreeNode K)}
    {promotion : Option (Promotion K)} {level : Level K}
    (settled : Settled other m nodes height level out)
    (outcome : Outcome [] [] tree.rootPage ⊤ promotion level)
    (run : m.Runs (tree.growRoot out.reverse promotion) (tree', path) m') :
    ∃ (nodes' : Nodes K) (height' : Nat), Settled other m' nodes' height' [(tree'.rootPage, ⊤)] path ∧
      Frame other m m' ∧ entriesBelow nodes' height' [(tree'.rootPage, ⊤)] = entriesBelow nodes height level := by
  cases outcome with
  | whole =>
      obtain ⟨result, rfl⟩ := runs_pure.mp run
      cases result
      exact ⟨nodes, height, ⟨settled.forest, settled.overlay.reverse, settled.supply, settled.separate⟩,
        ⟨Nat.le_refl _, fun _ _ _ _ => rfl⟩, rfl⟩
  | split key right =>
      simp only [IndexTree.growRoot, runs_bind, runs_pure] at run
      obtain ⟨root, m₁, claimed, r, m₂, flushed, result, rfl⟩ := run
      cases result
      obtain ⟨nodes', grown, frame, entries⟩ := settled.grow claimed flushed
      exact ⟨nodes', height + 1, ⟨grown.forest, grown.overlay.reverse.adopt _, grown.supply, grown.separate⟩,
        frame, entries⟩

/-- `insert` adds one entry. -/
theorem IndexInv.insert_runs {tree tree' : IndexTree} {fuel : Nat} {key : K} {pointer : RecordAddress}
    (inv : IndexInv tree m nodes height other) (range : pointer.InRange)
    (run : m.Runs (tree.insert fuel key pointer) tree' m') : ∃ (nodes' : Nodes K) (height' : Nat),
      IndexInv tree' m' nodes' height' other ∧ Frame other m m' ∧
        (IndexInv.entries nodes' height' tree').Perm (⟨key, pointer⟩ :: IndexInv.entries nodes height tree) := by
  simp only [IndexTree.insert, runs_bind] at run
  obtain ⟨path, m₀, read, rest⟩ := run
  have settled : Settled other m nodes height ([] ++ (tree.rootPage, ⊤) :: []) [] :=
    ⟨inv.toForest, ⟨by simp, by simp, fun page listed _ => inv.holds page listed⟩, inv.supply, inv.separate⟩
  obtain rfl := readPath_keeps read
  cases order : path.reverse with
  | nil => simp [order] at rest
  | cons leaf ancestors =>
      simp only [order, runs_bind, runs_pure] at rest
      obtain ⟨⟨out, promotion⟩, m₁, climbed, ⟨_, waiting⟩, m₂, grown, _, _, flushed, rfl, rfl⟩ := rest
      have climbed' : m.Runs (IndexTree.climb none
          (path.reverse.modifyHead fun leaf => IndexTree.insertIntoLeaf leaf key pointer)) (out, promotion) m₁ := by
        rw [order]
        exact climbed
      have routed : Routed key [] (⊤ : WithTop K) := ⟨by simp, WithTop.coe_lt_top key⟩
      obtain ⟨nodes₁, level, outcome, settled₁, widens, perm⟩ := climb_path settled routed range read climbed'
      obtain ⟨nodes₂, height₂, settled₂, frame, entries⟩ := settled₁.growRoot outcome grown
      obtain ⟨holds, pages, same⟩ := settled₂.overlay.flushAll flushed
      refine ⟨nodes₂, height₂, ⟨settled₂.forest, holds, ?_, settled₂.separate⟩, ?_, ?_⟩
      · exact settled₂.supply.of_same pages fun q foreign => same q fun member => foreign (.inl member)
      · refine (widens.frame.trans frame).trans ⟨Nat.le_of_eq pages.symm, ?_⟩
        exact fun q foreign => same q fun member => settled₂.separate q member foreign
      · exact (List.Perm.of_eq entries).trans perm

end Root

end WasmDbms
