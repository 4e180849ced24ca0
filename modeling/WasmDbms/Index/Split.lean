import WasmDbms.Index.Invariant

/-!
# Splits, level by level

An insertion changes the entries of one leaf. A split replaces a node of a
level by two with a new separator between them; the level below stays the same,
and of the leaves only the neighbours' links and the cut change.
-/
namespace WasmDbms
open Bisect

variable {K : Type} [Key K]

theorem insertIdx_length_append {α : Type} (xs ys : List α) (a : α) :
    (xs ++ ys).insertIdx xs.length a = xs ++ a :: ys := by
  induction xs with
  | nil => simp
  | cons x xs ih => simp [ih]

theorem modify_length_append {α : Type} (xs ys : List α) (a : α) (f : α → α) :
    (xs ++ a :: ys).modify xs.length f = xs ++ f a :: ys := by
  induction xs with
  | nil => rfl
  | cons x xs ih => simp [ih]

section Entries

/-- The predicate that places a new entry. -/
def precedes (key : K) (pointer : RecordAddress) (e : LeafEntry K) : Bool :=
  decide (e.key < key) || (Key.same e.key key && e.pointer.lt pointer)

theorem precedes_iff {key : K} {pointer : RecordAddress} {e : LeafEntry K} :
    precedes key pointer e = true ↔
      e.key < key ∨ (e.key ≤ key ∧ key ≤ e.key) ∧ e.pointer.lt pointer = true := by
  simp [precedes, same_iff]

theorem RecordAddress.lt_iff {a b : RecordAddress} :
    a.lt b = true ↔ a.page < b.page ∨ a.page = b.page ∧ a.offset < b.offset := by
  simp [RecordAddress.lt]

/-- Sorted entries are partitioned by it. -/
theorem precedes_partitioned {key : K} {pointer : RecordAddress} {entries : List (LeafEntry K)}
    (sorted : entries.Pairwise EntryLe) : Partitioned (precedes key pointer) entries := by
  refine sorted.imp ?_
  intro a b le before
  rw [precedes_iff] at before ⊢
  rcases le with less | ⟨le, ge, pointers⟩
  · rcases before with early | ⟨⟨near, _⟩, _⟩
    · exact .inl (less.trans early)
    · exact .inl (lt_of_lt_of_le less near)
  · rcases before with early | ⟨⟨near, far⟩, lower⟩
    · exact .inl (lt_of_le_of_lt le early)
    · refine .inr ⟨⟨le.trans near, far.trans ge⟩, ?_⟩
      have notLess : ¬ b.pointer.lt a.pointer = true := by simp [pointers]
      rw [RecordAddress.lt_iff] at lower notLess ⊢
      omega

/-- The leaf with the new entry in its place. -/
def withEntry (key : K) (pointer : RecordAddress) (entries : List (LeafEntry K)) : List (LeafEntry K) :=
  entries.insertIdx (partitionPoint (precedes key pointer) entries) ⟨key, pointer⟩

theorem withEntry_spec (key : K) (pointer : RecordAddress) {entries : List (LeafEntry K)}
    (sorted : entries.Pairwise EntryLe) :
    (withEntry key pointer entries).Pairwise EntryLe ∧
      (withEntry key pointer entries).Perm (⟨key, pointer⟩ :: entries) := by
  obtain ⟨inside, before, after⟩ := partitionPoint_spec (precedes_partitioned sorted : Partitioned (precedes key pointer) entries)
  unfold withEntry
  generalize partitionPoint (precedes key pointer) entries = i at *
  have split := List.take_append_drop i entries
  have placed := insertIdx_length_append (entries.take i) (entries.drop i) (⟨key, pointer⟩ : LeafEntry K)
  rw [split, List.length_take, Nat.min_eq_left inside] at placed
  rw [placed]
  rw [← split] at sorted
  obtain ⟨left, right, cross⟩ := List.pairwise_append.mp sorted
  constructor
  · rw [List.pairwise_append, List.pairwise_cons]
    refine ⟨left, ⟨?_, right⟩, ?_⟩
    · intro e member
      have late : ¬ precedes key pointer e = true := by simp [after e member]
      rw [precedes_iff, not_or] at late
      have notLess := Key.not_lt.mp late.1
      by_cases near : e.key ≤ key
      · refine .inr ⟨notLess, near, ?_⟩
        cases lower : e.pointer.lt pointer with
        | false => rfl
        | true => exact absurd ⟨⟨near, notLess⟩, lower⟩ late.2
      · exact .inl (Key.not_le.mp near)
    · intro a ha b hb
      rcases List.mem_cons.mp hb with rfl | later
      · rcases precedes_iff.mp (before a ha) with less | ⟨⟨near, far⟩, lower⟩
        · exact .inl less
        · refine .inr ⟨near, far, ?_⟩
          cases upper : pointer.lt a.pointer with
          | false => rfl
          | true =>
              rw [RecordAddress.lt_iff] at lower upper
              omega
      · exact cross a ha b later
  · conv_rhs => rw [← split]
    exact List.perm_middle

end Entries

section Leaves

variable {nodes nodes' : Nodes K} {before after : Level K} {page : Nat} {upper : WithTop K}

/-- A leaf takes entries that its separators allow. -/
theorem Ordered.replace (ordered : Ordered nodes (before ++ (page, upper) :: after))
    (others : ∀ x ∈ before ++ after, leafEntries nodes' x.1 = leafEntries nodes x.1)
    (sorted : (leafEntries nodes' page).Pairwise EntryLe)
    (high : ∀ e ∈ leafEntries nodes' page, (e.key : WithTop K) ≤ upper)
    (low : ∀ e ∈ leafEntries nodes' page, ∀ x ∈ before, x.2 ≤ (e.key : WithTop K)) :
    Ordered nodes' (before ++ (page, upper) :: after) := by
  have left : ∀ x ∈ before, leafEntries nodes' x.1 = leafEntries nodes x.1 :=
    fun x member => others x (List.mem_append_left _ member)
  have right : ∀ x ∈ after, leafEntries nodes' x.1 = leafEntries nodes x.1 :=
    fun x member => others x (List.mem_append_right _ member)
  obtain ⟨ascending, below, above, inner⟩ := ordered
  refine ⟨ascending, ?_, ?_, ?_⟩
  · intro x member
    rcases List.mem_append.mp member with early | here
    · rw [left x early]
      exact below x member
    · rcases List.mem_cons.mp here with rfl | late
      · exact high
      · rw [right x late]
        exact below x member
  · rw [List.pairwise_append, List.pairwise_cons] at above ⊢
    obtain ⟨first, ⟨middle, last⟩, cross⟩ := above
    refine ⟨?_, ⟨?_, ?_⟩, ?_⟩
    · exact first.imp_of_mem fun _ hy bound => by rwa [left _ hy]
    · intro y hy
      rw [right y hy]
      exact middle y hy
    · exact last.imp_of_mem fun _ hy bound => by rwa [right _ hy]
    · intro x hx y hy
      rcases List.mem_cons.mp hy with rfl | late
      · exact fun e listed => low e listed x hx
      · rw [right y late]
        exact cross x hx y (List.mem_cons_of_mem _ late)
  · intro x member
    rcases List.mem_append.mp member with early | here
    · rw [left x early]
      exact inner x member
    · rcases List.mem_cons.mp here with rfl | late
      · exact sorted
      · rw [right x late]
        exact inner x member

/-- A leaf is cut in two, with the first key of the right part between them. -/
theorem Ordered.cut (ordered : Ordered nodes (before ++ (page, upper) :: after)) {right : Nat}
    {leftEntries rightEntries : List (LeafEntry K)} {first : LeafEntry K}
    (whole : leafEntries nodes page = leftEntries ++ first :: rightEntries)
    (onLeft : leafEntries nodes' page = leftEntries) (onRight : leafEntries nodes' right = first :: rightEntries)
    (others : ∀ x ∈ before ++ after, leafEntries nodes' x.1 = leafEntries nodes x.1) :
    Ordered nodes' (before ++ (page, (first.key : WithTop K)) :: (right, upper) :: after) := by
  have left : ∀ x ∈ before, leafEntries nodes' x.1 = leafEntries nodes x.1 :=
    fun x member => others x (List.mem_append_left _ member)
  have late : ∀ x ∈ after, leafEntries nodes' x.1 = leafEntries nodes x.1 :=
    fun x member => others x (List.mem_append_right _ member)
  obtain ⟨ascending, below, above, inner⟩ := ordered
  have sorted := inner (page, upper) (by simp)
  have high := below (page, upper) (by simp)
  rw [whole] at sorted high
  have firstHigh : (first.key : WithTop K) ≤ upper := high first (by simp)
  have leftLe : ∀ e ∈ leftEntries, (e.key : WithTop K) ≤ first.key := fun e member =>
    WithTop.coe_le_coe.mpr ((List.pairwise_append.mp sorted).2.2 e member first List.mem_cons_self).key_le
  have rightGe : ∀ e ∈ first :: rightEntries, (first.key : WithTop K) ≤ e.key := by
    intro e member
    rcases List.mem_cons.mp member with rfl | later
    · exact le_refl _
    · have tail := (List.pairwise_append.mp sorted).2.1
      exact WithTop.coe_le_coe.mpr ((List.pairwise_cons.mp tail).1 e later).key_le
  unfold Ascending at ascending
  rw [List.pairwise_append, List.pairwise_cons] at ascending above
  obtain ⟨first₁, ⟨middle₁, last₁⟩, cross₁⟩ := ascending
  obtain ⟨first₂, ⟨middle₂, last₂⟩, cross₂⟩ := above
  have entryLow : ∀ x ∈ before, ∀ e ∈ leftEntries ++ first :: rightEntries, x.2 ≤ (e.key : WithTop K) := by
    intro x hx
    rw [← whole]
    exact cross₂ x hx (page, upper) List.mem_cons_self
  refine ⟨?_, ?_, ?_, ?_⟩
  · unfold Ascending
    rw [List.pairwise_append, List.pairwise_cons, List.pairwise_cons, List.forall_mem_cons]
    refine ⟨first₁, ⟨⟨firstHigh, fun y hy => firstHigh.trans (middle₁ y hy)⟩, middle₁, last₁⟩, ?_⟩
    intro x hx
    rw [List.forall_mem_cons, List.forall_mem_cons]
    exact ⟨entryLow x hx first (by simp), cross₁ x hx (page, upper) List.mem_cons_self,
      fun y hy => cross₁ x hx y (List.mem_cons_of_mem _ hy)⟩
  · intro x member
    simp only [List.mem_append, List.mem_cons] at member
    rcases member with early | rfl | rfl | later
    · rw [left x early]
      exact below x (by simp [early])
    · rw [onLeft]
      exact leftLe
    · rw [onRight]
      exact fun e listed => high e (List.mem_append_right _ listed)
    · rw [late x later]
      exact below x (by simp [later])
  · rw [List.pairwise_append, List.pairwise_cons, List.pairwise_cons, List.forall_mem_cons, onRight]
    refine ⟨first₂.imp_of_mem fun _ hy bound => by rwa [left _ hy], ⟨⟨rightGe, ?_⟩, ?_, ?_⟩, ?_⟩
    · intro y hy
      rw [late y hy]
      exact fun e listed => firstHigh.trans (middle₂ y hy e listed)
    · intro y hy
      rw [late y hy]
      exact middle₂ y hy
    · exact last₂.imp_of_mem fun _ hy bound => by rwa [late _ hy]
    · intro x hx
      rw [List.forall_mem_cons, List.forall_mem_cons, onLeft, onRight]
      refine ⟨?_, ?_, ?_⟩
      · exact fun e listed => entryLow x hx e (List.mem_append_left _ listed)
      · exact fun e listed => entryLow x hx e (List.mem_append_right _ listed)
      · intro y hy
        rw [late y hy]
        exact cross₂ x hx y (List.mem_cons_of_mem _ hy)
  · intro x member
    simp only [List.mem_append, List.mem_cons] at member
    rcases member with early | rfl | rfl | later
    · rw [left x early]
      exact inner x (by simp [early])
    · rw [onLeft]
      exact (List.pairwise_append.mp sorted).1
    · rw [onRight]
      exact (List.pairwise_append.mp sorted).2.1
    · rw [late x later]
      exact inner x (by simp [later])

omit [Key K] in
/-- A new leaf is linked in behind a leaf. -/
theorem Linked.cut {prev next : Option Nat} {left right : List Nat} {fresh : Nat}
    {body cutBody newBody : LeafNodeBody K} (linked : Linked nodes prev next (left ++ page :: right))
    (node : nodes page = .leaf body) (cutNode : nodes' page = .leaf cutBody)
    (newNode : nodes' fresh = .leaf newBody) (cutPrev : cutBody.prevLeaf = body.prevLeaf)
    (cutNext : cutBody.nextLeaf = some fresh) (newPrev : newBody.prevLeaf = some page)
    (newNext : newBody.nextLeaf = body.nextLeaf) (onLeft : ∀ x ∈ left, nodes' x = nodes x)
    (onRight : ∀ x ∈ right.tail, nodes' x = nodes x)
    (neighbour : ∀ x b, right.head? = some x → nodes x = .leaf b →
      nodes' x = .leaf { b with prevLeaf := some fresh }) :
    Linked nodes' prev next (left ++ page :: fresh :: right) := by
  rw [linked_append] at linked ⊢
  obtain ⟨first, ⟨b, found, before, after⟩, rest⟩ := linked
  rw [node] at found
  cases found
  refine ⟨first.congr ?_, ⟨cutBody, cutNode, cutPrev.trans before, cutNext⟩,
    ⟨newBody, newNode, newPrev, newNext.trans after⟩, ?_⟩
  · exact fun x member b found => ⟨b, (onLeft x member).trans found, rfl, rfl⟩
  · cases right with
    | nil => trivial
    | cons x right =>
        obtain ⟨⟨b, found, _, following⟩, tail⟩ := rest
        refine ⟨⟨_, neighbour x b rfl found, rfl, following⟩, tail.congr ?_⟩
        exact fun y member c found => ⟨c, (onRight y member).trans found, rfl, rfl⟩

end Leaves

section Fans

omit [Key K] in
/-- The median of a split goes up; the children of the halves are those of the node. -/
theorem fan_split {body : InternalNodeBody K} {mid : Nat} {median : InternalEntry K} {upper : WithTop K}
    (found : body.entries[mid]? = some median) :
    InternalNodeBody.fan ⟨body.entries.take mid, median.childPage⟩ (median.key : WithTop K) ++
      InternalNodeBody.fan ⟨body.entries.drop (mid + 1), body.rightmostChild⟩ upper = body.fan upper := by
  obtain ⟨inside, rfl⟩ := List.getElem?_eq_some_iff.mp found
  have split : body.entries = body.entries.take mid ++ body.entries[mid] :: body.entries.drop (mid + 1) := by
    rw [List.getElem_cons_drop, List.take_append_drop]
  have mapped := congrArg (List.map fun e => (e.childPage, (e.key : WithTop K))) split
  rw [List.map_append, List.map_cons] at mapped
  unfold InternalNodeBody.fan
  rw [mapped]
  simp only [List.append_assoc, List.cons_append, List.nil_append]

omit [Key K] in
/-- The split of a child in the entries of its parent. -/
theorem fan_promote {body : InternalNodeBody K} {upper sep : WithTop K} {left rest : Level K}
    {child : Nat} (key : K) (right : Nat) (order : body.fan upper = left ++ (child, sep) :: rest)
    (distinct : ((body.fan upper).map Prod.fst).Nodup) : ∃ body',
    IndexTree.promoteEntries body ⟨key, child, right⟩ = .ok body' ∧
      body'.fan upper = left ++ (child, (key : WithTop K)) :: (right, sep) :: rest ∧
      body'.entries.length = body.entries.length + 1 := by
  rw [order, List.map_append, List.map_cons, List.nodup_append, List.nodup_cons] at distinct
  obtain ⟨_, ⟨notRest, _⟩, cross⟩ := distinct
  have notLeft : ∀ x ∈ left, x.1 ≠ child := fun x member same =>
    cross x.1 (List.mem_map_of_mem member) child List.mem_cons_self same
  unfold IndexTree.promoteEntries
  by_cases last : body.rightmostChild = child
  · -- the split child is the rightmost one
    have ending : rest = [] := by
      cases rest using List.reverseRecOn with
      | nil => rfl
      | append_singleton rest x =>
          have tails : body.entries.map (fun e => (e.childPage, (e.key : WithTop K))) ++
              [(body.rightmostChild, upper)] = (left ++ (child, sep) :: rest) ++ [x] := by
            rw [List.append_assoc]
            exact order
          have final := List.singleton_inj.mp (List.append_inj' tails rfl).2
          refine absurd ?_ notRest
          rw [List.map_append, ← final, ← last]
          simp
    subst ending
    obtain ⟨front, final⟩ := List.append_inj' order rfl
    cases final
    refine ⟨_, if_pos last, ?_, by simp⟩
    unfold InternalNodeBody.fan
    rw [← front]
    simp
  · -- its entry is found by its page
    cases rest using List.reverseRecOn with
    | nil =>
        have final := List.singleton_inj.mp (List.append_inj' order rfl).2
        exact absurd (congrArg Prod.fst final) last
    | append_singleton rest x =>
        have tails : body.entries.map (fun e => (e.childPage, (e.key : WithTop K))) ++
            [(body.rightmostChild, upper)] = (left ++ (child, sep) :: rest) ++ [x] := by
          rw [List.append_assoc]
          exact order
        obtain ⟨front, final⟩ := List.append_inj' tails rfl
        obtain ⟨es, more, split, rfl, mapped⟩ := List.map_eq_append_iff.mp front
        obtain ⟨e, fs, rfl, entry, rfl⟩ := List.map_eq_cons_iff.mp mapped
        cases entry
        have position : body.entries.findIdx? (fun entry => decide (entry.childPage = e.childPage)) =
            some es.length := by
          rw [split, List.findIdx?_append]
          have absent : es.findIdx? (fun entry => decide (entry.childPage = e.childPage)) = none := by
            rw [List.findIdx?_eq_none_iff]
            intro y member
            exact decide_eq_false (notLeft _ (List.mem_map_of_mem member))
          rw [absent]
          simp [List.findIdx?_cons]
        have modified : (es ++ (⟨key, e.childPage⟩ : InternalEntry K) :: e :: fs).modify (es.length + 1)
            (fun entry => ⟨entry.key, right⟩) = es ++ ⟨key, e.childPage⟩ :: ⟨e.key, right⟩ :: fs := by
          have general := modify_length_append (es ++ [(⟨key, e.childPage⟩ : InternalEntry K)]) fs e
            (fun entry => ⟨entry.key, right⟩)
          simpa using general
        simp only [if_neg last, position]
        refine ⟨_, rfl, ?_, ?_⟩
        · rw [split, insertIdx_length_append, modified]
          unfold InternalNodeBody.fan
          rw [List.singleton_inj.mp final]
          simp
        · rw [List.length_modify, List.length_insertIdx_of_le_length (by rw [split]; simp)]

end Fans

section Forests

variable {nodes nodes' : Nodes K} {height : Nat} {level : Level K}

/-- Only the pages of a forest matter. -/
theorem Forest.congr (forest : Forest nodes height level)
    (same : ∀ page ∈ nodePages nodes height level, nodes' page = nodes page) :
    Forest nodes' height level ∧ leaves nodes' height level = leaves nodes height level ∧
      nodePages nodes' height level = nodePages nodes height level := by
  obtain ⟨sameLeaves, samePages, graded⟩ := levels_congr fun page member => .inl (same page member)
  have sameLeaf : ∀ x ∈ leaves nodes height level, nodes' x.1 = nodes x.1 := fun x member =>
    same x.1 ((leaves_pages_sublist nodes height level).subset (List.mem_map_of_mem member))
  refine ⟨⟨graded forest.graded, ?_, ?_, ?_⟩, sameLeaves, samePages⟩
  · rw [samePages]
    exact forest.nodup
  · rw [sameLeaves]
    refine forest.linked.congr ?_
    intro page member body found
    obtain ⟨x, listed, rfl⟩ := List.mem_map.mp member
    exact ⟨body, (sameLeaf x listed).trans found, rfl, rfl⟩
  · rw [sameLeaves]
    refine forest.ordered.of_sublist ?_
    intro x listed
    unfold leafEntries
    rw [sameLeaf x listed]

theorem forest_succ : Forest nodes (height + 1) level ↔
    (∀ x ∈ level, ∃ body, nodes x.1 = .internal body) ∧
      (nodePages nodes (height + 1) level).Nodup ∧ Forest nodes height (level.flatMap (fan nodes)) := by
  constructor
  · rintro ⟨⟨internal, graded⟩, nodup, linked, ordered⟩
    exact ⟨internal, nodup, graded, (List.nodup_append.mp nodup).2.1, linked, ordered⟩
  · rintro ⟨internal, nodup, graded, _, linked, ordered⟩
    exact ⟨⟨internal, graded⟩, nodup, linked, ordered⟩

end Forests

end WasmDbms
