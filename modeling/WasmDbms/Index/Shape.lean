import Mathlib.Order.WithBot
import WasmDbms.Index.Store

/-!
# The levels of a tree

A tree is followed level by level. A level lists its nodes from left to right,
each with the separator that bounds it from above (`⊤` at the right edge), and
the level below it is the concatenation of the children. Order and links are
then properties of the lowest level alone.
-/
namespace WasmDbms
open Bisect

variable {K : Type} [Key K]

/-- What the pages of a tree hold. -/
abbrev Nodes (K : Type) := Nat → NodeBody K

/-- The nodes of a level with their upper separators. -/
abbrev Level (K : Type) := List (Nat × WithTop K)

omit [Key K] in
/-- The children of an internal node below an upper separator. -/
def InternalNodeBody.fan (body : InternalNodeBody K) (upper : WithTop K) : Level K :=
  body.entries.map (fun e => (e.childPage, (e.key : WithTop K))) ++ [(body.rightmostChild, upper)]

omit [Key K] in
def fan (nodes : Nodes K) (x : Nat × WithTop K) : Level K :=
  match nodes x.1 with
  | .internal body => body.fan x.2
  | .leaf _ => []

omit [Key K] in
/-- The leaves below a level of the given height. -/
def leaves (nodes : Nodes K) : Nat → Level K → Level K
  | 0, level => level
  | height + 1, level => leaves nodes height (level.flatMap (fan nodes))

omit [Key K] in
/-- The pages of a level and of everything below it. -/
def nodePages (nodes : Nodes K) : Nat → Level K → List Nat
  | 0, level => level.map Prod.fst
  | height + 1, level => level.map Prod.fst ++ nodePages nodes height (level.flatMap (fan nodes))

omit [Key K] in
/-- Internal nodes down to the leaves, which all have the same depth. -/
def Graded (nodes : Nodes K) : Nat → Level K → Prop
  | 0, level => ∀ x ∈ level, ∃ body, nodes x.1 = .leaf body
  | height + 1, level => (∀ x ∈ level, ∃ body, nodes x.1 = .internal body) ∧
      Graded nodes height (level.flatMap (fan nodes))

omit [Key K] in
theorem mem_nodePages (nodes : Nodes K) (height : Nat) {level : Level K} {x : Nat × WithTop K}
    (member : x ∈ level) : x.1 ∈ nodePages nodes height level := by
  cases height with
  | zero => exact List.mem_map_of_mem member
  | succ height => exact List.mem_append_left _ (List.mem_map_of_mem member)

omit [Key K] in
/-- The same node, or two leaves. -/
def SameShape (old new : NodeBody K) : Prop :=
  new = old ∨ (∃ body, old = .leaf body) ∧ ∃ body, new = .leaf body

omit [Key K] in
theorem fan_congr {nodes nodes' : Nodes K} {level : Level K}
    (same : ∀ x ∈ level, SameShape (nodes x.1) (nodes' x.1)) :
    level.flatMap (fan nodes') = level.flatMap (fan nodes) := by
  apply List.flatMap_congr
  intro x member
  unfold fan
  rcases same x member with equal | ⟨⟨_, old⟩, _, new⟩
  · rw [equal]
  · rw [old, new]

omit [Key K] in
/-- Only the pages of a tree matter, and of its leaves only that they are leaves. -/
theorem levels_congr {nodes nodes' : Nodes K} {height : Nat} {level : Level K}
    (same : ∀ page ∈ nodePages nodes height level, SameShape (nodes page) (nodes' page)) :
    leaves nodes' height level = leaves nodes height level ∧
      nodePages nodes' height level = nodePages nodes height level ∧
      (Graded nodes height level → Graded nodes' height level) := by
  induction height generalizing level with
  | zero =>
      refine ⟨rfl, rfl, ?_⟩
      intro graded x member
      rcases same x.1 (List.mem_map_of_mem member) with equal | ⟨_, leaf⟩
      · rw [equal]
        exact graded x member
      · exact leaf
  | succ height ih =>
      have here : ∀ x ∈ level, SameShape (nodes x.1) (nodes' x.1) :=
        fun x member => same x.1 (mem_nodePages nodes (height + 1) member)
      have below := @ih (level.flatMap (fan nodes))
        (fun page member => same page (List.mem_append_right _ member))
      simp only [leaves, nodePages, Graded, fan_congr here]
      refine ⟨below.1, by rw [below.2.1], ?_⟩
      rintro ⟨internal, graded⟩
      refine ⟨?_, below.2.2 graded⟩
      intro x member
      obtain ⟨body, node⟩ := internal x member
      rcases here x member with equal | ⟨⟨_, leaf⟩, _⟩
      · exact ⟨body, equal.trans node⟩
      · rw [leaf] at node
        cases node

omit [Key K] in
/-- The separators of a level stay separators below it. -/
theorem separators_sublist {nodes : Nodes K} {level : Level K}
    (internal : ∀ x ∈ level, ∃ body, nodes x.1 = .internal body) :
    (level.map Prod.snd).Sublist ((level.flatMap (fan nodes)).map Prod.snd) := by
  induction level with
  | nil => simp
  | cons x level ih =>
      rw [List.forall_mem_cons] at internal
      obtain ⟨body, node⟩ := internal.1
      have last : fan nodes x = body.fan x.2 := by
        unfold fan
        rw [node]
      rw [List.map_cons, List.flatMap_cons, List.map_append, last, InternalNodeBody.fan,
        List.map_append, List.append_assoc]
      refine List.Sublist.trans ?_ (List.sublist_append_right _ _)
      exact (ih internal.2).cons_cons _

omit [Key K] in
theorem leaves_sublist {nodes : Nodes K} {height : Nat} {level : Level K}
    (graded : Graded nodes height level) :
    (level.map Prod.snd).Sublist ((leaves nodes height level).map Prod.snd) := by
  induction height generalizing level with
  | zero => exact .refl _
  | succ height ih => exact (separators_sublist graded.1).trans (ih graded.2)

omit [Key K] in
theorem leaves_pages_sublist (nodes : Nodes K) (height : Nat) (level : Level K) :
    ((leaves nodes height level).map Prod.fst).Sublist (nodePages nodes height level) := by
  induction height generalizing level with
  | zero => exact .refl _
  | succ height ih => exact (ih _).trans (List.sublist_append_right _ _)

/-- The key belongs right of everything before and left of a separator. -/
structure Routed (key : K) (before : Level K) (upper : WithTop K) : Prop where
  left : ∀ x ∈ before, x.2 ≤ key
  right : (key : WithTop K) < upper

/-- Separators grow from left to right. -/
def Ascending (level : Level K) : Prop := level.Pairwise fun x y => x.2 ≤ y.2

theorem Ascending.of_sublist {level level' : Level K} (ascending : Ascending level')
    (sub : (level.map Prod.snd).Sublist (level'.map Prod.snd)) : Ascending level :=
  List.pairwise_map.mp ((List.pairwise_map.mpr ascending).sublist sub)

theorem coe_total (a b : K) : (a : WithTop K) ≤ b ∨ (b : WithTop K) ≤ a :=
  (Key.total a b).imp WithTop.coe_le_coe.mpr WithTop.coe_le_coe.mpr

theorem Key.not_le {a b : K} : ¬ a ≤ b ↔ b < a := by
  rw [lt_iff_le_not_ge]
  constructor
  · exact fun no => ⟨(Key.total a b).resolve_left no, no⟩
  · exact fun h => h.2

theorem Key.not_lt {a b : K} : ¬ a < b ↔ b ≤ a := by
  rw [← not_iff_not, Classical.not_not]
  exact Key.not_le.symm

theorem InternalNodeBody.parted (body : InternalNodeBody K) {upper : WithTop K} (key : K)
    (ascending : Ascending (body.fan upper)) :
    Partitioned (fun e : InternalEntry K => decide (e.key ≤ key)) body.entries := by
  unfold Ascending InternalNodeBody.fan at ascending
  refine (List.pairwise_map.mp (List.pairwise_append.mp ascending).1).imp ?_
  intro a b ordered below
  have le := WithTop.coe_le_coe.mp ordered
  exact decide_eq_true (le.trans (of_decide_eq_true below))

/-- The child a key routes to, with the children before and after it. -/
theorem InternalNodeBody.route (body : InternalNodeBody K) {upper : WithTop K} {key : K}
    (ascending : Ascending (body.fan upper)) (right : (key : WithTop K) < upper) :
    ∃ left sep rest, body.fan upper = left ++ (IndexTree.findChild body key, sep) :: rest ∧
      Routed key left sep := by
  have keys := body.parted key ascending
  obtain ⟨inside, before, after⟩ := partitionPoint_spec keys
  unfold IndexTree.findChild
  generalize partitionPoint (fun e : InternalEntry K => decide (e.key ≤ key)) body.entries = i at *
  have split := List.take_append_drop i body.entries
  have low : ∀ x ∈ (body.entries.take i).map (fun e => (e.childPage, (e.key : WithTop K))), x.2 ≤ key := by
    intro x member
    obtain ⟨e, taken, rfl⟩ := List.mem_map.mp member
    exact WithTop.coe_le_coe.mpr (of_decide_eq_true (before e taken))
  cases last : body.entries.drop i with
  | nil =>
      have none_left : body.entries[i]? = none := List.getElem?_eq_none (List.drop_eq_nil_iff.mp last)
      rw [last, List.append_nil] at split
      refine ⟨(body.entries.take i).map (fun e => (e.childPage, (e.key : WithTop K))), upper, [], ?_, low, right⟩
      rw [none_left, split]
      rfl
  | cons e rest =>
      have here : body.entries[i]? = some e := by
        rw [← List.head?_drop, last]
        rfl
      have above : key < e.key := by
        have failed := after e (by rw [last]; exact List.mem_cons_self)
        exact Key.not_le.mp (of_decide_eq_false failed)
      refine ⟨(body.entries.take i).map (fun e => (e.childPage, (e.key : WithTop K))), e.key,
        rest.map (fun e => (e.childPage, (e.key : WithTop K))) ++ [(body.rightmostChild, upper)], ?_,
        low, WithTop.coe_lt_coe.mpr above⟩
      rw [here]
      unfold InternalNodeBody.fan
      conv_lhs => rw [← split, last]
      simp

/-- The children of a node lie below its separator. -/
theorem fan_le {nodes : Nodes K} {x y : Nat × WithTop K} (ascending : Ascending (fan nodes y))
    (member : x ∈ fan nodes y) : x.2 ≤ y.2 := by
  unfold fan at ascending member
  split at member
  · rename_i body node
    rw [node] at ascending
    unfold Ascending InternalNodeBody.fan at ascending
    unfold InternalNodeBody.fan at member
    rcases List.mem_append.mp member with inner | last
    · exact (List.pairwise_append.mp ascending).2.2 x inner (body.rightmostChild, y.2)
        (List.mem_singleton_self _)
    · rw [List.mem_singleton.mp last]
  · simp at member

/-- One level down: the child of a routed node is routed. -/
theorem Routed.descend {nodes : Nodes K} {before after : Level K} {page : Nat} {upper : WithTop K}
    {key : K} {body : InternalNodeBody K} (routed : Routed key before upper)
    (node : nodes page = .internal body)
    (ascending : Ascending ((before ++ (page, upper) :: after).flatMap (fan nodes))) :
    ∃ left sep rest, body.fan upper = left ++ (IndexTree.findChild body key, sep) :: rest ∧
      (before ++ (page, upper) :: after).flatMap (fan nodes) =
        (before.flatMap (fan nodes) ++ left) ++ (IndexTree.findChild body key, sep) ::
          (rest ++ after.flatMap (fan nodes)) ∧
      Routed key (before.flatMap (fan nodes) ++ left) sep := by
  have here : fan nodes (page, upper) = body.fan upper := by
    unfold fan
    rw [node]
  have whole : (before ++ (page, upper) :: after).flatMap (fan nodes) =
      before.flatMap (fan nodes) ++ (body.fan upper ++ after.flatMap (fan nodes)) := by
    rw [List.flatMap_append, List.flatMap_cons, here]
  rw [whole] at ascending ⊢
  unfold Ascending at ascending
  have tail := (List.pairwise_append.mp ascending).2.1
  obtain ⟨left, sep, rest, split, inner⟩ := body.route (List.pairwise_append.mp tail).1 routed.right
  refine ⟨left, sep, rest, split, ?_, ?_, inner.right⟩
  · rw [split]
    simp only [List.append_assoc, List.cons_append]
  · intro x member
    rcases List.mem_append.mp member with old | new
    · obtain ⟨y, listed, child⟩ := List.mem_flatMap.mp old
      have part : (fan nodes y).Sublist (before.flatMap (fan nodes)) := by
        rw [List.flatMap_def]
        exact List.sublist_flatten_of_mem (List.mem_map_of_mem listed)
      exact (fan_le ((List.pairwise_append.mp ascending).1.sublist part) child).trans
        (routed.left y listed)
    · exact inner.left x new

end WasmDbms
