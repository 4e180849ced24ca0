import Mathlib.Data.List.Forall2
import Mathlib.Order.Compare
import Mathlib.Order.Nat

/-!
# Trees in lexicographic order

Trees whose inner nodes are lists and records, with leaves and field names from linear
orders. They are compared leaf before list before record, and lexicographically inside; the
lemmas about lists and fields speak of the members, so that they serve the induction.
-/
namespace Trees

variable {α β κ σ : Type}

theorem then_eq_lt {o p : Ordering} : o.then p = .lt ↔ o = .lt ∨ o = .eq ∧ p = .lt := by
  cases o <;> cases p <;> simp

/-- The comparison is the order of some linear order. -/
structure Ordered (cmp : α → α → Ordering) : Prop where
  eq_iff : ∀ x y, cmp x y = .eq ↔ x = y
  swap : ∀ x y, cmp y x = (cmp x y).swap
  trans : ∀ x y z, cmp x y = .lt → cmp y z = .lt → cmp x z = .lt

theorem compare_swap [LinearOrder σ] (x y : σ) : compare y x = (compare x y).swap := by
  rcases lt_trichotomy x y with low | rfl | high
  · rw [compare_lt_iff_lt.mpr low, compare_gt_iff_gt.mpr low]
    rfl
  · rw [compare_eq_iff_eq.mpr rfl]
    rfl
  · rw [compare_gt_iff_gt.mpr high, compare_lt_iff_lt.mpr high]
    rfl

theorem compare_trans [LinearOrder σ] {x y z : σ} (low : compare x y = .lt) (low' : compare y z = .lt) : compare x z = .lt :=
  compare_lt_iff_lt.mpr ((compare_lt_iff_lt.mp low).trans (compare_lt_iff_lt.mp low'))

namespace Ordered
variable {cmp : α → α → Ordering} {x y z : α}

theorem isLE_refl (ordered : Ordered cmp) (x : α) : (cmp x x).isLE = true := by
  rw [(ordered.eq_iff x x).mpr rfl]
  rfl

theorem isLE_trans (ordered : Ordered cmp) (first : (cmp x y).isLE = true) (second : (cmp y z).isLE = true) :
    (cmp x z).isLE = true := by
  cases low : cmp x y with
  | gt =>
      rw [low] at first
      cases first
  | eq => rwa [(ordered.eq_iff x y).mp low]
  | lt =>
      cases low' : cmp y z with
      | gt =>
          rw [low'] at second
          cases second
      | eq =>
          rw [← (ordered.eq_iff y z).mp low', low]
          rfl
      | lt =>
          rw [ordered.trans x y z low low']
          rfl

theorem isLE_antisymm (ordered : Ordered cmp) (first : (cmp x y).isLE = true) (second : (cmp y x).isLE = true) : x = y := by
  rw [ordered.swap] at second
  refine (ordered.eq_iff x y).mp ?_
  cases order : cmp x y with
  | eq => rfl
  | lt =>
      rw [order] at second
      cases second
  | gt =>
      rw [order] at first
      cases first

theorem isLE_total (ordered : Ordered cmp) (x y : α) : (cmp x y).isLE = true ∨ (cmp y x).isLE = true := by
  rw [ordered.swap x y]
  cases cmp x y with
  | lt | eq => exact .inl rfl
  | gt => exact .inr rfl

theorem lt_iff (ordered : Ordered cmp) (x y : α) : cmp x y = .lt ↔ (cmp x y).isLE = true ∧ ¬(cmp y x).isLE = true := by
  rw [ordered.swap x y]
  cases cmp x y <;> simp

theorem eq_compareOfLessAndEq [DecidableEq α] (ordered : Ordered cmp) (x y : α) :
    cmp x y = @compareOfLessAndEq α x y ⟨fun x y => cmp x y = .lt⟩ (inferInstanceAs (Decidable (cmp x y = .lt))) _ := by
  by_cases low : cmp x y = .lt
  · exact low.trans (if_pos low).symm
  · refine Eq.trans ?_ (if_neg low).symm
    by_cases same : x = y
    · exact ((ordered.eq_iff x y).mpr same).trans (if_pos same).symm
    · refine Eq.trans ?_ (if_neg same).symm
      have apart := (not_congr (ordered.eq_iff x y)).mpr same
      cases order : cmp x y with
      | gt => rfl
      | lt => exact absurd order low
      | eq => exact absurd order apart

/-- The linear order of a comparison. -/
@[reducible] def linearOrder (ordered : Ordered cmp) : LinearOrder α where
  le x y := (cmp x y).isLE = true
  lt x y := cmp x y = .lt
  le_refl := ordered.isLE_refl
  le_trans _ _ _ := ordered.isLE_trans
  lt_iff_le_not_ge := ordered.lt_iff
  le_antisymm _ _ := ordered.isLE_antisymm
  le_total := ordered.isLE_total
  toDecidableLE x y := inferInstanceAs (Decidable ((cmp x y).isLE = true))
  toDecidableEq x y := decidable_of_iff (cmp x y = .eq) (ordered.eq_iff x y)
  toDecidableLT x y := inferInstanceAs (Decidable (cmp x y = .lt))
  compare := cmp
  compare_eq_compareOfLessAndEq x y := @ordered.eq_compareOfLessAndEq α cmp (fun x y => decidable_of_iff (cmp x y = .eq) (ordered.eq_iff x y)) x y

end Ordered

/-! ## Lists -/

/-- The first difference of two lists, or else the shorter one first. -/
def lexCmp (cmp : α → β → Ordering) (xs : List α) (ys : List β) : Ordering :=
  ((xs.zip ys).map fun pair => cmp pair.1 pair.2).foldr Ordering.then (compare xs.length ys.length)

section Lists
variable {cmp : α → α → Ordering}

theorem lexCmp_cons (cmp : α → β → Ordering) (x : α) (y : β) (xs : List α) (ys : List β) :
    lexCmp cmp (x :: xs) (y :: ys) = (cmp x y).then (lexCmp cmp xs ys) := by
  have long : compare (x :: xs).length (y :: ys).length = compare xs.length ys.length := by
    rw [List.length_cons, List.length_cons, Nat.compare_eq_ite_lt, Nat.compare_eq_ite_lt]
    simp only [Nat.add_lt_add_iff_right]
  rw [lexCmp, List.zip_cons_cons, List.map_cons, List.foldr_cons, long]
  rfl

theorem lexCmp_nil_cons (cmp : α → β → Ordering) (y : β) (ys : List β) : lexCmp cmp [] (y :: ys) = .lt := rfl

theorem lexCmp_cons_nil (cmp : α → β → Ordering) (x : α) (xs : List α) : lexCmp cmp (x :: xs) [] = .gt := rfl

/-- Lists compare like their images when the members do. -/
theorem lexCmp_map {γ δ : Type} {cmp : α → β → Ordering} {cmp' : γ → δ → Ordering} {f : α → γ} {g : β → δ} {xs : List α}
    (members : ∀ x ∈ xs, ∀ y, cmp x y = cmp' (f x) (g y)) : ∀ ys, lexCmp cmp xs ys = lexCmp cmp' (xs.map f) (ys.map g) := by
  induction xs with
  | nil =>
      intro ys
      cases ys <;> rfl
  | cons x xs ih =>
      obtain ⟨first, others⟩ := List.forall_mem_cons.mp members
      intro ys
      cases ys with
      | nil => rfl
      | cons y ys => rw [List.map_cons, List.map_cons, lexCmp_cons, lexCmp_cons, first, ih others]

theorem lexCmp_eq {xs : List α} (members : ∀ x ∈ xs, ∀ y, cmp x y = .eq ↔ x = y) : ∀ ys, lexCmp cmp xs ys = .eq ↔ xs = ys := by
  induction xs with
  | nil =>
      intro ys
      cases ys with
      | nil => exact ⟨fun _ => rfl, fun _ => rfl⟩
      | cons y ys =>
          rw [lexCmp_nil_cons]
          simp
  | cons x xs ih =>
      obtain ⟨first, others⟩ := List.forall_mem_cons.mp members
      intro ys
      cases ys with
      | nil =>
          rw [lexCmp_cons_nil]
          simp
      | cons y ys => rw [lexCmp_cons, Ordering.then_eq_eq, first, ih others, List.cons_eq_cons]

theorem lexCmp_swap {xs : List α} (members : ∀ x ∈ xs, ∀ y, cmp y x = (cmp x y).swap) :
    ∀ ys, lexCmp cmp ys xs = (lexCmp cmp xs ys).swap := by
  induction xs with
  | nil =>
      intro ys
      cases ys <;> rfl
  | cons x xs ih =>
      obtain ⟨first, others⟩ := List.forall_mem_cons.mp members
      intro ys
      cases ys with
      | nil => rfl
      | cons y ys => rw [lexCmp_cons, lexCmp_cons, first, ih others, Ordering.swap_then]

theorem lexCmp_trans {xs : List α} (eq_iff : ∀ x y, cmp x y = .eq ↔ x = y)
    (members : ∀ x ∈ xs, ∀ y z, cmp x y = .lt → cmp y z = .lt → cmp x z = .lt) :
    ∀ ys zs, lexCmp cmp xs ys = .lt → lexCmp cmp ys zs = .lt → lexCmp cmp xs zs = .lt := by
  induction xs with
  | nil =>
      intro ys zs _ low
      cases zs with
      | nil => cases ys <;> cases low
      | cons z zs => rfl
  | cons x xs ih =>
      obtain ⟨first, others⟩ := List.forall_mem_cons.mp members
      intro ys zs low low'
      cases ys with
      | nil => cases low
      | cons y ys =>
          cases zs with
          | nil => cases low'
          | cons z zs =>
              rw [lexCmp_cons, then_eq_lt] at low low' ⊢
              rcases low with low | ⟨same, low⟩
              · rcases low' with low' | ⟨same', _⟩
                · exact .inl (first y z low low')
                · rw [← (eq_iff y z).mp same']
                  exact .inl low
              · rw [(eq_iff x y).mp same]
                rcases low' with low' | ⟨same', low'⟩
                · exact .inl low'
                · exact .inr ⟨same', ih others ys zs low low'⟩

end Lists

/-! ## Fields -/

/-- By name, then by value. -/
def fieldCmp [Ord κ] (cmp : α → β → Ordering) (f : κ × α) (g : κ × β) : Ordering :=
  (compare f.1 g.1).then (cmp f.2 g.2)

section Fields
variable [LinearOrder κ] {cmp : α → α → Ordering} {f : κ × α}

theorem fieldCmp_eq (here : ∀ y, cmp f.2 y = .eq ↔ f.2 = y) (g : κ × α) : fieldCmp cmp f g = .eq ↔ f = g := by
  rw [fieldCmp, Ordering.then_eq_eq, compare_eq_iff_eq, here, Prod.ext_iff]

theorem fieldCmp_swap (here : ∀ y, cmp y f.2 = (cmp f.2 y).swap) (g : κ × α) : fieldCmp cmp g f = (fieldCmp cmp f g).swap := by
  rw [fieldCmp, fieldCmp, compare_swap, here, Ordering.swap_then]

theorem fieldCmp_trans (here : ∀ y z, cmp f.2 y = .lt → cmp y z = .lt → cmp f.2 z = .lt) (g h : κ × α) (low : fieldCmp cmp f g = .lt)
    (low' : fieldCmp cmp g h = .lt) : fieldCmp cmp f h = .lt := by
  rw [fieldCmp, then_eq_lt] at low low' ⊢
  rcases low with low | ⟨same, low⟩
  · rcases low' with low' | ⟨same', _⟩
    · exact .inl (compare_trans low low')
    · rw [← compare_eq_iff_eq.mp same']
      exact .inl low
  · rw [compare_eq_iff_eq.mp same]
    rcases low' with low' | ⟨same', low'⟩
    · exact .inl low'
    · exact .inr ⟨same', here _ _ low low'⟩

end Fields

/-! ## Trees -/

inductive Tree (κ σ : Type) where
  | leaf (scalar : σ)
  | list (elems : List (Tree κ σ))
  | record (fields : List (κ × Tree κ σ))

namespace Tree

theorem sizeOf_elem {t : Tree κ σ} {elems : List (Tree κ σ)} (member : t ∈ elems) : sizeOf t < sizeOf (Tree.list elems) := by
  have small := List.sizeOf_lt_of_mem member
  rw [list.sizeOf_spec]
  omega

theorem sizeOf_field {f : κ × Tree κ σ} {fields : List (κ × Tree κ σ)} (member : f ∈ fields) :
    sizeOf f.2 < sizeOf (Tree.record fields) := by
  have small := List.sizeOf_lt_of_mem member
  have inside : sizeOf f = 1 + sizeOf f.1 + sizeOf f.2 := Prod.mk.sizeOf_spec f.1 f.2
  rw [record.sizeOf_spec]
  omega

theorem induction {P : Tree κ σ → Prop} (leaf : ∀ scalar, P (.leaf scalar)) (list : ∀ elems, (∀ t ∈ elems, P t) → P (.list elems))
    (record : ∀ fields, (∀ f ∈ fields, P f.2) → P (.record fields)) : ∀ t, P t
  | .leaf scalar => leaf scalar
  | .list elems => list elems fun t _ => induction leaf list record t
  | .record fields => record fields fun f _ => induction leaf list record f.2
termination_by t => t
decreasing_by
  · exact sizeOf_elem ‹_›
  · exact sizeOf_field ‹_›

variable [LinearOrder κ] (leafCmp : σ → σ → Ordering)

/-- Leaves before lists before records. -/
def cmp : Tree κ σ → Tree κ σ → Ordering
  | .leaf x, .leaf y => leafCmp x y
  | .leaf _, .list _ => .lt
  | .leaf _, .record _ => .lt
  | .list _, .leaf _ => .gt
  | .list xs, .list ys => ((xs.zip ys).attach.map fun pair => cmp pair.1.1 pair.1.2).foldr Ordering.then (compare xs.length ys.length)
  | .list _, .record _ => .lt
  | .record _, .leaf _ => .gt
  | .record _, .list _ => .gt
  | .record fs, .record gs =>
      ((fs.zip gs).attach.map fun pair => (compare pair.1.1.1 pair.1.2.1).then (cmp pair.1.1.2 pair.1.2.2)).foldr Ordering.then
        (compare fs.length gs.length)
termination_by t => t
decreasing_by
  · exact sizeOf_elem (List.of_mem_zip pair.2).1
  · exact sizeOf_field (List.of_mem_zip pair.2).1

theorem cmp_list (xs ys : List (Tree κ σ)) : cmp leafCmp (.list xs) (.list ys) = lexCmp (cmp leafCmp) xs ys := by
  rw [cmp, lexCmp, ← List.attach_map_val (f := fun pair : Tree κ σ × Tree κ σ => cmp leafCmp pair.1 pair.2)]

theorem cmp_record (fs gs : List (κ × Tree κ σ)) : cmp leafCmp (.record fs) (.record gs) = lexCmp (fieldCmp (cmp leafCmp)) fs gs := by
  rw [cmp, lexCmp, ← List.attach_map_val (f := fun pair : (κ × Tree κ σ) × (κ × Tree κ σ) => fieldCmp (cmp leafCmp) pair.1 pair.2)]
  rfl

variable {leafCmp} (ordered : Ordered leafCmp)
include ordered

theorem cmp_eq (s : Tree κ σ) : ∀ t, cmp leafCmp s t = .eq ↔ s = t := by
  induction s using Tree.induction with
  | leaf x =>
      intro t
      cases t with
      | leaf y => rw [cmp, ordered.eq_iff, leaf.injEq]
      | list | record =>
          rw [cmp]
          simp
  | list xs ih =>
      intro t
      cases t with
      | list ys => rw [cmp_list, lexCmp_eq ih, list.injEq]
      | leaf | record =>
          rw [cmp]
          simp
  | record fs ih =>
      intro t
      cases t with
      | record gs => rw [cmp_record, lexCmp_eq fun f member => fieldCmp_eq (ih f member), record.injEq]
      | leaf | list =>
          rw [cmp]
          simp

theorem cmp_swap (s : Tree κ σ) : ∀ t, cmp leafCmp t s = (cmp leafCmp s t).swap := by
  induction s using Tree.induction with
  | leaf x =>
      intro t
      cases t with
      | leaf y => rw [cmp, cmp, ordered.swap]
      | list | record =>
          rw [cmp, cmp]
          rfl
  | list xs ih =>
      intro t
      cases t with
      | list ys => rw [cmp_list, cmp_list, lexCmp_swap ih]
      | leaf | record =>
          rw [cmp, cmp]
          rfl
  | record fs ih =>
      intro t
      cases t with
      | record gs => rw [cmp_record, cmp_record, lexCmp_swap fun f member => fieldCmp_swap (ih f member)]
      | leaf | list =>
          rw [cmp, cmp]
          rfl

theorem cmp_trans (s : Tree κ σ) : ∀ t u, cmp leafCmp s t = .lt → cmp leafCmp t u = .lt → cmp leafCmp s u = .lt := by
  induction s using Tree.induction with
  | leaf x =>
      intro t u low low'
      cases u with
      | list | record => rw [cmp]
      | leaf z =>
          cases t with
          | leaf y =>
              rw [cmp] at low low' ⊢
              exact ordered.trans _ _ _ low low'
          | list | record =>
              rw [cmp] at low'
              cases low'
  | list xs ih =>
      intro t u low low'
      cases t with
      | leaf =>
          rw [cmp] at low
          cases low
      | list ys =>
          cases u with
          | leaf =>
              rw [cmp] at low'
              cases low'
          | list zs =>
              rw [cmp_list] at low low' ⊢
              exact lexCmp_trans (cmp_eq ordered) ih ys zs low low'
          | record => rw [cmp]
      | record =>
          cases u with
          | leaf | list =>
              rw [cmp] at low'
              cases low'
          | record => rw [cmp]
  | record fs ih =>
      intro t u low low'
      cases t with
      | leaf | list =>
          rw [cmp] at low
          cases low
      | record gs =>
          cases u with
          | leaf | list =>
              rw [cmp] at low'
              cases low'
          | record hs =>
              rw [cmp_record] at low low' ⊢
              exact lexCmp_trans (fun f => fieldCmp_eq (cmp_eq ordered f.2)) (fun f member => fieldCmp_trans (ih f member)) gs hs low low'

/-- Trees are linearly ordered. -/
theorem cmp_ordered : Ordered (cmp leafCmp : Tree κ σ → Tree κ σ → Ordering) :=
  ⟨cmp_eq ordered, cmp_swap ordered, cmp_trans ordered⟩

end Tree
end Trees
