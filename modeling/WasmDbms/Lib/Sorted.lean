import Mathlib.Data.List.Lex
import Mathlib.Data.List.Sort

/-!
# Sorted lists without duplicates

A list is sorted, then each run of equal elements is cut down to one. Such lists
are intersected by one pass over both. Lists with a common beginning stand
together in the lexicographic order.
-/
namespace Sorted
variable {α : Type} [LinearOrder α]

/-- Keeps one element of each run of equal elements. -/
def dedup : List α → List α
  | [] => []
  | [a] => [a]
  | a :: b :: rest => if a = b then dedup (b :: rest) else a :: dedup (b :: rest)

theorem mem_dedup {x : α} (l : List α) : x ∈ dedup l ↔ x ∈ l := by
  fun_induction dedup l with
  | case1 => exact Iff.rfl
  | case2 a => exact Iff.rfl
  | case3 b rest ih =>
      rw [ih]
      exact ⟨List.mem_cons_of_mem _, fun member =>
        (List.mem_cons.mp member).elim (fun same => same ▸ List.mem_cons_self) id⟩
  | case4 a b rest _ ih => rw [List.mem_cons, List.mem_cons, ih]

theorem dedup_sorted {l : List α} (sorted : l.Pairwise (· ≤ ·)) : (dedup l).Pairwise (· < ·) := by
  fun_induction dedup l with
  | case1 => exact List.Pairwise.nil
  | case2 a => exact List.pairwise_singleton _ _
  | case3 b rest ih => exact ih (List.pairwise_cons.mp sorted).2
  | case4 a b rest different ih =>
      obtain ⟨least, tail⟩ := List.pairwise_cons.mp sorted
      refine List.pairwise_cons.mpr ⟨?_, ih tail⟩
      intro x member
      have below : a < b := lt_of_le_of_ne (least b List.mem_cons_self) different
      obtain rfl | later := List.mem_cons.mp ((mem_dedup _).mp member)
      · exact below
      · exact below.trans_le ((List.pairwise_cons.mp tail).1 x later)

/-- `sort` and `dedup`. -/
def sortDedup (l : List α) : List α := dedup (l.insertionSort (· ≤ ·))

@[simp]
theorem mem_sortDedup {x : α} {l : List α} : x ∈ sortDedup l ↔ x ∈ l := by
  rw [sortDedup, mem_dedup, List.mem_insertionSort]

theorem sortDedup_sorted (l : List α) : (sortDedup l).Pairwise (· < ·) :=
  dedup_sorted (List.pairwise_insertionSort _ l)

theorem nodup_of_sorted {l : List α} (sorted : l.Pairwise (· < ·)) : l.Nodup :=
  sorted.imp fun less => ne_of_lt less

/-- One pass over two sorted lists. -/
def intersectSorted (left right : List α) : List α :=
  match left, right with
  | [], _ => []
  | _ :: _, [] => []
  | a :: left, b :: right =>
      if a < b then intersectSorted left (b :: right)
      else if b < a then intersectSorted (a :: left) right
      else a :: intersectSorted left right
termination_by left.length + right.length

theorem mem_intersectSorted {x : α} {left right : List α} (lefts : left.Pairwise (· < ·))
    (rights : right.Pairwise (· < ·)) : x ∈ intersectSorted left right ↔ x ∈ left ∧ x ∈ right := by
  fun_induction intersectSorted left right with
  | case1 right => simp
  | case2 a left => simp
  | case3 a left b right less ih =>
      obtain ⟨_, tail⟩ := List.pairwise_cons.mp lefts
      rw [ih tail rights]
      have absent : a ∉ b :: right := by
        intro member
        obtain rfl | later := List.mem_cons.mp member
        · exact lt_irrefl _ less
        · exact lt_asymm less ((List.pairwise_cons.mp rights).1 a later)
      constructor
      · exact fun both => ⟨List.mem_cons_of_mem _ both.1, both.2⟩
      · rintro ⟨first, second⟩
        obtain rfl | later := List.mem_cons.mp first
        · exact absurd second absent
        · exact ⟨later, second⟩
  | case4 a left b right _ less ih =>
      obtain ⟨_, tail⟩ := List.pairwise_cons.mp rights
      rw [ih lefts tail]
      have absent : b ∉ a :: left := by
        intro member
        obtain rfl | later := List.mem_cons.mp member
        · exact lt_irrefl _ less
        · exact lt_asymm less ((List.pairwise_cons.mp lefts).1 b later)
      constructor
      · exact fun both => ⟨both.1, List.mem_cons_of_mem _ both.2⟩
      · rintro ⟨first, second⟩
        obtain rfl | later := List.mem_cons.mp second
        · exact absurd first absent
        · exact ⟨first, later⟩
  | case5 a left b right notLess notGreater ih =>
      obtain rfl : a = b := le_antisymm (not_lt.mp notGreater) (not_lt.mp notLess)
      obtain ⟨_, tailLeft⟩ := List.pairwise_cons.mp lefts
      obtain ⟨_, tailRight⟩ := List.pairwise_cons.mp rights
      rw [List.mem_cons, ih tailLeft tailRight, List.mem_cons, List.mem_cons]
      constructor
      · rintro (rfl | both)
        · exact ⟨.inl rfl, .inl rfl⟩
        · exact ⟨.inr both.1, .inr both.2⟩
      · rintro ⟨same | first, second⟩
        · exact .inl same
        · exact second.imp id fun second => ⟨first, second⟩

theorem intersectSorted_sublist (left right : List α) : (intersectSorted left right).Sublist left := by
  fun_induction intersectSorted left right with
  | case1 right => exact List.Sublist.refl _
  | case2 a left => exact List.nil_sublist _
  | case3 a left b right less ih => exact ih.cons a
  | case4 a left b right _ less ih => exact ih
  | case5 a left b right _ _ ih => exact ih.cons_cons a

/-! ## Lists with a common beginning -/

theorem le_of_append_le {p xs ys : List α} {x y : α} (below : p ++ x :: xs ≤ p ++ y :: ys) : x ≤ y := by
  induction p with
  | nil =>
      obtain less | same := below.lt_or_eq
      · exact List.head_le_of_lt less
      · exact le_of_eq (List.cons.inj same).1
  | cons a p ih =>
      obtain less | same := below.lt_or_eq
      · obtain less | ⟨_, less⟩ := List.cons_lt_cons_iff.mp less
        · exact absurd less (lt_irrefl a)
        · exact ih less.le
      · exact ih (le_of_eq (List.cons.inj same).2)

theorem le_append (p xs : List α) : p ≤ p ++ xs := by
  induction p with
  | nil =>
      cases xs with
      | nil => exact le_refl _
      | cons x xs => exact (List.nil_lt_cons x xs).le
  | cons a p ih => exact List.cons_le_cons a ih

theorem append_le_append {p ys : List α} {x y : α} (below : x ≤ y) : p ++ [x] ≤ p ++ y :: ys := by
  induction p with
  | nil =>
      obtain less | rfl := below.lt_or_eq
      · exact (List.cons_lt_cons_iff.mpr (.inl less)).le
      · exact List.cons_le_cons x (le_append [] ys)
  | cons a p ih => exact List.cons_le_cons a ih

/-- A list behind `p` that does not begin with `p` is behind all lists that do. -/
theorem append_lt_of_not_prefix {p k : List α} (behind : p ≤ k) (other : ¬ p <+: k) (xs : List α) :
    p ++ xs < k := by
  induction p generalizing k with
  | nil => exact absurd List.nil_prefix other
  | cons a p ih =>
      cases k with
      | nil => exact absurd behind (not_le_of_gt (List.nil_lt_cons a p))
      | cons b k =>
          obtain less | same := behind.lt_or_eq
          · obtain head | ⟨rfl, tail⟩ := List.cons_lt_cons_iff.mp less
            · exact List.cons_lt_cons_iff.mpr (.inl head)
            · refine List.cons_lt_cons_iff.mpr (.inr ⟨rfl, ih tail.le ?_⟩)
              exact fun begins => other ((List.cons_prefix_cons).mpr ⟨rfl, begins⟩)
          · exact absurd (same ▸ List.prefix_rfl) other

end Sorted
