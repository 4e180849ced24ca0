import Mathlib.Data.List.Sort
import Mathlib.Order.Basic

/-!
# Sorting by several keys

A stable sort by each key, the last key first, orders the elements by the keys in turn;
elements with equal keys keep the order they had. A stable sort by rank lists the elements
of each rank in turn.
-/
namespace StableSort

variable {α : Type}

/-- Sorts by the comparisons, the last one first. -/
def sortBy (compares : List (α → α → Ordering)) (l : List α) : List α :=
  compares.foldr (fun cmp l => l.mergeSort fun a b => cmp a b != .gt) l

/-- The first comparison that tells two elements apart. -/
def inTurn (compares : List (α → α → Ordering)) (a b : α) : Ordering :=
  compares.foldr (fun cmp rest => (cmp a b).then rest) .eq

variable {compares : List (α → α → Ordering)} {l : List α}

/-- The elements with a property come first. -/
theorem filter_append_iff {l : List α} {p : α → Bool} :
    (l.filter p ++ l.filter fun a => !p a) = l ↔ l.Pairwise fun a b => p b = true → p a = true := by
  constructor
  · intro same
    rw [← same, List.pairwise_append]
    refine ⟨List.pairwise_of_forall_mem_list fun a first b _ _ => (List.mem_filter.mp first).2,
      List.pairwise_of_forall_mem_list fun a _ b second held => ?_, fun a first b _ _ => (List.mem_filter.mp first).2⟩
    exact absurd held (Bool.not_eq_true _ ▸ Bool.not_eq_eq_eq_not.mp (List.mem_filter.mp second).2)
  · intro first
    induction l with
    | nil => rfl
    | cons a l ih =>
        obtain ⟨least, first⟩ := List.pairwise_cons.mp first
        by_cases here : p a = true
        · rw [List.filter_cons_of_pos here, List.filter_cons_of_neg (by rw [here]; exact Bool.false_ne_true), List.cons_append,
            ih first]
        · have later : ∀ b ∈ a :: l, ¬ p b = true := by
            intro b member
            rcases List.mem_cons.mp member with rfl | later
            · exact here
            · exact fun there => here (least b later there)
          rw [List.filter_eq_nil_iff.mpr later, List.nil_append]
          exact List.filter_eq_self.mpr fun b member => by rw [Bool.eq_false_iff.mpr (later b member)]; rfl

section Rank
variable {rank : α → ℕ} {l : List α} {n : ℕ}

/-- In order of rank, a list is its elements of each rank in turn. -/
theorem eq_flatMap_of_pairwise (sorted : l.Pairwise fun a b => rank a ≤ rank b) (bounded : ∀ a ∈ l, rank a < n) :
    l = (List.range n).flatMap fun k => l.filter fun a => rank a == k := by
  induction n generalizing l with
  | zero => exact List.eq_nil_iff_forall_not_mem.mpr fun a member => Nat.not_lt_zero _ (bounded a member)
  | succ n ih =>
      have lower := ih (sorted.sublist List.filter_sublist) (l := l.filter fun a => decide (rank a < n))
        fun a member => by simpa using (List.mem_filter.mp member).2
      have last : (l.filter fun a => !decide (rank a < n)) = l.filter fun a => rank a == n := by
        refine List.filter_congr fun a member => ?_
        have := bounded a member
        rw [Bool.eq_iff_iff]
        simp
        omega
      rw [List.range_succ, List.flatMap_append, List.flatMap_singleton]
      have split : l.Pairwise fun a b => decide (rank b < n) = true → decide (rank a < n) = true :=
        sorted.imp fun le less => decide_eq_true (lt_of_le_of_lt le (of_decide_eq_true less))
      refine (filter_append_iff.mpr split).symm.trans (congrArg₂ _ (lower.trans ?_) last)
      refine List.flatMap_congr fun k inside => ?_
      rw [List.filter_filter]
      refine List.filter_congr fun a _ => ?_
      have := List.mem_range.mp inside
      rw [Bool.eq_iff_iff]
      simp
      omega

/-- Sorted by rank, the elements of each rank keep their order. -/
theorem mergeSort_rank (bounded : ∀ a ∈ l, rank a < n) :
    l.mergeSort (fun a b => decide (rank a ≤ rank b)) = (List.range n).flatMap fun k => l.filter fun a => rank a == k := by
  have trans : ∀ a b c : α, decide (rank a ≤ rank b) → decide (rank b ≤ rank c) → decide (rank a ≤ rank c) := by
    simpa using fun a b c : α => le_trans
  have total : ∀ a b : α, decide (rank a ≤ rank b) || decide (rank b ≤ rank a) := by
    simpa using fun a b : α => le_total (rank a) (rank b)
  have sorted : (l.mergeSort fun a b => decide (rank a ≤ rank b)).Pairwise fun a b => rank a ≤ rank b :=
    (List.pairwise_mergeSort trans total l).imp of_decide_eq_true
  rw [eq_flatMap_of_pairwise sorted fun a member => bounded a (List.mem_mergeSort.mp member)]
  refine List.flatMap_congr fun k _ => ?_
  have alike : (l.filter fun a => rank a == k).Pairwise fun a b => decide (rank a ≤ rank b) := by
    refine List.pairwise_of_forall_mem_list fun a first b second => ?_
    have one : rank a = k := by simpa using (List.mem_filter.mp first).2
    have other : rank b = k := by simpa using (List.mem_filter.mp second).2
    simp [one, other]
  have kept := (List.sublist_mergeSort trans total alike List.filter_sublist).filter fun a => rank a == k
  rw [List.filter_filter] at kept
  simp only [Bool.and_self] at kept
  exact (kept.eq_of_length ((List.mergeSort_perm l _).symm.filter _).length_eq).symm

end Rank
end StableSort
