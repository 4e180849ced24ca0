import Mathlib.Data.List.Pairwise
import Mathlib.Data.List.Perm.Basic

/-!
# Extents of paged storage

An extent is a run of bytes inside a page. Lists of pairwise disjoint extents
stay so when one is dropped, cut in two, or joined with a neighbour.
-/
namespace Extents

structure Extent where
  page : Nat
  start : Nat
  size : Nat
  deriving DecidableEq, Repr

/-- The two extents share no byte. -/
def Apart (s t : Extent) : Prop :=
  s.page ≠ t.page ∨ s.start + s.size ≤ t.start ∨ t.start + t.size ≤ s.start

theorem Apart.symm {s t : Extent} (h : Apart s t) : Apart t s := by
  rcases h with pages | before | after
  · exact .inl (Ne.symm pages)
  · exact .inr (.inr before)
  · exact .inr (.inl after)

/-- Both parts of an extent are apart from what the whole is apart from. -/
theorem Apart.of_within {s t u : Extent} (h : Apart s u) (page : t.page = s.page)
    (low : s.start ≤ t.start) (high : t.start + t.size ≤ s.start + s.size) : Apart t u := by
  unfold Apart at *
  omega

/-- The join of two neighbours is apart from what both are apart from. -/
theorem Apart.join {s t u j : Extent} (hs : Apart s u) (ht : Apart t u) (filled : 0 < u.size)
    (page : t.page = s.page) (next : t.start = s.start + s.size)
    (joined : j = ⟨s.page, s.start, s.size + t.size⟩) : Apart j u := by
  subst joined
  unfold Apart at *
  dsimp only
  omega

theorem pairwise_perm {xs ys : List Extent} (perm : xs.Perm ys) (h : xs.Pairwise Apart) :
    ys.Pairwise Apart :=
  (perm.pairwise_iff Apart.symm).mp h

/-- Cutting an extent in two. -/
theorem pairwise_cut {s : Extent} {xs : List Extent} {n : Nat} (h : (s :: xs).Pairwise Apart)
    (inside : n ≤ s.size) :
    (⟨s.page, s.start, n⟩ :: ⟨s.page, s.start + n, s.size - n⟩ :: xs : List Extent).Pairwise Apart := by
  rw [List.pairwise_cons] at h
  obtain ⟨others, rest⟩ := h
  refine .cons ?_ (.cons ?_ rest)
  · intro t member
    rcases List.mem_cons.mp member with rfl | member
    · exact .inr (.inl (Nat.le_refl _))
    · exact (others t member).of_within rfl (Nat.le_refl _) (Nat.add_le_add_left inside _)
  · intro t member
    refine (others t member).of_within rfl (Nat.le_add_right _ _) ?_
    change s.start + n + (s.size - n) ≤ s.start + s.size
    omega

/-- Joining two neighbours. -/
theorem pairwise_join {s t : Extent} {xs : List Extent} (h : (s :: t :: xs).Pairwise Apart)
    (filled : ∀ u ∈ xs, 0 < u.size) (page : t.page = s.page) (next : t.start = s.start + s.size) :
    (⟨s.page, s.start, s.size + t.size⟩ :: xs : List Extent).Pairwise Apart := by
  rw [List.pairwise_cons, List.pairwise_cons] at h
  obtain ⟨first, second, rest⟩ := h
  refine .cons ?_ rest
  intro u member
  exact (first u (List.mem_cons_of_mem _ member)).join (second u member) (filled u member) page next rfl

end Extents
