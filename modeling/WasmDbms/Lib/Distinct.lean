import Mathlib.Data.List.Nodup
import Mathlib.Data.List.Perm.Basic

/-!
# The first element of each key

The loop that keeps an element when its key has not been seen before.
-/
namespace Distinct

variable {α β : Type} [DecidableEq β] {key : α → β} {seen : List β} {l : List α}

def firstOfEach (key : α → β) : List β → List α → List α
  | _, [] => []
  | seen, x :: rest =>
      if key x ∈ seen then firstOfEach key seen rest else x :: firstOfEach key (key x :: seen) rest

theorem firstOfEach_sublist : (firstOfEach key seen l).Sublist l := by
  induction l generalizing seen with
  | nil => exact .slnil
  | cons x rest ih =>
      rw [firstOfEach]
      split
      · exact ih.cons x
      · exact ih.cons_cons x

/-- The keys that are kept are those that have not been seen. -/
theorem mem_keys {b : β} : b ∈ (firstOfEach key seen l).map key ↔ b ∈ l.map key ∧ b ∉ seen := by
  induction l generalizing seen with
  | nil => simp [firstOfEach]
  | cons x rest ih =>
      rw [firstOfEach, List.map_cons, List.mem_cons]
      split
      next known =>
        rw [ih]
        constructor
        · exact fun later => ⟨.inr later.1, later.2⟩
        · rintro ⟨rfl | later, new⟩
          · exact absurd known new
          · exact ⟨later, new⟩
      next new =>
        rw [List.map_cons, List.mem_cons, ih, List.mem_cons, not_or]
        constructor
        · rintro (rfl | ⟨later, _, unseen⟩)
          · exact ⟨.inl rfl, new⟩
          · exact ⟨.inr later, unseen⟩
        · rintro ⟨rfl | later, unseen⟩
          · exact .inl rfl
          · by_cases same : b = key x
            · exact .inl same
            · exact .inr ⟨later, same, unseen⟩

theorem keys_nodup : ((firstOfEach key seen l).map key).Nodup := by
  induction l generalizing seen with
  | nil => exact List.nodup_nil
  | cons x rest ih =>
      rw [firstOfEach]
      split
      · exact ih
      · rw [List.map_cons]
        refine List.nodup_cons.mpr ⟨fun again => ?_, ih⟩
        exact (mem_keys.mp again).2 List.mem_cons_self

theorem firstOfEach_eq (distinct : (l.map key).Nodup) (new : ∀ x ∈ l, key x ∉ seen) : firstOfEach key seen l = l := by
  induction l generalizing seen with
  | nil => rfl
  | cons x rest ih =>
      rw [List.map_cons, List.nodup_cons] at distinct
      rw [List.forall_mem_cons] at new
      rw [firstOfEach, if_neg new.1, ih distinct.2]
      intro y member again
      rcases List.mem_cons.mp again with same | known
      · exact distinct.1 (same ▸ List.mem_map_of_mem member)
      · exact new.2 y member known

/-- Nothing is left out when the keys are distinct, and only then. -/
theorem firstOfEach_perm_iff {l' : List α} (same : l.Perm l') :
    (firstOfEach key [] l).Perm l' ↔ (l'.map key).Nodup := by
  constructor
  · exact fun perm => (perm.map key).nodup_iff.mp keys_nodup
  · intro distinct
    rw [firstOfEach_eq ((same.map key).nodup_iff.mpr distinct) fun _ _ => List.not_mem_nil]
    exact same

end Distinct
