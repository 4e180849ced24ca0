import Mathlib.Order.BooleanAlgebra.Set
import Mathlib.Tactic.Tauto

/-!
# Pending changes to a set

A set with elements that wait to be added and elements that wait to be removed. Taking
away an element that waits to be added only cancels the addition, which shows it again
where the set had it from the start.
-/
namespace WasmDbms

/-- Elements to add to a set and elements to remove from it. -/
@[ext]
structure Delta (α : Type*) where
  added : Set α
  removed : Set α

namespace Delta

variable {α : Type*} {base : Set α} {d : Delta α} {x y : α}

/-- The set with the changes. -/
def shown (base : Set α) (d : Delta α) : Set α := base \ d.removed ∪ d.added

def put (x : α) (d : Delta α) : Delta α := ⟨insert x d.added, d.removed \ {x}⟩

def take (x : α) (d : Delta α) : Delta α := ⟨d.added \ {x}, d.removed ∪ {z | z = x ∧ x ∉ d.added}⟩

/-- An element of the set waits to be added to it. -/
def Doubled (base : Set α) (d : Delta α) (x : α) : Prop := x ∈ base ∧ x ∉ d.removed ∧ x ∈ d.added

theorem mem_shown : x ∈ d.shown base ↔ (x ∈ base ∧ x ∉ d.removed) ∨ x ∈ d.added := Iff.rfl

theorem shown_put : (d.put x).shown base = insert x (d.shown base) := by
  ext z
  rw [Set.mem_insert_iff, mem_shown, mem_shown]
  simp only [put, Set.mem_insert_iff, Set.mem_sdiff, Set.mem_singleton_iff]
  tauto

/-- An element taken away is shown again where it was doubled. -/
theorem mem_shown_take_self : x ∈ (d.take x).shown base ↔ d.Doubled base x := by
  rw [mem_shown, Doubled]
  simp only [take, Set.mem_union, Set.mem_sdiff, Set.mem_singleton_iff, Set.mem_ofPred_eq]
  tauto

theorem mem_shown_take_of_ne (other : y ≠ x) : y ∈ (d.take x).shown base ↔ y ∈ d.shown base := by
  rw [mem_shown, mem_shown]
  simp only [take, Set.mem_union, Set.mem_sdiff, Set.mem_singleton_iff, Set.mem_ofPred_eq]
  tauto

theorem shown_take (single : ¬ d.Doubled base x) : (d.take x).shown base = d.shown base \ {x} := by
  ext y
  rw [Set.mem_sdiff, Set.mem_singleton_iff]
  by_cases same : y = x
  · subst same
    rw [mem_shown_take_self]
    exact ⟨fun doubled => absurd doubled single, fun ⟨_, other⟩ => absurd rfl other⟩
  · rw [mem_shown_take_of_ne same]
    exact ⟨fun shown => ⟨shown, same⟩, fun ⟨shown, _⟩ => shown⟩

theorem shown_take_iff : (d.take x).shown base = d.shown base \ {x} ↔ ¬ d.Doubled base x := by
  refine ⟨fun same doubled => ?_, shown_take⟩
  have back := mem_shown_take_self.mpr doubled
  rw [same] at back
  exact back.2 rfl

/-- An element is replaced by another one, or by itself. -/
theorem shown_replace_iff :
    ((d.take x).put y).shown base = insert y (d.shown base \ {x}) ↔ x = y ∨ ¬ d.Doubled base x := by
  rw [shown_put]
  by_cases same : x = y
  · subst same
    refine ⟨fun _ => .inl rfl, fun _ => Set.ext fun z => ?_⟩
    rw [Set.mem_insert_iff, Set.mem_insert_iff, Set.mem_sdiff, Set.mem_singleton_iff]
    by_cases here : z = x
    · exact ⟨fun _ => .inl here, fun _ => .inl here⟩
    · rw [mem_shown_take_of_ne here]
      tauto
  · rw [← shown_take_iff, or_iff_right same]
    refine ⟨fun replaced => ?_, fun taken => by rw [taken]⟩
    rw [shown_take_iff]
    intro doubled
    have back : x ∈ insert y ((d.take x).shown base) := .inr (mem_shown_take_self.mpr doubled)
    rw [replaced] at back
    rcases back with here | there
    · exact same here
    · exact there.2 rfl

/-- The element that comes is the one that is expected, where it was not there before. -/
theorem shown_replaced_iff {z : α} (fresh : y ∈ d.shown base → y = x) :
    ((d.take x).put y).shown base = insert z (d.shown base \ {x}) ↔ z = y ∧ (x = y ∨ ¬ d.Doubled base x) := by
  constructor
  · intro same
    have here : y ∈ insert z (d.shown base \ {x}) := same ▸ shown_put ▸ Set.mem_insert _ _
    rcases here with rfl | ⟨there, other⟩
    · exact ⟨rfl, shown_replace_iff.mp same⟩
    · exact absurd (fresh there) other
  · rintro ⟨rfl, single⟩
    exact shown_replace_iff.mpr single

end Delta

theorem eq_insert_sdiff_iff {α : Type*} {s : Set α} {x z : α} (member : x ∈ s) : s = insert z (s \ {x}) ↔ z = x := by
  constructor
  · intro same
    rcases same ▸ member with here | ⟨_, other⟩
    · exact here.symm
    · exact absurd rfl other
  · rintro rfl
    exact (Set.insert_sdiff_self_of_mem member).symm

end WasmDbms
