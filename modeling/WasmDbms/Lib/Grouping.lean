import WasmDbms.Lib.HashJoin

/-!
# Groups in the order of their first element

A loop that files each element under its key in a hash table, and lists a key when it has
not been seen before.
-/
namespace Grouping
open HashJoin

variable {α κ : Type} [DecidableEq κ]

/-- The keys that were seen, and the elements of each. -/
abbrev State (κ α : Type) := List κ × List (κ × List α)

def visit (key : α → κ) (state : State κ α) (a : α) : State κ α :=
  (if (lookup (key a) state.2).isSome then state.1 else state.1 ++ [key a], push (key a) a state.2)

def group (key : α → κ) (l : List α) : List (κ × List α) :=
  let state := l.foldl (visit key) ([], [])
  state.1.map fun k => (k, (lookup k state.2).getD [])

variable [BEq κ] [LawfulBEq κ]

theorem foldl_visit (key : α → κ) (l : List α) :
    l.foldl (visit key) ([], []) = ((l.map key).eraseDups, build (fun a => some (key a)) l) := by
  induction l using List.reverseRecOn with
  | nil => rfl
  | append_singleton l a ih =>
      have pushed : build (fun a => some (key a)) (l ++ [a]) = push (key a) a (build (fun a => some (key a)) l) :=
        List.foldl_concat _ _ _ _
      rw [List.foldl_concat, ih, visit, pushed, List.map_append, List.map_singleton, List.eraseDups_append]
      refine Prod.ext ?_ rfl
      dsimp only
      rw [lookup_build]
      have seen : (l.filter fun b => decide (some (key b) = some (key a))).isEmpty = true ↔ key a ∉ l.map key := by
        simp only [Option.some.injEq, List.isEmpty_iff, List.filter_eq_nil_iff, decide_eq_true_iff, List.mem_map,
          not_exists, not_and]
      by_cases known : key a ∈ l.map key
      · have dropped : [key a].removeAll (l.map key) = [] := by simpa [List.removeAll] using known
        rw [if_neg (fun empty => seen.mp empty known), dropped]
        simp
      · have kept : [key a].removeAll (l.map key) = [key a] := by simpa [List.removeAll] using known
        rw [if_pos (seen.mpr known), kept]
        rfl

/-- The groups are the distinct keys, each with all its elements in their order. -/
theorem group_eq (key : α → κ) (l : List α) :
    group key l = (l.map key).eraseDups.map fun k => (k, l.filter fun a => key a = k) := by
  unfold group
  rw [foldl_visit]
  refine List.map_congr_left fun k _ => ?_
  dsimp only
  rw [lookup_build]
  have same : (l.filter fun a => decide (some (key a) = some k)) = l.filter fun a => decide (key a = k) := by
    simp only [Option.some.injEq]
  rw [same]
  cases l.filter fun a => decide (key a = k) <;> rfl

end Grouping
