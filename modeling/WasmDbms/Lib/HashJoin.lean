import Mathlib.Data.List.Basic
import Mathlib.Data.List.Induction

/-!
# Hash joins and nested loops

A hash table groups the elements of a list by their keys. A nested loop pairs each
element on the left with the elements on the right that it joins.
-/
namespace HashJoin

variable {α β γ κ : Type}

section Table
variable [DecidableEq κ]

/-- `entry(k).or_default().push(b)`. -/
def push (k : κ) (b : β) : List (κ × List β) → List (κ × List β)
  | [] => [(k, [b])]
  | (k', bs) :: rest => if k' = k then (k', bs ++ [b]) :: rest else (k', bs) :: push k b rest

def lookup (k : κ) (table : List (κ × List β)) : Option (List β) :=
  (table.find? fun entry => entry.1 = k).map Prod.snd

/-- The elements that have a key, grouped by it. -/
def build (key : β → Option κ) (bs : List β) : List (κ × List β) :=
  bs.foldl (fun table b => match key b with
    | some k => push k b table
    | none => table) []

theorem lookup_push {k k' : κ} {b : β} {table : List (κ × List β)} :
    lookup k' (push k b table) = if k = k' then some ((lookup k' table).getD [] ++ [b]) else lookup k' table := by
  induction table with
  | nil =>
      rw [push]
      by_cases same : k = k' <;> simp [lookup, same]
  | cons entry rest ih =>
      obtain ⟨k₀, bs⟩ := entry
      rw [push]
      by_cases here : k₀ = k
      · subst here
        rw [if_pos rfl]
        by_cases same : k₀ = k' <;> simp [lookup, same]
      · rw [if_neg here]
        by_cases first : k₀ = k'
        · subst first
          simp [lookup, Ne.symm here]
        · have skip : ∀ table : List (κ × List β), lookup k' ((k₀, bs) :: table) = lookup k' table := fun table => by
            simp [lookup, first]
          rw [skip, skip, ih]

/-- A key leads to all elements that have it, in their order. -/
theorem lookup_build (key : β → Option κ) (bs : List β) (k : κ) :
    lookup k (build key bs) =
      if (bs.filter fun b => key b = some k).isEmpty then none else some (bs.filter fun b => key b = some k) := by
  induction bs using List.reverseRecOn with
  | nil => rfl
  | append_singleton bs b ih =>
      have last : build key (bs ++ [b]) = match key b with
          | some k => push k b (build key bs)
          | none => build key bs := List.foldl_concat _ _ _ _
      rw [last, List.filter_append]
      cases found : key b with
      | none =>
          have none_ : ([b].filter fun b => decide (key b = some k)) = [] := by simp [found]
          rw [none_, List.append_nil]
          exact ih
      | some k' =>
          dsimp only
          rw [lookup_push]
          by_cases same : k' = k
          · subst same
            have one : ([b].filter fun b => decide (key b = some k')) = [b] := by simp [found]
            rw [if_pos rfl, one, if_neg (by simp), ih]
            cases kept : bs.filter fun b => decide (key b = some k') with
            | nil => simp
            | cons x xs => simp
          · have none_ : ([b].filter fun b => decide (key b = some k)) = [] := by simp [found, same]
            rw [if_neg same, none_, List.append_nil]
            exact ih

end Table

/-! ## Nested loops -/

/-- The rows made of an element on the left. -/
def matched (joins : α → β → Bool) (pair : α → Option β → γ) (keepLeft : Bool) (right : List β) (a : α) : List γ :=
  match right.filter (joins a) with
  | [] => if keepLeft then [pair a none] else []
  | found => found.map fun b => pair a (some b)

/-- Elements without a partner are kept alone on the sides that ask for it. -/
def nestedLoop (joins : α → β → Bool) (pair : α → Option β → γ) (alone : β → γ) (keepLeft keepRight : Bool)
    (left : List α) (right : List β) : List γ :=
  left.flatMap (matched joins pair keepLeft right) ++
    if keepRight then (right.filter fun b => !left.any fun a => joins a b).map alone else []

variable {joins : α → β → Bool} {pair : α → Option β → γ} {alone : β → γ} {keepLeft : Bool} {left : List α}
  {right : List β}

/-- Elements on the right that nothing joins can be left out. -/
theorem nestedLoop_filter {kept : β → Bool} (only : ∀ a ∈ left, ∀ b ∈ right, joins a b = true → kept b = true) :
    nestedLoop joins pair alone keepLeft false left (right.filter kept) =
      nestedLoop joins pair alone keepLeft false left right := by
  refine congrArg (· ++ []) (List.flatMap_congr fun a member => ?_)
  have same : (right.filter kept).filter (joins a) = right.filter (joins a) := by
    rw [List.filter_filter]
    refine List.filter_congr fun b listed => ?_
    cases joined : joins a b with
    | false => rfl
    | true => rw [only a member b listed joined]; rfl
  rw [matched, matched, same]

/-- What the rows of a nested loop are made of. -/
theorem mem_nestedLoop {keepRight : Bool} {c : γ}
    (member : c ∈ nestedLoop joins pair alone keepLeft keepRight left right) :
    (∃ a ∈ left, ∃ b ∈ right, c = pair a (some b)) ∨ (∃ a ∈ left, c = pair a none) ∨ ∃ b ∈ right, c = alone b := by
  rcases List.mem_append.mp member with paired | lone
  · obtain ⟨a, listed, paired⟩ := List.mem_flatMap.mp paired
    unfold matched at paired
    split at paired
    next =>
      split at paired
      · exact .inr (.inl ⟨a, listed, List.mem_singleton.mp paired⟩)
      · cases paired
    next =>
      obtain ⟨b, found, rfl⟩ := List.mem_map.mp paired
      exact .inl ⟨a, listed, b, (List.mem_filter.mp found).1, rfl⟩
  · split at lone
    · obtain ⟨b, found, rfl⟩ := List.mem_map.mp lone
      exact .inr (.inr ⟨b, (List.mem_filter.mp found).1, rfl⟩)
    · cases lone

/-- A nested loop over the images. -/
theorem nestedLoop_map {α' β' γ' : Type} {joins' : α' → β' → Bool} {pair' : α' → Option β' → γ'} {alone' : β' → γ'}
    {keepRight : Bool} {f : α → α'} {g : β → β'} {h : γ → γ'}
    (agree : ∀ a ∈ left, ∀ b ∈ right, joins' (f a) (g b) = joins a b)
    (paired : ∀ a ∈ left, ∀ b ∈ right, h (pair a (some b)) = pair' (f a) (some (g b)))
    (padded : ∀ a ∈ left, h (pair a none) = pair' (f a) none) (lone : ∀ b ∈ right, h (alone b) = alone' (g b)) :
    (nestedLoop joins pair alone keepLeft keepRight left right).map h =
      nestedLoop joins' pair' alone' keepLeft keepRight (left.map f) (right.map g) := by
  have each : ∀ a ∈ left, (matched joins pair keepLeft right a).map h =
      matched joins' pair' keepLeft (right.map g) (f a) := by
    intro a member
    have same : (right.map g).filter (joins' (f a)) = (right.filter (joins a)).map g := by
      rw [List.filter_map]
      exact congrArg (List.map g) (List.filter_congr fun b listed => agree a member b listed)
    unfold matched
    rw [same]
    cases found : right.filter (joins a) with
    | nil =>
        cases keepLeft
        · rfl
        · exact congrArg (fun c => [c]) (padded a member)
    | cons b bs =>
        have inRight : ∀ x ∈ b :: bs, x ∈ right := fun x listed => (List.mem_filter.mp (found ▸ listed)).1
        change ((b :: bs).map _).map h = ((b :: bs).map g).map _
        rw [List.map_map, List.map_map]
        exact List.map_congr_left fun x listed => paired a member x (inRight x listed)
  have rest : ((right.filter fun b => !left.any fun a => joins a b).map alone).map h =
      ((right.map g).filter fun b => !(left.map f).any fun a => joins' a b).map alone' := by
    rw [List.filter_map, List.map_map, List.map_map]
    have same : right.filter ((fun b => !(left.map f).any fun a => joins' a b) ∘ g) =
        right.filter fun b => !left.any fun a => joins a b := by
      refine List.filter_congr fun b listed => ?_
      have any : ((left.map f).any fun a => joins' a (g b)) = left.any fun a => joins a b := by
        rw [List.any_map, Bool.eq_iff_iff, List.any_eq_true, List.any_eq_true]
        refine exists_congr fun a => and_congr_right fun member => ?_
        rw [Function.comp_apply, agree a member b listed]
      exact congrArg (!·) any
    rw [same]
    exact List.map_congr_left fun b listed => lone b (List.mem_filter.mp listed).1
  unfold nestedLoop
  rw [List.map_append, List.map_flatMap, List.flatMap_map, List.flatMap_congr each]
  cases keepRight
  · rfl
  · exact congrArg (_ ++ ·) rest

end HashJoin
