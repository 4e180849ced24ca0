import Mathlib.Data.Nat.Dist
import WasmDbms.Index.Tree

/-!
# The balanced cut

`byte_balanced_split_index` looks at every cut of the entries once and keeps the first
of the most balanced ones whose halves fit. The sizes are those of entries in memory,
so their sum is a `usize`.
-/
namespace WasmDbms

/-- A cut with both halves within the capacity; the entry at the cut of an internal node
belongs to neither. -/
structure Halves (capacity : Nat) (promoteMedian : Bool) (sizes : List Nat) (index : Nat) : Prop where
  pos : 0 < index
  inside : index < sizes.length
  left : (sizes.take index).sum ≤ capacity
  right : (sizes.drop (if promoteMedian then index + 1 else index)).sum ≤ capacity
  filled : promoteMedian = true → index + 1 < sizes.length

/-- The difference of the bytes of the halves. -/
def imbalance (promoteMedian : Bool) (sizes : List Nat) (index : Nat) : Nat :=
  Nat.dist (sizes.take index).sum (sizes.drop (if promoteMedian then index + 1 else index)).sum

/-- `byte_balanced_split_index` for pages of any size. -/
def byteBalancedSplitIndexOf (entrySizes : List Nat) (headerSize page : Nat) (promoteMedian : Bool) : Option Nat :=
  if page < headerSize then none
  else
    (balancedSplitLoop (page - headerSize) entrySizes.sum entrySizes.length promoteMedian 0 0 none
      entrySizes).map Prod.fst

theorem byteBalancedSplitIndex_eq {sizes : List Nat} {headerSize : Nat} {promoteMedian : Bool} :
    byteBalancedSplitIndex sizes headerSize promoteMedian =
      byteBalancedSplitIndexOf sizes headerSize pageSize promoteMedian := rfl

/-- What the loop has kept after some of the cuts. -/
inductive Best (capacity : Nat) (promoteMedian : Bool) (sizes : List Nat) (count : Nat) : Option (Nat × Nat) → Prop where
  | nowhere (without : ∀ j < count, ¬ Halves capacity promoteMedian sizes j) :
      Best capacity promoteMedian sizes count none
  | here {index : Nat} (halves : Halves capacity promoteMedian sizes index)
      (least : ∀ j < count, Halves capacity promoteMedian sizes j →
        imbalance promoteMedian sizes index ≤ imbalance promoteMedian sizes j) :
      Best capacity promoteMedian sizes count (some (index, imbalance promoteMedian sizes index))

section Loop

variable {capacity : Nat} {promoteMedian : Bool} {done rest : List Nat} {size : Nat} {best : Option (Nat × Nat)}

/-- The bytes right of the next cut, as the loop has them. -/
theorem right_at :
    ((done ++ size :: rest).drop (if promoteMedian then done.length + 1 else done.length)).sum =
      if promoteMedian then (done ++ size :: rest).sum - done.sum - size else (done ++ size :: rest).sum - done.sum := by
  have drop : (done ++ size :: rest).drop done.length = size :: rest := List.drop_left
  have total : (done ++ size :: rest).sum = done.sum + (size + rest.sum) := by
    rw [List.sum_append, List.sum_cons]
  cases promoteMedian with
  | true =>
      rw [if_pos rfl, if_pos rfl, ← List.drop_drop, drop, total, List.drop_one, List.tail_cons]
      omega
  | false =>
      rw [if_neg Bool.false_ne_true, if_neg Bool.false_ne_true, drop, total, List.sum_cons]
      omega

theorem imbalance_at :
    imbalance promoteMedian (done ++ size :: rest) done.length =
      Nat.dist done.sum (if promoteMedian then (done ++ size :: rest).sum - done.sum - size
        else (done ++ size :: rest).sum - done.sum) := by
  rw [imbalance, right_at, List.take_left]

/-- The tests of the loop at the next cut. -/
theorem halves_at :
    Halves capacity promoteMedian (done ++ size :: rest) done.length ↔
      0 < done.length ∧ (!promoteMedian || decide (done.length + 1 < (done ++ size :: rest).length)) = true ∧
        done.sum ≤ capacity ∧
        (if promoteMedian then (done ++ size :: rest).sum - done.sum - size
          else (done ++ size :: rest).sum - done.sum) ≤ capacity := by
  rw [← right_at]
  have filled : (!promoteMedian || decide (done.length + 1 < (done ++ size :: rest).length)) = true ↔
      (promoteMedian = true → done.length + 1 < (done ++ size :: rest).length) := by
    cases promoteMedian <;> simp
  have take : (done ++ size :: rest).take done.length = done := List.take_left
  rw [filled]
  constructor
  · intro halves
    exact ⟨halves.pos, halves.filled, take ▸ halves.left, halves.right⟩
  · rintro ⟨pos, filled, left, right⟩
    refine ⟨pos, ?_, take.symm ▸ left, right, filled⟩
    rw [List.length_append, List.length_cons]
    omega

/-- A cut that does not fit, or is not better, changes nothing. -/
theorem Best.keep {sizes : List Nat} {count : Nat} (known : Best capacity promoteMedian sizes count best)
    (worse : Halves capacity promoteMedian sizes count →
      ∃ b, best = some b ∧ b.2 ≤ imbalance promoteMedian sizes count) :
    Best capacity promoteMedian sizes (count + 1) best := by
  cases known with
  | nowhere without =>
      refine .nowhere fun j before halves => ?_
      rcases Nat.lt_succ_iff_lt_or_eq.mp before with early | rfl
      · exact without j early halves
      · obtain ⟨_, no, _⟩ := worse halves
        cases no
  | here halves least =>
      refine .here halves fun j before other => ?_
      rcases Nat.lt_succ_iff_lt_or_eq.mp before with early | rfl
      · exact least j early other
      · obtain ⟨_, same, le⟩ := worse other
        cases same
        exact le

/-- A better cut takes the place of the best one. -/
theorem Best.improve {sizes : List Nat} {count : Nat} (known : Best capacity promoteMedian sizes count best)
    (halves : Halves capacity promoteMedian sizes count)
    (better : ∀ b, best = some b → imbalance promoteMedian sizes count < b.2) :
    Best capacity promoteMedian sizes (count + 1) (some (count, imbalance promoteMedian sizes count)) := by
  refine .here halves fun j before other => ?_
  rcases Nat.lt_succ_iff_lt_or_eq.mp before with early | rfl
  · cases known with
    | nowhere without => exact absurd other (without j early)
    | here _ least => exact (better _ rfl).le.trans (least j early other)
  · exact le_rfl

theorem Best.choose {sizes : List Nat} {count : Nat} (known : Best capacity promoteMedian sizes count best)
    {taken : Prop} [Decidable taken] (when : taken ↔ Halves capacity promoteMedian sizes count ∧
      ∀ b, best = some b → imbalance promoteMedian sizes count < b.2) :
    Best capacity promoteMedian sizes (count + 1)
      (if taken then some (count, imbalance promoteMedian sizes count) else best) := by
  split
  next yes => exact known.improve (when.mp yes).1 (when.mp yes).2
  next no =>
    refine known.keep fun halves => ?_
    by_contra none_
    refine no (when.mpr ⟨halves, fun b same => ?_⟩)
    by_contra worse
    exact none_ ⟨b, same, Nat.le_of_not_lt worse⟩

/-- One round of the loop. -/
theorem Best.step (known : Best capacity promoteMedian (done ++ size :: rest) done.length best) :
    ∃ next, Best capacity promoteMedian (done ++ size :: rest) (done.length + 1) next ∧
      balancedSplitLoop capacity (done ++ size :: rest).sum (done ++ size :: rest).length promoteMedian
          done.length done.sum best (size :: rest) =
        balancedSplitLoop capacity (done ++ size :: rest).sum (done ++ size :: rest).length promoteMedian
          (done.length + 1) (done.sum + size) next rest := by
  have value := @imbalance_at promoteMedian done rest size
  rw [Nat.dist] at value
  simp only [balancedSplitLoop]
  rw [← value]
  refine ⟨_, known.choose ?_, rfl⟩
  rw [halves_at, and_assoc, and_assoc, and_assoc]
  refine and_congr_right fun _ => and_congr_right fun _ => and_congr_right fun _ => and_congr_right fun _ => ?_
  cases best with
  | none => exact ⟨fun _ _ no => (by cases no), fun _ => rfl⟩
  | some b =>
      rw [decide_eq_true_iff]
      exact ⟨fun better c same => (Option.some.inj same ▸ better), fun better => better b rfl⟩

/-- The whole loop, from any of the entries. -/
theorem balancedSplitLoop_best (known : Best capacity promoteMedian (done ++ rest) done.length best) :
    Best capacity promoteMedian (done ++ rest) (done ++ rest).length
      (balancedSplitLoop capacity (done ++ rest).sum (done ++ rest).length promoteMedian done.length done.sum best
        rest) := by
  induction rest generalizing done best with
  | nil =>
      rw [List.append_nil] at known ⊢
      exact known
  | cons size rest ih =>
      obtain ⟨next, kept, round⟩ := known.step
      have whole : done ++ size :: rest = (done ++ [size]) ++ rest := by rw [List.append_assoc, List.singleton_append]
      have count : done.length + 1 = (done ++ [size]).length := by rw [List.length_append, List.length_singleton]
      have left : done.sum + size = (done ++ [size]).sum := by rw [List.sum_append, List.sum_singleton]
      rw [round, count, left]
      rw [count] at kept
      rw [whole] at kept ⊢
      exact ih kept

end Loop

/-- A cut is found exactly where there is one, and none is more balanced. -/
theorem byteBalancedSplitIndexOf_best {sizes : List Nat} {headerSize page : Nat} {promoteMedian : Bool}
    (room : headerSize ≤ page) :
    ∃ best, byteBalancedSplitIndexOf sizes headerSize page promoteMedian = best.map Prod.fst ∧
      Best (page - headerSize) promoteMedian sizes sizes.length best := by
  refine ⟨_, if_neg (Nat.not_lt.mpr room), ?_⟩
  refine @balancedSplitLoop_best _ promoteMedian [] sizes none ?_
  exact .nowhere fun j before => absurd before (Nat.not_lt_zero j)

/-- `byte_balanced_split_index` finds a cut if and only if there is one that leaves two filled
halves within the page, and then a most balanced one of them. -/
theorem byteBalancedSplitIndexOf_balanced (sizes : List Nat) (headerSize page : Nat) (promoteMedian : Bool) :
    ((∃ index, byteBalancedSplitIndexOf sizes headerSize page promoteMedian = some index) ↔
      headerSize ≤ page ∧ ∃ index, Halves (page - headerSize) promoteMedian sizes index) ∧
    ∀ index, byteBalancedSplitIndexOf sizes headerSize page promoteMedian = some index →
      Halves (page - headerSize) promoteMedian sizes index ∧
      ∀ other, Halves (page - headerSize) promoteMedian sizes other →
        imbalance promoteMedian sizes index ≤ imbalance promoteMedian sizes other := by
  by_cases room : headerSize ≤ page
  · obtain ⟨best, run, found⟩ := @byteBalancedSplitIndexOf_best sizes headerSize page promoteMedian room
    rw [run]
    cases found with
    | nowhere without =>
        refine ⟨⟨fun ⟨_, no⟩ => (by cases no), ?_⟩, nofun⟩
        rintro ⟨_, index, halves⟩
        exact absurd halves (without index halves.inside)
    | here halves least =>
        refine ⟨⟨fun _ => ⟨room, _, halves⟩, fun _ => ⟨_, rfl⟩⟩, ?_⟩
        rintro index same
        cases same
        exact ⟨halves, fun other fits => least other fits.inside fits⟩
  · have none_ : byteBalancedSplitIndexOf sizes headerSize page promoteMedian = none := if_pos (Nat.not_le.mp room)
    rw [none_]
    exact ⟨⟨fun ⟨_, no⟩ => (by cases no), fun ⟨enough, _⟩ => absurd enough room⟩, nofun⟩

end WasmDbms
