import Mathlib.Data.List.Basic

/-!
# Binary search for a partition point

`bisect` finds the first index at which a predicate stops holding. It is run
over indices, so that it serves for slices and for views that decode on demand.
-/
namespace Bisect

/-- The halving loop on `[low, high)`; the fuel bounds the number of rounds. -/
def loop {ε : Type} (p : Nat → Except ε Bool) : Nat → Nat → Nat → Except ε Nat
  | 0, low, _ => .ok low
  | fuel + 1, low, high =>
      if low < high then
        let mid := low + (high - low) / 2
        match p mid with
        | .error e => .error e
        | .ok true => loop p fuel (mid + 1) high
        | .ok false => loop p fuel low mid
      else .ok low

/-- The first index below `n` at which the predicate fails, or `n`. -/
def bisect {ε : Type} (p : Nat → Except ε Bool) (n : Nat) : Except ε Nat := loop p n 0 n

/-- The index splits `[0, n)`. -/
def Splits (q : Nat → Bool) (n r : Nat) : Prop :=
  r ≤ n ∧ (∀ i < r, q i = true) ∧ ∀ i, r ≤ i → i < n → q i = false

theorem loop_splits {ε : Type} {p : Nat → Except ε Bool} {q : Nat → Bool} {n : Nat}
    (agree : ∀ i < n, p i = .ok (q i)) (anti : ∀ i j, i ≤ j → j < n → q j = true → q i = true)
    {fuel low high : Nat} (enough : high - low ≤ fuel) (ordered : low ≤ high) (inside : high ≤ n)
    (before : ∀ i < low, q i = true) (after : ∀ i, high ≤ i → i < n → q i = false) :
    ∃ r, loop p fuel low high = .ok r ∧ Splits q n r := by
  induction fuel generalizing low high with
  | zero =>
      have closed : low = high := by omega
      exact ⟨low, rfl, by omega, before, closed ▸ after⟩
  | succ fuel ih =>
      unfold loop
      by_cases opened : low < high
      · rw [if_pos opened]
        have half : (high - low) / 2 < high - low := Nat.div_lt_self (by omega) (by decide)
        dsimp only
        rw [agree _ (show low + (high - low) / 2 < n by omega)]
        cases value : q (low + (high - low) / 2) with
        | true =>
            refine ih (by omega) (by omega) inside ?_ after
            intro i low'
            exact anti i _ (by omega) (by omega) value
        | false =>
            refine ih (by omega) (by omega) (by omega) before ?_
            intro i late small
            cases held : q i with
            | true => exact absurd (anti _ i late small held) (by simp [value])
            | false => rfl
      · rw [if_neg opened]
        have closed : low = high := by omega
        exact ⟨low, rfl, by omega, before, closed ▸ after⟩

theorem bisect_splits {ε : Type} {p : Nat → Except ε Bool} {q : Nat → Bool} {n : Nat}
    (agree : ∀ i < n, p i = .ok (q i)) (anti : ∀ i j, i ≤ j → j < n → q j = true → q i = true) :
    ∃ r, bisect p n = .ok r ∧ Splits q n r :=
  loop_splits agree anti (Nat.le_refl _) (Nat.zero_le _) (Nat.le_refl _) (by omega) (by omega)

theorem Splits.unique {q : Nat → Bool} {n r r' : Nat} (one : Splits q n r) (two : Splits q n r') : r = r' := by
  obtain ⟨inside, before, after⟩ := one
  obtain ⟨inside', before', after'⟩ := two
  rcases Nat.lt_trichotomy r r' with less | equal | greater
  · have held := before' r less
    rw [after r (Nat.le_refl r) (by omega)] at held
    cases held
  · exact equal
  · have held := before r' greater
    rw [after' r' (Nat.le_refl r') (by omega)] at held
    cases held

variable {α : Type}

/-- `partition_point` of a slice. -/
def partitionPoint (p : α → Bool) (xs : List α) : Nat :=
  match bisect (ε := Empty) (fun i => .ok ((xs[i]?.map p).getD false)) xs.length with
  | .ok r => r

/-- A list is partitioned when the predicate never comes back. -/
def Partitioned (p : α → Bool) (xs : List α) : Prop :=
  xs.Pairwise fun a b => p b = true → p a = true

theorem Partitioned.anti {p : α → Bool} {xs : List α} (parted : Partitioned p xs) :
    ∀ i j, i ≤ j → j < xs.length → (xs[j]?.map p).getD false = true →
      (xs[i]?.map p).getD false = true := by
  intro i j ordered inside held
  rcases Nat.lt_or_eq_of_le ordered with less | rfl
  · rw [List.getElem?_eq_getElem (by omega), Option.map_some, Option.getD_some] at held ⊢
    exact List.pairwise_iff_getElem.mp parted i j (by omega) inside less held
  · exact held

/-- What a splitting index means for the list. -/
theorem Splits.spec {p : α → Bool} {xs : List α} {r : Nat}
    (splits : Splits (fun i => (xs[i]?.map p).getD false) xs.length r) :
    r ≤ xs.length ∧ (∀ x ∈ xs.take r, p x = true) ∧ ∀ x ∈ xs.drop r, p x = false := by
  obtain ⟨inside, before, after⟩ := splits
  refine ⟨inside, ?_, ?_⟩
  · intro x member
    obtain ⟨i, small, rfl⟩ := List.mem_take_iff_getElem.mp member
    have held : (xs[i]?.map p).getD false = true := before i (by omega)
    rwa [List.getElem?_eq_getElem (by omega)] at held
  · intro x member
    obtain ⟨i, small, rfl⟩ := List.mem_drop_iff_getElem.mp member
    have failed : (xs[r + i]?.map p).getD false = false := after (r + i) (by omega) (by omega)
    rwa [List.getElem?_eq_getElem (by omega)] at failed

theorem partitionPoint_splits {p : α → Bool} {xs : List α} (parted : Partitioned p xs) :
    Splits (fun i => (xs[i]?.map p).getD false) xs.length (partitionPoint p xs) := by
  obtain ⟨r, found, splits⟩ := bisect_splits (ε := Empty)
    (p := fun i => .ok ((xs[i]?.map p).getD false)) (fun _ _ => rfl) parted.anti
  have point : partitionPoint p xs = r := by
    unfold partitionPoint
    rw [found]
  rwa [point]

theorem partitionPoint_spec {p : α → Bool} {xs : List α} (parted : Partitioned p xs) :
    partitionPoint p xs ≤ xs.length ∧ (∀ x ∈ xs.take (partitionPoint p xs), p x = true) ∧
      ∀ x ∈ xs.drop (partitionPoint p xs), p x = false :=
  (partitionPoint_splits parted).spec

/-- A bisection that sees the list through another reader finds its partition point. -/
theorem bisect_eq {ε : Type} {p : α → Bool} {xs : List α} (parted : Partitioned p xs)
    {read : Nat → Except ε Bool} (agree : ∀ i < xs.length, read i = .ok ((xs[i]?.map p).getD false)) :
    bisect read xs.length = .ok (partitionPoint p xs) := by
  obtain ⟨r, found, splits⟩ := bisect_splits agree parted.anti
  rw [found, splits.unique (partitionPoint_splits parted)]

end Bisect
