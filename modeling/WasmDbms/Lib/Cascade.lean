import Mathlib.Data.Set.Card
import Mathlib.Data.Set.Finite.Lattice
import Mathlib.Logic.Relation
import WasmDbms.Lib.Result

/-!
# Cascading removal

Nodes are removed depth first. Following an edge of a node collects the nodes it
leads to among those still there, as a batch, and removes them one after the
other. A node of a batch that an earlier node of the batch has already taken away
stops the removal.
-/
namespace Cascade

variable {α ι : Type}

inductive Stop where
  /-- A collected node is not there any more. -/
  | gone
  | diverges
  deriving DecidableEq, Repr

section Removal
variable (edges : α → List ι) (collect : ι → Set α → List α)

/-- Follows the edges one after the other; the number is that of the nodes removed. -/
def followAll (follow : ι → Set α → Except Stop (Set α × ℕ)) : List ι → Set α → Except Stop (Set α × ℕ)
  | [], S => .ok (S, 0)
  | i :: is, S => do
      let (S, n) ← follow i S
      let (S, m) ← followAll follow is S
      return (S, n + m)

open Classical in
noncomputable def dropAll (follow : ι → Set α → Except Stop (Set α × ℕ)) :
    List α → Set α → Except Stop (Set α × ℕ)
  | [], S => .ok (S, 0)
  | x :: rest, S => do
      let (S, n) ← followAll follow (edges x) S
      if x ∈ S then
        let (S, m) ← dropAll follow rest (S \ {x})
        return (S, n + 1 + m)
      else throw .gone

/-- The removal of a batch, to a depth. -/
noncomputable def cascade : ℕ → List α → Set α → Except Stop (Set α × ℕ)
  | 0, _, _ => .error .diverges
  | fuel + 1, batch, S => dropAll edges (fun i S => cascade fuel (collect i S) S) batch S

end Removal

/-- Following an edge collects each node it leads to once. -/
structure Gathers (hits : ι → α → Prop) (collect : ι → Set α → List α) : Prop where
  nodup : ∀ i S, (collect i S).Nodup
  mem : ∀ i S y, y ∈ collect i S ↔ y ∈ S ∧ hits i y

section Reach
variable (edges : α → List ι) (hits : ι → α → Prop)

def Child (x y : α) : Prop := ∃ i ∈ edges x, hits i y

/-- The nodes that chains of edges within a set lead to. -/
def reached (S A : Set α) : Set α :=
  { y | ∃ x ∈ A, x ∈ S ∧ Relation.ReflTransGen (fun a b => Child edges hits a b ∧ b ∈ S) x y }

variable {edges hits} {S A B : Set α} {x y : α}

theorem reached_subset : reached edges hits S A ⊆ S := by
  rintro y ⟨x, _, start, path⟩
  cases path with
  | refl => exact start
  | tail _ last => exact last.2

theorem reached_empty : reached edges hits S ∅ = ∅ := by
  apply Set.eq_empty_of_forall_notMem
  rintro y ⟨x, member, _⟩
  exact member

theorem reached_union : reached edges hits S (A ∪ B) = reached edges hits S A ∪ reached edges hits S B := by
  ext y
  constructor
  · rintro ⟨x, inA | inB, path⟩
    · exact .inl ⟨x, inA, path⟩
    · exact .inr ⟨x, inB, path⟩
  · rintro (⟨x, member, path⟩ | ⟨x, member, path⟩)
    · exact ⟨x, .inl member, path⟩
    · exact ⟨x, .inr member, path⟩

theorem reached_mono (sub : A ∩ S ⊆ B) : reached edges hits S A ⊆ reached edges hits S B := by
  rintro y ⟨x, member, start, path⟩
  exact ⟨x, sub ⟨member, start⟩, start, path⟩

theorem subset_reached : A ∩ S ⊆ reached edges hits S A :=
  fun x member => ⟨x, member.1, member.2, .refl⟩

theorem reached_child (before : x ∈ reached edges hits S A) (child : Child edges hits x y)
    (there : y ∈ S) : y ∈ reached edges hits S A := by
  obtain ⟨z, member, start, path⟩ := before
  exact ⟨z, member, start, path.tail ⟨child, there⟩⟩

/-- What is reached is removed with everything it leads to, so that a later search
finds the rest. -/
theorem diff_reached_union : S \ reached edges hits S (A ∪ B) =
    (S \ reached edges hits S A) \ reached edges hits (S \ reached edges hits S A) B := by
  ext y
  rw [reached_union, Set.mem_sdiff, Set.mem_sdiff, Set.mem_sdiff, Set.mem_union, not_or, ← and_assoc]
  refine and_congr_right fun there => not_congr ⟨?_, ?_⟩
  · rintro ⟨x, member, start, path⟩
    -- no node of the chain is reached from `A`, for its end is not
    have avoids : ∀ {z}, Relation.ReflTransGen (fun a b => Child edges hits a b ∧ b ∈ S) x z →
        z ∉ reached edges hits S A →
        x ∈ S \ reached edges hits S A ∧ Relation.ReflTransGen
          (fun a b => Child edges hits a b ∧ b ∈ S \ reached edges hits S A) x z := by
      intro z chain
      induction chain with
      | refl => exact fun free => ⟨⟨start, free⟩, .refl⟩
      | tail _ last ih =>
          intro free
          obtain ⟨first, short⟩ := ih fun taken => free (reached_child taken last.1 last.2)
          exact ⟨first, short.tail ⟨last.1, last.2, free⟩⟩
    obtain ⟨first, within⟩ := avoids path there.2
    exact ⟨x, member, first, within⟩
  · rintro ⟨x, member, start, path⟩
    exact ⟨x, member, start.1, Relation.ReflTransGen.mono (fun _ _ step => ⟨step.1, step.2.1⟩) _ _ path⟩

theorem reached_self (there : x ∈ S) :
    reached edges hits S {x} = {x} ∪ reached edges hits S { y | Child edges hits x y } := by
  ext y
  constructor
  · rintro ⟨_, rfl, _, path⟩
    obtain rfl | ⟨z, first, rest⟩ := Relation.ReflTransGen.cases_head path
    · exact .inl rfl
    · exact .inr ⟨z, first.1, first.2, rest⟩
  · rintro (rfl | ⟨z, child, start, path⟩)
    · exact ⟨y, rfl, there, .refl⟩
    · exact ⟨x, rfl, there, .head ⟨child, start⟩ path⟩

end Reach

section Outcome
variable {edges : α → List ι} {hits : ι → α → Prop} {collect : ι → Set α → List α}
variable {S S' : Set α} {n : ℕ}

/-- What is left after a removal, and how many nodes are not. -/
structure Leaves (edges : α → List ι) (hits : ι → α → Prop) (S A S' : Set α) (n : ℕ) : Prop where
  rest : S' = S \ reached edges hits S A
  count : n + S'.ncard = S.ncard

theorem Leaves.none : Leaves edges hits S ∅ S 0 :=
  ⟨by rw [reached_empty, Set.sdiff_empty], Nat.zero_add _⟩

/-- One removal after the other. -/
theorem Leaves.append {A B S₁ S₂ : Set α} {m : ℕ} (first : Leaves edges hits S A S₁ n)
    (second : Leaves edges hits S₁ B S₂ m) : Leaves edges hits S (A ∪ B) S₂ (n + m) := by
  refine ⟨?_, ?_⟩
  · rw [second.rest, first.rest, ← diff_reached_union]
  · have := first.count
    have := second.count
    omega

theorem Leaves.congr {A B : Set α} (leaves : Leaves edges hits S A S' n)
    (same : reached edges hits S A = reached edges hits S B) : Leaves edges hits S B S' n :=
  ⟨by rw [leaves.rest, same], leaves.count⟩

/-- A node whose edges have been followed is removed. -/
theorem Leaves.drop {x : α} (finite : S.Finite) (there : x ∈ S')
    (below : Leaves edges hits S { y | Child edges hits x y } S' n) :
    Leaves edges hits S {x} ( S' \ {x}) (n + 1) := by
  have start : x ∈ S := by
    rw [below.rest] at there
    exact there.1
  refine ⟨?_, ?_⟩
  · rw [reached_self start, below.rest, Set.sdiff_sdiff, Set.union_comm]
  · have smaller : S' ⊆ S := by
      rw [below.rest]
      exact Set.sdiff_subset
    have counted := below.count
    have removed := Set.ncard_sdiff_singleton_add_one there (finite.subset smaller)
    omega

theorem Leaves.subset {A : Set α} (leaves : Leaves edges hits S A S' n) : S' ⊆ S := by
  rw [leaves.rest]
  exact Set.sdiff_subset

theorem Leaves.finite {A : Set α} (leaves : Leaves edges hits S A S' n) (finite : S.Finite) : S'.Finite := by
  rw [leaves.rest]
  exact finite.subset Set.sdiff_subset

/-- The nodes some of the edges lead to. -/
def targets (hits : ι → α → Prop) (is : List ι) : Set α := { y | ∃ i ∈ is, hits i y }

theorem followAll_ok {follow : ι → Set α → Except Stop (Set α × ℕ)}
    (each : ∀ i S S' n, S.Finite → follow i S = .ok (S', n) → Leaves edges hits S { y | hits i y } S' n)
    {is : List ι} (finite : S.Finite) (run : followAll follow is S = .ok (S', n)) :
    Leaves edges hits S (targets hits is) S' n := by
  induction is generalizing S n with
  | nil =>
      cases run
      have none_ : targets hits ([] : List ι) = ∅ := by
        simp [targets]
      rw [none_]
      exact .none
  | cons i is ih =>
      obtain ⟨⟨S₁, k⟩, first, run⟩ := Result.bind_eq_ok.mp run
      obtain ⟨⟨S₂, m⟩, second, run⟩ := Result.bind_eq_ok.mp run
      cases run
      have stepped := each i S S₁ k finite first
      have both := stepped.append (ih (stepped.finite finite) second)
      have split : { y | hits i y } ∪ targets hits is = targets hits (i :: is) := by
        ext y
        simp [targets]
      rwa [split] at both

theorem dropAll_ok {follow : ι → Set α → Except Stop (Set α × ℕ)}
    (each : ∀ i S S' n, S.Finite → follow i S = .ok (S', n) → Leaves edges hits S { y | hits i y } S' n)
    {batch : List α} (finite : S.Finite) (run : dropAll edges follow batch S = .ok (S', n)) :
    Leaves edges hits S { x | x ∈ batch } S' n := by
  induction batch generalizing S n with
  | nil =>
      cases run
      have none_ : { x | x ∈ ([] : List α) } = ∅ := by simp
      rw [none_]
      exact .none
  | cons x rest ih =>
      obtain ⟨⟨S₁, k⟩, followed, run⟩ := Result.bind_eq_ok.mp run
      dsimp only at run
      split at run
      next there =>
        obtain ⟨⟨S₂, m⟩, dropped, run⟩ := Result.bind_eq_ok.mp run
        cases run
        have below := followAll_ok each finite followed
        have stepped := Leaves.drop finite there below
        have both := stepped.append (ih (stepped.finite finite) dropped)
        have split : {x} ∪ { y | y ∈ rest } = { y | y ∈ x :: rest } := by
          ext y
          simp
        rwa [split] at both
      next => cases run

theorem reached_collect (gathers : Gathers hits collect) {i : ι} {S : Set α} :
    reached edges hits S { y | y ∈ collect i S } = reached edges hits S { y | hits i y } := by
  apply Set.Subset.antisymm
  · refine reached_mono ?_
    rintro y ⟨member, _⟩
    exact ((gathers.mem i S y).mp member).2
  · refine reached_mono ?_
    rintro y ⟨hit, there⟩
    exact (gathers.mem i S y).mpr ⟨there, hit⟩

/-- A removal that comes to its end has taken away exactly what the batch leads to. -/
theorem cascade_ok (gathers : Gathers hits collect) {fuel : ℕ} {batch : List α} (finite : S.Finite)
    (run : cascade edges collect fuel batch S = .ok (S', n)) :
    Leaves edges hits S { x | x ∈ batch } S' n := by
  induction fuel generalizing batch S S' n with
  | zero => cases run
  | succ fuel ih =>
      refine dropAll_ok ?_ finite run
      intro i S S' n finite followed
      exact (ih finite followed).congr (reached_collect gathers)

/-- Following an edge of a node. -/
theorem follow_ok (gathers : Gathers hits collect) (fuel : ℕ) (i : ι) (S S' : Set α) (n : ℕ)
    (finite : S.Finite) (run : cascade edges collect fuel (collect i S) S = .ok (S', n)) :
    Leaves edges hits S { y | hits i y } S' n :=
  (cascade_ok gathers finite run).congr (reached_collect gathers)

end Outcome

section Depth
variable {edges : α → List ι} {collect : ι → Set α → List α}
variable {follow deeper : ι → Set α → Except Stop (Set α × ℕ)}

/-- A removal that has come to its end does so to every greater depth. -/
def Extends (follow deeper : ι → Set α → Except Stop (Set α × ℕ)) : Prop :=
  ∀ i S, follow i S ≠ .error .diverges → deeper i S = follow i S

theorem followAll_extends (deep : Extends follow deeper) {is : List ι} {S : Set α}
    (done : followAll follow is S ≠ .error .diverges) :
    followAll deeper is S = followAll follow is S := by
  induction is generalizing S with
  | nil => rfl
  | cons i is ih =>
      unfold followAll at done ⊢
      have first : follow i S ≠ .error .diverges := by
        intro stop
        rw [stop] at done
        exact done rfl
      rw [deep i S first]
      cases result : follow i S with
      | error e => rfl
      | ok r =>
          obtain ⟨S₁, n⟩ := r
          rw [result] at done
          simp only [bind, Except.bind] at done ⊢
          rw [ih]
          intro stop
          rw [stop] at done
          exact done rfl

theorem dropAll_extends (deep : Extends follow deeper) {batch : List α} {S : Set α}
    (done : dropAll edges follow batch S ≠ .error .diverges) :
    dropAll edges deeper batch S = dropAll edges follow batch S := by
  induction batch generalizing S with
  | nil => rfl
  | cons x rest ih =>
      unfold dropAll at done ⊢
      have first : followAll follow (edges x) S ≠ .error .diverges := by
        intro stop
        rw [stop] at done
        exact done rfl
      rw [followAll_extends deep first]
      cases result : followAll follow (edges x) S with
      | error e => rfl
      | ok r =>
          obtain ⟨S₁, n⟩ := r
          rw [result] at done
          simp only [bind, Except.bind] at done ⊢
          split
          next there =>
            rw [if_pos there] at done
            rw [ih]
            intro stop
            rw [stop] at done
            exact done rfl
          next => rfl

theorem cascade_succ {fuel : ℕ} {batch : List α} {S : Set α}
    (done : cascade edges collect fuel batch S ≠ .error .diverges) :
    cascade edges collect (fuel + 1) batch S = cascade edges collect fuel batch S := by
  induction fuel generalizing batch S with
  | zero => exact absurd rfl done
  | succ fuel ih => exact dropAll_extends (fun i S => ih) done

theorem cascade_le {fuel fuel' : ℕ} (le : fuel ≤ fuel') {batch : List α} {S : Set α}
    (done : cascade edges collect fuel batch S ≠ .error .diverges) :
    cascade edges collect fuel' batch S = cascade edges collect fuel batch S := by
  induction le with
  | refl => rfl
  | step _ ih => rw [cascade_succ (ih ▸ done), ih]

/-- Removal to a depth, as the edges of a node are followed. -/
theorem extends_cascade {fuel fuel' : ℕ} (le : fuel ≤ fuel') :
    Extends (fun i S => cascade edges collect fuel (collect i S) S)
      (fun i S => cascade edges collect fuel' (collect i S) S) :=
  fun _ _ done => cascade_le le done

end Depth

section Exactness
variable {edges : α → List ι} {hits : ι → α → Prop} {collect : ι → Set α → List α}

variable (edges hits collect) in
/-- In the batch, and in every batch collected below it from what is still there
then, no node leads back to itself or to a later node of its batch. -/
inductive Orderly : Set α → List α → Prop where
  | mk {S : Set α} {batch : List α}
      (apart : batch.Pairwise fun x y => y ∉ reached edges hits S {x})
      (loose : ∀ x ∈ batch, x ∉ reached edges hits S { y | Child edges hits x y })
      (below : ∀ earlier x later, batch = earlier ++ x :: later →
        ∀ before i after, edges x = before ++ i :: after →
          let S' := S \ reached edges hits S ({ y | y ∈ earlier } ∪ targets hits before)
          Orderly S' (collect i S')) : Orderly S batch

theorem mem_reached_iff {S A : Set α} {y : α} :
    y ∈ reached edges hits S A ↔ ∃ x ∈ A, y ∈ reached edges hits S {x} := by
  constructor
  · rintro ⟨x, member, path⟩
    exact ⟨x, member, x, rfl, path⟩
  · rintro ⟨_, member, x, rfl, path⟩
    exact ⟨x, member, path⟩

theorem targets_append {before : List ι} {i : ι} :
    targets hits (before ++ [i]) = targets hits before ∪ { y | hits i y } := by
  ext y
  simp [targets, or_and_right, exists_or]

section Complete
variable (gathers : Gathers hits collect) {S : Set α} (finite : S.Finite)
include gathers finite

/-- The edges of a node, when the batch of each comes to its end. -/
theorem followAll_complete {A : Set α} {after : List ι} (before : List ι)
    (each : ∀ done i rest, after = done ++ i :: rest →
      let S' := S \ reached edges hits S (A ∪ targets hits (before ++ done))
      ∃ fuel r, cascade edges collect fuel (collect i S') S' = .ok r) :
    ∃ fuel r, followAll (fun i S => cascade edges collect fuel (collect i S) S) after
      (S \ reached edges hits S (A ∪ targets hits before)) = .ok r := by
  induction after generalizing before with
  | nil => exact ⟨0, _, rfl⟩
  | cons i after ih =>
      obtain ⟨fuel₁, ⟨S₁, n⟩, first⟩ := each [] i after rfl
      rw [List.append_nil] at first
      have left := (cascade_ok gathers (finite.subset Set.sdiff_subset) first).rest
      rw [reached_collect gathers, ← diff_reached_union, Set.union_assoc, ← targets_append] at left
      obtain ⟨fuel₂, ⟨S₂, m⟩, second⟩ := ih (before ++ [i]) (by
        intro done j rest split
        rw [List.append_assoc]
        exact each (i :: done) j rest (by rw [split]; rfl))
      refine ⟨max fuel₁ fuel₂, (S₂, n + m), Result.bind_eq_ok.mpr ⟨(S₁, n), ?_, ?_⟩⟩
      · exact (cascade_le (Nat.le_max_left _ _) (by rw [first]; simp)).trans first
      · refine Result.bind_eq_ok.mpr ⟨(S₂, m), ?_, rfl⟩
        rw [left, followAll_extends (extends_cascade (Nat.le_max_right _ _)) (by rw [second]; simp), second]

/-- A batch in order is removed to the end. -/
theorem Orderly.complete {batch : List α} (orderly : Orderly edges hits collect S batch)
    (there : ∀ x ∈ batch, x ∈ S) : ∃ fuel r, cascade edges collect fuel batch S = .ok r := by
  induction orderly with
  | @mk S batch apart loose below ih =>
      have drops : ∀ later earlier, batch = earlier ++ later →
          ∃ fuel r, dropAll edges (fun i S => cascade edges collect fuel (collect i S) S) later
            (S \ reached edges hits S { y | y ∈ earlier }) = .ok r := by
        intro later
        induction later with
        | nil => exact fun earlier _ => ⟨0, _, rfl⟩
        | cons x later next =>
            intro earlier split
            have member : x ∈ batch := by
              rw [split]
              simp
            have none_ : targets hits ([] : List ι) = ∅ := by simp [targets]
            obtain ⟨fuel₁, ⟨S₁, n⟩, followed⟩ := followAll_complete gathers finite [] (by
              intro done i rest edge
              exact ih earlier x later split done i rest edge (finite.subset Set.sdiff_subset)
                (fun y hy => ((gathers.mem _ _ _).mp hy).1))
            rw [none_, Set.union_empty] at followed
            have finite₀ : (S \ reached edges hits S { y | y ∈ earlier }).Finite :=
              finite.subset Set.sdiff_subset
            have under := followAll_ok (follow_ok gathers fuel₁) finite₀ followed
            have present : x ∈ S₁ := by
              rw [under.rest, ← diff_reached_union, reached_union]
              refine ⟨there x member, ?_⟩
              rintro (taken | taken)
              · obtain ⟨y, before, path⟩ := mem_reached_iff.mp taken
                rw [split, List.pairwise_append] at apart
                exact apart.2.2 y before x List.mem_cons_self path
              · exact loose x member taken
            have dropped := (Leaves.drop finite₀ present under).rest
            have grown : { y | y ∈ earlier } ∪ {x} = { y | y ∈ earlier ++ [x] } := by
              ext y
              simp [or_comm]
            rw [← diff_reached_union, grown] at dropped
            obtain ⟨fuel₂, ⟨S₂, m⟩, rest⟩ := next (earlier ++ [x]) (by rw [split, List.append_assoc]; rfl)
            refine ⟨max fuel₁ fuel₂, (S₂, n + 1 + m), Result.bind_eq_ok.mpr ⟨(S₁, n), ?_, ?_⟩⟩
            · rw [followAll_extends (extends_cascade (Nat.le_max_left _ _)) (by rw [followed]; simp), followed]
            · dsimp only
              rw [if_pos present, dropped]
              refine Result.bind_eq_ok.mpr ⟨(S₂, m), ?_, rfl⟩
              rw [dropAll_extends (extends_cascade (Nat.le_max_right _ _)) (by rw [rest]; simp), rest]
      obtain ⟨fuel, r, run⟩ := drops batch [] rfl
      refine ⟨fuel + 1, r, ?_⟩
      have empty : { y | y ∈ ([] : List α) } = ∅ := by simp
      rwa [empty, reached_empty, Set.sdiff_empty] at run

end Complete

section Sound
variable {follow : ι → Set α → Except Stop (Set α × ℕ)} {S S' : Set α} {n : ℕ}

theorem followAll_append {before after : List ι} (run : followAll follow (before ++ after) S = .ok (S', n)) :
    ∃ S₁ k m, followAll follow before S = .ok (S₁, k) ∧ followAll follow after S₁ = .ok (S', m) := by
  induction before generalizing S n with
  | nil => exact ⟨S, 0, n, rfl, run⟩
  | cons i before ih =>
      obtain ⟨⟨S₁, k⟩, first, run⟩ := Result.bind_eq_ok.mp run
      obtain ⟨⟨S₂, m⟩, second, run⟩ := Result.bind_eq_ok.mp run
      cases run
      obtain ⟨S₃, j, l, left, right⟩ := ih second
      exact ⟨S₃, k + j, l, Result.bind_eq_ok.mpr ⟨_, first, Result.bind_eq_ok.mpr ⟨_, left, rfl⟩⟩, right⟩

theorem dropAll_cons {x : α} {rest : List α} (run : dropAll edges follow (x :: rest) S = .ok (S', n)) :
    ∃ S₁ k m, followAll follow (edges x) S = .ok (S₁, k) ∧ x ∈ S₁ ∧
      dropAll edges follow rest (S₁ \ {x}) = .ok (S', m) := by
  obtain ⟨⟨S₁, k⟩, first, run⟩ := Result.bind_eq_ok.mp run
  dsimp only at run
  split at run
  next there =>
    obtain ⟨⟨S₂, m⟩, second, run⟩ := Result.bind_eq_ok.mp run
    cases run
    exact ⟨S₁, k, m, first, there, second⟩
  next => cases run

theorem dropAll_append {earlier later : List α}
    (run : dropAll edges follow (earlier ++ later) S = .ok (S', n)) :
    ∃ S₁ k m, dropAll edges follow earlier S = .ok (S₁, k) ∧
      dropAll edges follow later S₁ = .ok (S', m) := by
  induction earlier generalizing S n with
  | nil => exact ⟨S, 0, n, rfl, run⟩
  | cons x earlier ih =>
      obtain ⟨S₁, k, m, first, there, second⟩ := dropAll_cons run
      obtain ⟨S₂, j, l, left, right⟩ := ih second
      refine ⟨S₂, k + 1 + j, l, Result.bind_eq_ok.mpr ⟨_, first, ?_⟩, right⟩
      dsimp only
      rw [if_pos there]
      exact Result.bind_eq_ok.mpr ⟨_, left, rfl⟩

variable (each : ∀ i S S' n, S.Finite → follow i S = .ok (S', n) → Leaves edges hits S { y | hits i y } S' n)
include each

/-- Where a removal stands when it comes to a node of the batch. -/
theorem dropAll_at {earlier later : List α} {x : α} (finite : S.Finite)
    (run : dropAll edges follow (earlier ++ x :: later) S = .ok (S', n)) :
    ∃ S₁ k, followAll follow (edges x) (S \ reached edges hits S { y | y ∈ earlier }) = .ok (S₁, k) ∧
      x ∈ S \ reached edges hits S ({ y | y ∈ earlier } ∪ { y | Child edges hits x y }) := by
  obtain ⟨S₁, _, _, passed, run⟩ := dropAll_append run
  have before := dropAll_ok each finite passed
  obtain ⟨S₂, k, _, followed, there, _⟩ := dropAll_cons run
  have under := followAll_ok each (before.finite finite) followed
  rw [before.rest] at followed under
  rw [under.rest, targets, ← diff_reached_union] at there
  exact ⟨S₂, k, followed, there⟩

theorem dropAll_apart {batch : List α} (finite : S.Finite)
    (run : dropAll edges follow batch S = .ok (S', n)) :
    batch.Pairwise fun x y => y ∉ reached edges hits S {x} := by
  induction batch generalizing S n with
  | nil => exact .nil
  | cons x rest ih =>
      obtain ⟨S₁, _, _, followed, there, dropped⟩ := dropAll_cons run
      have step := Leaves.drop finite there (followAll_ok each finite followed)
      rw [step.rest] at dropped
      have present : ∀ y ∈ rest, y ∈ S \ reached edges hits S {x} := by
        intro y member
        obtain ⟨earlier, later, rfl⟩ := List.append_of_mem member
        obtain ⟨_, _, _, at_⟩ := dropAll_at each (finite.subset Set.sdiff_subset) dropped
        exact at_.1
      refine List.pairwise_cons.mpr ⟨fun y member => (present y member).2, ?_⟩
      refine (ih (finite.subset Set.sdiff_subset) dropped).imp_of_mem ?_
      intro y z _ memberZ free taken
      have still : z ∈ S \ reached edges hits S ({x} ∪ {y}) := by
        rw [diff_reached_union]
        exact ⟨present z memberZ, free⟩
      rw [reached_union] at still
      exact still.2 (.inr taken)

end Sound

/-- A removal that comes to its end has met batches in order only. -/
theorem Orderly.of_ok (gathers : Gathers hits collect) {fuel : ℕ} {batch : List α} {S S' : Set α} {n : ℕ}
    (finite : S.Finite) (run : cascade edges collect fuel batch S = .ok (S', n)) :
    Orderly edges hits collect S batch := by
  induction fuel generalizing batch S S' n with
  | zero => cases run
  | succ fuel ih =>
      have each : ∀ i S S' n, S.Finite → cascade edges collect fuel (collect i S) S = .ok (S', n) →
          Leaves edges hits S { y | hits i y } S' n := follow_ok gathers fuel
      refine .mk (dropAll_apart each finite run) ?_ ?_
      · intro x member taken
        obtain ⟨earlier, later, rfl⟩ := List.append_of_mem member
        obtain ⟨_, _, _, there⟩ := dropAll_at each finite run
        rw [reached_union] at there
        exact there.2 (.inr taken)
      · rintro earlier x later rfl before i after split
        obtain ⟨_, _, followed, _⟩ := dropAll_at each finite run
        rw [split] at followed
        obtain ⟨S₁, _, _, passed, followed⟩ := followAll_append followed
        have left := (followAll_ok each (finite.subset Set.sdiff_subset) passed).rest
        rw [← diff_reached_union] at left
        obtain ⟨⟨S₂, m⟩, inner, _⟩ := Result.bind_eq_ok.mp followed
        rw [left] at inner
        exact ih (finite.subset Set.sdiff_subset) inner

/-- Nodes that lead to no other can be removed in any order. -/
theorem Orderly.of_childless (gathers : Gathers hits collect) {S : Set α} {batch : List α} (nodup : batch.Nodup)
    (childless : ∀ x ∈ S, ∀ y ∈ S, ¬ Child edges hits x y) (there : ∀ x ∈ batch, x ∈ S) :
    Orderly edges hits collect S batch := by
  have alone : ∀ x y, y ∈ reached edges hits S {x} → y = x := by
    rintro x y ⟨_, rfl, start, path⟩
    obtain same | ⟨z, first, _⟩ := Relation.ReflTransGen.cases_head path
    · exact same.symm
    · exact absurd first.1 (childless _ start z first.2)
  refine .mk ?_ ?_ ?_
  · exact nodup.imp fun different taken => different (alone _ _ taken).symm
  · rintro x member ⟨y, child, start, _⟩
    exact childless x (there x member) y start child
  · rintro earlier x later rfl before i after split
    have edge : i ∈ edges x := by
      rw [split]
      exact List.mem_append_right _ List.mem_cons_self
    have none_ : ∀ S' ⊆ S, collect i S' = [] := by
      intro S' within
      apply List.eq_nil_iff_forall_not_mem.mpr
      intro y member
      obtain ⟨start, hit⟩ := (gathers.mem i S' y).mp member
      exact childless x (there x (List.mem_append_right _ List.mem_cons_self)) y (within start) ⟨i, edge, hit⟩
    dsimp only
    rw [none_ _ Set.sdiff_subset]
    exact .mk .nil nofun fun earlier x later h => absurd h (by simp)

end Exactness

end Cascade
