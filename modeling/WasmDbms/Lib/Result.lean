import Mathlib.Data.List.Forall2

/-!
# Computations that can fail

How the value of a sequence of `Except` computations comes about.
-/
namespace Result

variable {ε α β : Type}

theorem bind_eq_ok {x : Except ε α} {f : α → Except ε β} {b : β} :
    (x >>= f) = .ok b ↔ ∃ a, x = .ok a ∧ f a = .ok b := by
  cases x with
  | error e =>
      constructor
      · intro h
        cases h
      · rintro ⟨_, h, _⟩
        cases h
  | ok a =>
      constructor
      · exact fun h => ⟨a, rfl, h⟩
      · rintro ⟨_, ⟨⟩, h⟩
        exact h

theorem bind_eq_error {x : Except ε α} {f : α → Except ε β} {e : ε} :
    (x >>= f) = .error e ↔ x = .error e ∨ ∃ a, x = .ok a ∧ f a = .error e := by
  cases x with
  | error e' =>
      constructor
      · rintro ⟨⟩
        exact .inl rfl
      · rintro (⟨⟨⟩⟩ | ⟨_, h, _⟩)
        · rfl
        · cases h
  | ok a =>
      constructor
      · exact fun h => .inr ⟨a, rfl, h⟩
      · rintro (h | ⟨_, ⟨⟩, h⟩)
        · cases h
        · exact h

theorem map_eq_ok {x : Except ε α} {f : α → β} {b : β} : f <$> x = .ok b ↔ ∃ a, x = .ok a ∧ f a = b := by
  cases x with
  | error e =>
      constructor
      · intro h
        cases h
      · rintro ⟨_, h, _⟩
        cases h
  | ok a =>
      constructor
      · intro h
        exact ⟨a, rfl, Except.ok.inj h⟩
      · rintro ⟨_, ⟨⟩, rfl⟩
        rfl

@[simp] theorem pure_eq_ok {a b : α} : (pure a : Except ε α) = .ok b ↔ a = b := by
  constructor
  · rintro ⟨⟩
    rfl
  · rintro rfl
    rfl

@[simp] theorem throw_ne_ok {e : ε} {b : α} : (throw e : Except ε α) ≠ .ok b := by
  rintro ⟨⟩

section Lists
variable {f : α → Except ε β} {l : List α}

theorem mapM_ok (each : ∀ x ∈ l, ∃ y, f x = .ok y) : ∃ ys, l.mapM f = .ok ys := by
  induction l with
  | nil => exact ⟨[], rfl⟩
  | cons x l ih =>
      rw [List.forall_mem_cons] at each
      obtain ⟨y, first⟩ := each.1
      obtain ⟨ys, rest⟩ := ih each.2
      refine ⟨y :: ys, ?_⟩
      rw [List.mapM_cons, first, rest]
      rfl

theorem mapM_eq_map {g : α → β} (each : ∀ x ∈ l, f x = .ok (g x)) : l.mapM f = .ok (l.map g) := by
  induction l with
  | nil => rfl
  | cons x l ih =>
      rw [List.forall_mem_cons] at each
      rw [List.mapM_cons, each.1, ih each.2]
      rfl

theorem mapM_each {ys : List β} (run : l.mapM f = .ok ys) : ∀ x ∈ l, ∃ y, f x = .ok y := by
  induction l generalizing ys with
  | nil => exact nofun
  | cons x l ih =>
      rw [List.mapM_cons] at run
      obtain ⟨y, first, run⟩ := bind_eq_ok.mp run
      obtain ⟨_, others, _⟩ := bind_eq_ok.mp run
      exact List.forall_mem_cons.mpr ⟨⟨y, first⟩, ih others⟩

theorem mem_mapM {ys : List β} (run : l.mapM f = .ok ys) {y : β} : y ∈ ys ↔ ∃ x ∈ l, f x = .ok y := by
  induction l generalizing ys with
  | nil =>
      cases run
      simp
  | cons x l ih =>
      rw [List.mapM_cons] at run
      obtain ⟨y', first, run⟩ := bind_eq_ok.mp run
      obtain ⟨ys', rest, run⟩ := bind_eq_ok.mp run
      cases run
      rw [List.mem_cons, ih rest]
      simp [first, eq_comm]

/-- The results, each beside what it was computed from. -/
theorem mapM_forall₂ {ys : List β} (run : l.mapM f = .ok ys) : List.Forall₂ (fun x y => f x = .ok y) l ys := by
  induction l generalizing ys with
  | nil =>
      cases run
      exact .nil
  | cons x l ih =>
      rw [List.mapM_cons] at run
      obtain ⟨y, first, run⟩ := bind_eq_ok.mp run
      obtain ⟨rest, others, run⟩ := bind_eq_ok.mp run
      cases run
      exact .cons first (ih others)

omit f in
/-- What each step of a fold keeps is kept by the fold. -/
theorem foldlM_keeps {σ : Type} {f : σ → α → Except ε σ} {P : σ → Prop} {s r : σ}
    (step : ∀ x ∈ l, ∀ s s', P s → f s x = .ok s' → P s') (start : P s) (run : l.foldlM f s = .ok r) : P r := by
  induction l generalizing s with
  | nil =>
      cases run
      exact start
  | cons x l ih =>
      rw [List.foldlM_cons] at run
      obtain ⟨s', first, rest⟩ := bind_eq_ok.mp run
      obtain ⟨here, later⟩ := List.forall_mem_cons.mp step
      exact ih later (here s s' start first) rest

omit f in
theorem mapM_of_forall₂ {f : α → Except ε β} {ys : List β} (each : List.Forall₂ (fun x y => f x = .ok y) l ys) :
    l.mapM f = .ok ys := by
  induction each with
  | nil => rfl
  | cons first _ ih =>
      rw [List.mapM_cons, first, ih]
      rfl

omit f in
/-- A fold fails if it comes to a step that fails in every state it can be in. -/
theorem foldlM_fails {σ : Type} {f : σ → α → Except ε σ} {P : σ → Prop} {start : σ} {x : α}
    (keeps : ∀ x ∈ l, ∀ s s', P s → f s x = .ok s' → P s') (listed : x ∈ l)
    (fails : ∀ s, P s → ∃ e, f s x = .error e) (holds : P start) : ∃ e, l.foldlM f start = .error e := by
  induction l generalizing start with
  | nil => cases listed
  | cons first rest ih =>
      obtain ⟨here, later⟩ := List.forall_mem_cons.mp keeps
      rw [List.foldlM_cons]
      cases step : f start first with
      | error e => exact ⟨e, rfl⟩
      | ok s =>
          rcases List.mem_cons.mp listed with rfl | inRest
          · obtain ⟨e, failed⟩ := fails start holds
            cases failed.symm.trans step
          · exact ih later inRest (here start s holds step)

theorem forM_ok {f : α → Except ε Unit} (run : l.forM f = .ok ()) : ∀ x ∈ l, f x = .ok () := by
  induction l with
  | nil => exact nofun
  | cons x l ih =>
      have step : (x :: l).forM f = (f x >>= fun _ => l.forM f) := rfl
      rw [step] at run
      obtain ⟨_, first, rest⟩ := bind_eq_ok.mp run
      exact List.forall_mem_cons.mpr ⟨first, ih rest⟩

end Lists

/-- The second computation ends as the first one does, unless the first one stops
for want of fuel. -/
def Settles (stop : ε) (x y : Except ε α) : Prop := x = .error stop ∨ x = y

section Settles
variable {stop : ε}

theorem Settles.refl (x : Except ε α) : Settles stop x x := .inr rfl

theorem Settles.bind {x y : Except ε α} {f g : α → Except ε β} (first : Settles stop x y)
    (rest : ∀ a, Settles stop (f a) (g a)) : Settles stop (x >>= f) (y >>= g) := by
  rcases first with rfl | rfl
  · exact .inl rfl
  · cases x with
    | error e => exact .refl _
    | ok a => exact rest a

theorem Settles.eq {x y : Except ε α} (settles : Settles stop x y) (ends : x ≠ .error stop) : y = x := by
  rcases settles with stopped | same
  · exact absurd stopped ends
  · exact same.symm

end Settles

end Result
