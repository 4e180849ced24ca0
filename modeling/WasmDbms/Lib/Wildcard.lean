import Mathlib.Data.List.Infix

/-!
# Patterns with wildcards

A pattern is a list of letters, of wildcards for one letter and of wildcards for
any text. A search that goes through a text from left to right may forget every
wildcard for any text but the last one it came to.
-/
namespace Wildcard
variable {α : Type*}

inductive Element (α : Type*) where
  | any
  | one
  | lit (x : α)
  deriving DecidableEq, Repr

/-- The text is in the language of the pattern. -/
def Matches : List (Element α) → List α → Prop
  | [], text => text = []
  | .any :: p, text => ∃ skipped rest, text = skipped ++ rest ∧ Matches p rest
  | .one :: p, text => ∃ x rest, text = x :: rest ∧ Matches p rest
  | .lit x :: p, text => ∃ rest, text = x :: rest ∧ Matches p rest

@[simp] theorem matches_nil {text : List α} : Matches [] text ↔ text = [] := Iff.rfl

theorem matches_one {p : List (Element α)} {x : α} {text : List α} : Matches (.one :: p) (x :: text) ↔ Matches p text := by
  constructor
  · rintro ⟨y, rest, same, rests⟩
    cases same
    exact rests
  · intro rests
    exact ⟨x, text, rfl, rests⟩

theorem matches_any {p : List (Element α)} {text : List α} :
    Matches (.any :: p) text ↔ ∃ rest, rest <:+ text ∧ Matches p rest := by
  constructor
  · rintro ⟨skipped, rest, rfl, rests⟩
    exact ⟨rest, List.suffix_append skipped rest, rests⟩
  · rintro ⟨rest, ⟨skipped, rfl⟩, rests⟩
    exact ⟨skipped, rest, rfl, rests⟩

theorem matches_any_of_suffix {p : List (Element α)} {text rest : List α} (suffix : rest <:+ text)
    (rests : Matches (.any :: p) rest) : Matches (.any :: p) text := by
  obtain ⟨last, inner, matched⟩ := matches_any.mp rests
  exact matches_any.mpr ⟨last, inner.trans suffix, matched⟩

/-- Letters stand for themselves. -/
theorem matches_lits {letters text : List α} {p : List (Element α)} :
    Matches (letters.map .lit ++ p) text ↔ ∃ rest, text = letters ++ rest ∧ Matches p rest := by
  induction letters generalizing text with
  | nil => simp
  | cons x letters ih =>
      constructor
      · rintro ⟨rest, rfl, matched⟩
        obtain ⟨last, rfl, inner⟩ := ih.mp matched
        exact ⟨last, rfl, inner⟩
      · rintro ⟨last, rfl, matched⟩
        exact ⟨letters ++ last, rfl, ih.mpr ⟨last, rfl, matched⟩⟩

/-- Nothing but wildcards for any text, if nothing is left of the text. -/
theorem matches_empty_iff {p : List (Element α)} : Matches p [] ↔ ∀ e ∈ p, e = .any := by
  induction p with
  | nil => simp
  | cons e p ih =>
      cases e with
      | any =>
          rw [matches_any, List.forall_mem_cons, ← ih]
          simp
      | one => simp [Matches]
      | lit x => simp [Matches]

/-- The pattern without wildcards for any text: it takes as many letters as it has elements. -/
def Fixed (p : List (Element α)) : Prop := .any ∉ p

theorem Fixed.append {p q : List (Element α)} (first : Fixed p) (second : Fixed q) : Fixed (p ++ q) := by
  intro member
  exact (List.mem_append.mp member).elim first second

theorem fixed_lits (letters : List α) : Fixed (letters.map .lit) := by
  simp [Fixed]

theorem Fixed.takes {segment p : List (Element α)} {text : List α} (fixed : Fixed segment)
    (matched : Matches (segment ++ p) text) :
    ∃ taken rest, text = taken ++ rest ∧ taken.length = segment.length ∧ Matches p rest := by
  induction segment generalizing text with
  | nil => exact ⟨[], text, rfl, rfl, matched⟩
  | cons e segment ih =>
      have later : Fixed segment := fun member => fixed (List.mem_cons_of_mem _ member)
      cases e with
      | any => exact absurd List.mem_cons_self fixed
      | one =>
          obtain ⟨x, rest, rfl, matched⟩ := matched
          obtain ⟨taken, last, rfl, length, matched⟩ := ih later matched
          exact ⟨x :: taken, last, rfl, congrArg Nat.succ length, matched⟩
      | lit x =>
          obtain ⟨rest, rfl, matched⟩ := matched
          obtain ⟨taken, last, rfl, length, matched⟩ := ih later matched
          exact ⟨x :: taken, last, rfl, congrArg Nat.succ length, matched⟩

/-- The pattern matches when at least one letter is skipped. -/
def Later (p : List (Element α)) (text : List α) : Prop :=
  ∃ rest, rest <:+ text ∧ rest.length < text.length ∧ Matches p rest

theorem not_later_nil {p : List (Element α)} : ¬ Later p [] := by
  rintro ⟨rest, _, shorter, _⟩
  exact Nat.not_lt_zero _ shorter

theorem later_cons {p : List (Element α)} {x : α} {text : List α} :
    Later p (x :: text) ↔ Matches p text ∨ Later p text := by
  constructor
  · rintro ⟨rest, suffix, shorter, matched⟩
    rcases List.suffix_cons_iff.mp suffix with rfl | inner
    · exact absurd shorter (Nat.lt_irrefl _)
    · rcases Nat.lt_or_ge rest.length text.length with less | equal
      · exact .inr ⟨rest, inner, less, matched⟩
      · rw [inner.eq_of_length_le equal] at matched
        exact .inl matched
  · rintro (matched | ⟨rest, inner, shorter, matched⟩)
    · exact ⟨text, List.suffix_cons x text, Nat.lt_succ_self _, matched⟩
    · exact ⟨rest, inner.trans (List.suffix_cons x text), Nat.lt_succ_of_lt shorter, matched⟩

/-- What skips a letter before a segment that took its letters skips one behind it. -/
theorem Later.behind {segment p : List (Element α)} {taken text : List α} (fixed : Fixed segment)
    (length : taken.length = segment.length) (later : Later (segment ++ p) (taken ++ text)) : Later p text := by
  obtain ⟨rest, suffix, shorter, matched⟩ := later
  obtain ⟨taken', rest, rfl, length', matched⟩ := fixed.takes matched
  rw [List.length_append, List.length_append] at shorter
  have less : rest.length < text.length := by omega
  have inner : rest <:+ taken ++ text := (List.suffix_append taken' rest).trans suffix
  exact ⟨rest, List.suffix_of_suffix_length_le inner (List.suffix_append taken text) (Nat.le_of_lt less), less, matched⟩

theorem matches_any_iff {p : List (Element α)} {text : List α} :
    Matches (.any :: p) text ↔ Matches p text ∨ Later p text := by
  constructor
  · intro matched
    obtain ⟨rest, suffix, inner⟩ := matches_any.mp matched
    rcases Nat.lt_or_ge rest.length text.length with less | equal
    · exact .inr ⟨rest, suffix, less, inner⟩
    · rw [suffix.eq_of_length_le equal] at inner
      exact .inl inner
  · rintro (matched | ⟨rest, suffix, _, matched⟩)
    · exact matches_any.mpr ⟨text, List.suffix_refl text, matched⟩
    · exact matches_any.mpr ⟨rest, suffix, matched⟩

/-- A new wildcard for any text makes the one before it superfluous. -/
theorem Later.absorbed {segment p : List (Element α)} {taken text : List α} (fixed : Fixed segment)
    (length : taken.length = segment.length) (later : Later (segment ++ .any :: p) (taken ++ text)) :
    Matches (.any :: p) text := by
  obtain ⟨rest, suffix, _, matched⟩ := later.behind fixed length
  exact matches_any_of_suffix suffix matched

end Wildcard
