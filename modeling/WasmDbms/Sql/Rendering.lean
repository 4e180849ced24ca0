import Mathlib.Data.List.TakeWhile
import WasmDbms.Lib.Result
import WasmDbms.Sql.Lexer

/-!
# Texts of tokens

How tokens are written with whitespace and comments between them. A text is turned into
tokens exactly when it is one of their texts, at the positions where they begin.
-/
namespace WasmDbms.Sql
open Numerals

/-! ## Positions -/

/-- The 1-based position behind a text. -/
def positionOf (before : List Char) : Position :=
  ⟨before.count '\n' + 1, (before.reverse.takeWhile (· ≠ '\n')).length + 1⟩

theorem positionOf_concat (before : List Char) (c : Char) : positionOf (before ++ [c]) = (positionOf before).after c := by
  rw [positionOf, positionOf, Position.after, List.count_append, List.reverse_append, List.reverse_singleton, List.singleton_append,
    List.takeWhile_cons]
  by_cases line : c = '\n'
  · subst line
    simp
  · simp [line]

theorem positionOf_append (before text : List Char) : positionOf (before ++ text) = (positionOf before).afterAll text := by
  induction text generalizing before with
  | nil => rw [List.append_nil, Position.afterAll, List.foldl_nil]
  | cons c cs ih =>
      have cut : before ++ c :: cs = (before ++ [c]) ++ cs := by simp
      rw [cut, ih, positionOf_concat]
      rfl

theorem afterAll_append (position : Position) (front back : List Char) :
    position.afterAll (front ++ back) = (position.afterAll front).afterAll back := List.foldl_append

/-! ## What tokens and the text between them look like -/

/-- Whitespace and comments in front of `rest`. A line comment ends with its line, a block
comment with the first end of one. -/
inductive Trivia (rest : List Char) : List Char → Prop
  | none : Trivia rest []
  | space {c : Char} {trivia : List Char} (white : isWhitespace c = true) (more : Trivia rest trivia) : Trivia rest (c :: trivia)
  | line {body trivia : List Char} (inside : '\n' ∉ body) (ends : ∀ c, (trivia ++ rest).head? = some c → c = '\n')
      (more : Trivia rest trivia) : Trivia rest ('-' :: '-' :: (body ++ trivia))
  | block {body trivia : List Char} (open_ : ¬ ['*', '/'] <:+: body) (more : Trivia rest trivia) :
      Trivia rest ('/' :: '*' :: (body ++ '*' :: '/' :: trivia))

/-- A text in which a quote is doubled. -/
def doubled (quote : Char) (content : List Char) : List Char :=
  content.flatMap fun c => if c = quote then [quote, quote] else [c]

def IsWord : List Char → Prop
  | [] => False
  | c :: cs => isWordStart c = true ∧ ∀ d ∈ cs, isWordChar d = true

/-- The symbols with their texts. -/
def symbolTexts : List (Token × List Char) :=
  [(.comma, [',']), (.dot, ['.']), (.leftParen, ['(']), (.rightParen, [')']), (.star, ['*']), (.semicolon, [';']), (.minus, ['-']),
    (.placeholder, ['?']), (.eq, ['=']), (.notEq, ['!', '=']), (.notEq, ['<', '>']), (.lt, ['<']), (.ltEq, ['<', '=']), (.gt, ['>']),
    (.gtEq, ['>', '='])]

/-- The characters that make another symbol or a comment of a symbol. -/
def extending : Token → List Char
  | .minus => ['-']
  | .lt => ['=', '>']
  | .gt => ['=']
  | _ => []

/-- A text of a token, and that nothing in `rest` belongs to it. -/
inductive Written (rest : List Char) : Token → List Char → Prop
  | keyword {keyword : Keyword} {word : List Char} (same : lower keyword.asStr.toList = lower word)
      (ends : ∀ c, rest.head? = some c → isWordChar c = false) : Written rest (.keyword keyword) word
  | identifier {word : List Char} (form : IsWord word) (free : Keyword.fromWord word = none)
      (ends : ∀ c, rest.head? = some c → isWordChar c = false) : Written rest (.identifier word) word
  | quoted {name : List Char} (some_ : name ≠ []) (ends : rest.head? ≠ some doubleQuote) :
      Written rest (.identifier name) (doubleQuote :: (doubled doubleQuote name ++ [doubleQuote]))
  | string {content : List Char} (ends : rest.head? ≠ some singleQuote) :
      Written rest (.string content) (singleQuote :: (doubled singleQuote content ++ [singleQuote]))
  | integer {digits : List Char} (some_ : digits ≠ []) (form : ∀ c ∈ digits, c.isDigit = true) (small : value digits < 2 ^ 64)
      (ends : ∀ c, rest.head? = some c → isWordChar c = false)
      (point : ∀ c, rest[0]? = some '.' → rest[1]? = some c → c.isDigit = false) :
      Written rest (.integer (UInt64.ofNat (value digits))) digits
  | float {whole fraction : List Char} (some_ : whole ≠ [] ∧ fraction ≠ []) (form : ∀ c ∈ whole ++ fraction, c.isDigit = true)
      (ends : ∀ c, rest.head? = some c → isWordChar c = false) :
      Written rest (.float (whole ++ '.' :: fraction)) (whole ++ '.' :: fraction)
  | symbol {token : Token} {text : List Char} (form : (token, text) ∈ symbolTexts)
      (ends : ∀ c ∈ extending token, rest.head? ≠ some c) : Written rest token text

/-- A text of tokens behind `before`, with the positions where they begin. -/
inductive Renders : List Char → List Spanned → List Char → Prop
  | eof {before trivia : List Char} (between : Trivia [] trivia) :
      Renders before [⟨.eof, positionOf (before ++ trivia)⟩] trivia
  | token {before trivia text rest : List Char} {token : Token} {spanned : List Spanned} (between : Trivia (text ++ rest) trivia)
      (written : Written rest token text) (more : Renders (before ++ trivia ++ text) spanned rest) :
      Renders before (⟨token, positionOf (before ++ trivia)⟩ :: spanned) (trivia ++ text ++ rest)

/-! ## Runs of characters -/

section Runs
variable {kind : Char → Bool} {word rest : List Char}

theorem takeWhile_run (inside : ∀ c ∈ word, kind c = true) (ends : ∀ c, rest.head? = some c → kind c = false) :
    (word ++ rest).takeWhile kind = word ∧ (word ++ rest).dropWhile kind = rest := by
  rw [List.takeWhile_append_of_pos inside, List.dropWhile_append_of_pos inside]
  cases rest with
  | nil => exact ⟨List.append_nil _, rfl⟩
  | cons c cs =>
      have out := ends c rfl
      rw [List.takeWhile_cons, List.dropWhile_cons, out]
      exact ⟨List.append_nil _, rfl⟩

theorem head_dropWhile (text : List Char) : ∀ c, (text.dropWhile kind).head? = some c → kind c = false := by
  intro c found
  induction text with
  | nil => cases found
  | cons d ds ih =>
      rw [List.dropWhile_cons] at found
      split at found
      · exact ih found
      · rename_i out
        obtain rfl : d = c := Option.some.inj found
        exact Bool.eq_false_iff.mpr out

end Runs

namespace Lexer

theorem takeChars_eq (kind : Char → Bool) (text : List Char) (position : Position) :
    takeChars kind text position =
      (text.takeWhile kind, ⟨text.dropWhile kind, position.afterAll (text.takeWhile kind)⟩) := by
  induction text generalizing position with
  | nil => rfl
  | cons c cs ih =>
      rw [takeChars, List.takeWhile_cons, List.dropWhile_cons, ih]
      split <;> simp_all [Position.afterAll]

theorem skipLine_eq (text : List Char) (position : Position) :
    skipLine text position = ⟨text.dropWhile (· ≠ '\n'), position.afterAll (text.takeWhile (· ≠ '\n'))⟩ := by
  induction text generalizing position with
  | nil => rfl
  | cons c cs ih =>
      rw [skipLine, List.takeWhile_cons, List.dropWhile_cons, ih]
      by_cases line : c = '\n' <;> simp [line, Position.afterAll]

theorem bumps_append (text rest : List Char) (position : Position) :
    (⟨text ++ rest, position⟩ : Lexer).bumps text.length = ⟨rest, position.afterAll text⟩ := by
  induction text generalizing position with
  | nil => rfl
  | cons c cs ih => exact ih (position.after c)

/-! ## Comments and whitespace -/

theorem infix_cons {c : Char} {cs : List Char} :
    ['*', '/'] <:+: c :: cs ↔ (c = '*' ∧ cs.head? = some '/') ∨ ['*', '/'] <:+: cs := by
  rw [List.infix_cons_iff]
  refine or_congr_left ?_
  cases cs with
  | nil => simp
  | cons d ds => simp [List.cons_prefix_cons, eq_comm]

theorem skipBlock_close (start : Position) (cs : List Char) (position : Position) :
    skipBlock start ('*' :: '/' :: cs) position = .ok ⟨cs, position.afterAll ['*', '/']⟩ := rfl

theorem skipBlock_cons {start : Position} {c : Char} {cs : List Char} {position : Position}
    (open_ : ¬ (c = '*' ∧ cs.head? = some '/')) : skipBlock start (c :: cs) position = skipBlock start cs (position.after c) := by
  rw [skipBlock]
  rintro rest rfl rfl
  exact open_ ⟨rfl, rfl⟩

/-- A comment runs to the first end of one. -/
theorem skipBlock_ok {start : Position} {text : List Char} {position : Position} {behind : Lexer} :
    skipBlock start text position = .ok behind ↔
      ∃ body, text = body ++ '*' :: '/' :: behind.rest ∧ ¬ ['*', '/'] <:+: body ∧
        behind.position = position.afterAll (body ++ ['*', '/']) := by
  induction text generalizing position with
  | nil =>
      constructor
      · intro found
        cases found
      · rintro ⟨body, same, _⟩
        cases body <;> cases same
  | cons c cs ih =>
      by_cases close : c = '*' ∧ cs.head? = some '/'
      · obtain ⟨rfl, next⟩ := close
        cases cs with
        | nil => cases next
        | cons d ds =>
            obtain rfl : d = '/' := Option.some.inj next
            rw [skipBlock_close]
            constructor
            · intro found
              obtain rfl := Except.ok.inj found
              exact ⟨[], rfl, by simp, rfl⟩
            · rintro ⟨body, same, open_, place⟩
              cases body with
              | nil =>
                  obtain ⟨_, tail⟩ := List.cons.inj same
                  rw [(List.cons.inj tail).2]
                  exact congrArg Except.ok (congrArg (Lexer.mk behind.rest) place.symm)
              | cons x body =>
                  obtain ⟨first, tail⟩ := List.cons.inj same
                  -- the body cannot hold the end that stands in front
                  cases body with
                  | nil => cases tail
                  | cons y body =>
                      obtain ⟨second, _⟩ := List.cons.inj tail
                      exact absurd (infix_cons.mpr (.inl ⟨first.symm, by rw [← second]; rfl⟩)) open_
      · rw [skipBlock_cons close, ih]
        constructor
        · rintro ⟨body, rfl, open_, place⟩
          refine ⟨c :: body, rfl, ?_, place⟩
          rw [infix_cons]
          rintro (⟨rfl, next⟩ | inner)
          · refine close ⟨rfl, ?_⟩
            cases body with
            | nil => cases next
            | cons d ds => exact next
          · exact open_ inner
        · rintro ⟨body, same, open_, place⟩
          cases body with
          | nil =>
              obtain ⟨rfl, rfl⟩ := List.cons.inj same
              exact absurd ⟨rfl, rfl⟩ close
          | cons d body =>
              obtain ⟨rfl, tail⟩ := List.cons.inj same
              exact ⟨body, tail, fun inner => open_ (infix_cons.mpr (.inr inner)), place⟩

/-- What `skipTrivia` goes on with. -/
def StartsTrivia (text : List Char) : Prop :=
  text[0]?.any isWhitespace = true ∨ (text[0]? = some '-' ∧ text[1]? = some '-') ∨ text[0]? = some '/' ∧ text[1]? = some '*'

theorem peekAt_cases {text : List Char} {position : Position} {c d : Char} (first : (⟨text, position⟩ : Lexer).peekAt 0 = some c)
    (second : (⟨text, position⟩ : Lexer).peekAt 1 = some d) : ∃ rest, text = c :: d :: rest := by
  rw [peekAt] at first second
  cases text with
  | nil => cases first
  | cons x xs =>
      obtain rfl : x = c := Option.some.inj first
      cases xs with
      | nil => cases second
      | cons y ys =>
          obtain rfl : y = d := Option.some.inj second
          exact ⟨ys, rfl⟩

theorem startsTrivia_dashes (text : List Char) : StartsTrivia ('-' :: '-' :: text) := .inr (.inl ⟨rfl, rfl⟩)

theorem dash_dark : ¬ isWhitespace '-' = true := by decide

theorem slash_ne_dash : ¬ some '/' = some '-' := by decide

theorem slash_dark : ¬ isWhitespace '/' = true := by decide

section Skip
variable {fuel : ℕ} {position : Position}

theorem skipTrivia_space {c : Char} (white : isWhitespace c = true) (cs : List Char) :
    skipTrivia (fuel + 1) ⟨c :: cs, position⟩ = skipTrivia fuel ⟨cs, position.after c⟩ := if_pos white

theorem skipTrivia_line (text : List Char) :
    skipTrivia (fuel + 1) ⟨'-' :: '-' :: text, position⟩ =
      skipTrivia fuel ⟨text.dropWhile (· ≠ '\n'), position.afterAll ('-' :: '-' :: text.takeWhile (· ≠ '\n'))⟩ := by
  refine (if_neg dash_dark).trans ((if_pos ⟨rfl, rfl⟩).trans ?_)
  rw [skipLine_eq]
  rfl

theorem skipTrivia_block {text : List Char} {behind : Lexer}
    (closed : skipBlock position text (position.afterAll ['/', '*']) = .ok behind) :
    skipTrivia (fuel + 1) ⟨'/' :: '*' :: text, position⟩ = skipTrivia fuel behind := by
  have comment : skipBlockComment ⟨'/' :: '*' :: text, position⟩ = .ok behind := closed
  refine (if_neg slash_dark).trans ((if_neg (fun dashes => slash_ne_dash dashes.1)).trans ((if_pos ⟨rfl, rfl⟩).trans ?_))
  rw [comment]

theorem skipTrivia_unclosed {text : List Char} {error : SqlError}
    (unclosed : skipBlock position text (position.afterAll ['/', '*']) = .error error) :
    skipTrivia (fuel + 1) ⟨'/' :: '*' :: text, position⟩ = some (.error error) := by
  have comment : skipBlockComment ⟨'/' :: '*' :: text, position⟩ = .error error := unclosed
  refine (if_neg slash_dark).trans ((if_neg (fun dashes => slash_ne_dash dashes.1)).trans ((if_pos ⟨rfl, rfl⟩).trans ?_))
  rw [comment]

theorem skipTrivia_stop {text : List Char} (final : ¬ StartsTrivia text) :
    skipTrivia (fuel + 1) ⟨text, position⟩ = some (.ok ⟨text, position⟩) :=
  (if_neg fun white => final (.inl white)).trans
    ((if_neg fun dashes => final (.inr (.inl dashes))).trans (if_neg fun open_ => final (.inr (.inr open_))))

end Skip

/-- The ways a text goes on. -/
theorem startsTrivia_cases (text : List Char) :
    ¬ StartsTrivia text ∨ (∃ c cs, text = c :: cs ∧ isWhitespace c = true) ∨ (∃ cs, text = '-' :: '-' :: cs) ∨
      ∃ cs, text = '/' :: '*' :: cs := by
  by_cases starts : StartsTrivia text
  · rcases starts with white | dashes | open_
    · cases text with
      | nil => cases white
      | cons c cs => exact .inr (.inl ⟨c, cs, rfl, white⟩)
    · exact .inr (.inr (.inl (@peekAt_cases text ⟨1, 1⟩ _ _ dashes.1 dashes.2)))
    · exact .inr (.inr (.inr (@peekAt_cases text ⟨1, 1⟩ _ _ open_.1 open_.2)))
  · exact .inl starts

/-- Whatever is skipped is whitespace and comments, and no more of them follows. -/
theorem skipTrivia_ok {fuel : ℕ} {text : List Char} {position : Position} {behind : Lexer}
    (skipped : skipTrivia fuel ⟨text, position⟩ = some (.ok behind)) :
    ∃ trivia, text = trivia ++ behind.rest ∧ behind.position = position.afterAll trivia ∧
      Trivia behind.rest trivia ∧ ¬ StartsTrivia behind.rest := by
  induction fuel generalizing text position with
  | zero => cases skipped
  | succ fuel ih =>
      rcases startsTrivia_cases text with final | ⟨c, cs, rfl, white⟩ | ⟨cs, rfl⟩ | ⟨cs, rfl⟩
      · rw [skipTrivia_stop final] at skipped
        obtain rfl := Except.ok.inj (Option.some.inj skipped)
        exact ⟨[], rfl, rfl, .none, final⟩
      · rw [skipTrivia_space white] at skipped
        obtain ⟨trivia, rfl, place, form, final⟩ := ih skipped
        exact ⟨c :: trivia, rfl, place, .space white form, final⟩
      · rw [skipTrivia_line] at skipped
        obtain ⟨trivia, same, place, form, final⟩ := ih skipped
        have whole : cs.takeWhile (· ≠ '\n') ++ cs.dropWhile (· ≠ '\n') = cs := List.takeWhile_append_dropWhile
        rw [same] at whole
        refine ⟨'-' :: '-' :: (cs.takeWhile (· ≠ '\n') ++ trivia), ?_, ?_, .line ?_ ?_ form, final⟩
        · rw [List.cons_append, List.cons_append, List.append_assoc, whole]
        · rw [place, ← afterAll_append]
          rfl
        · intro inside
          have here := List.mem_takeWhile_imp inside
          simp at here
        · intro c found
          have ends := @head_dropWhile (· ≠ '\n') cs c (by rw [same]; exact found)
          simpa using ends
      · cases closed : skipBlock position cs (position.afterAll ['/', '*']) with
        | error error =>
            rw [skipTrivia_unclosed closed] at skipped
            cases skipped
        | ok inner =>
            rw [skipTrivia_block closed] at skipped
            obtain ⟨body, rfl, open_, here⟩ := skipBlock_ok.mp closed
            obtain ⟨trivia, same, place, form, final⟩ := ih skipped
            rw [same]
            refine ⟨'/' :: '*' :: (body ++ '*' :: '/' :: trivia), by simp, ?_, .block open_ form, final⟩
            rw [place, here]
            simp [Position.afterAll]

/-- Whitespace and comments are skipped. -/
theorem skipTrivia_of_trivia {rest trivia : List Char} (form : Trivia rest trivia) (final : ¬ StartsTrivia rest) {fuel : ℕ}
    {position : Position} (enough : trivia.length < fuel) :
    skipTrivia fuel ⟨trivia ++ rest, position⟩ = some (.ok ⟨rest, position.afterAll trivia⟩) := by
  induction form generalizing fuel position with
  | none =>
      obtain ⟨fuel, rfl⟩ := Nat.exists_eq_add_of_lt enough
      exact skipTrivia_stop final
  | @space c trivia white _ ih =>
      cases fuel with
      | zero => exact absurd enough (Nat.not_lt_zero _)
      | succ fuel => exact (skipTrivia_space white _).trans (ih (Nat.lt_of_succ_lt_succ enough))
  | @line body trivia inside ends _ ih =>
      cases fuel with
      | zero => exact absurd enough (Nat.not_lt_zero _)
      | succ fuel =>
          have run := @takeWhile_run (· ≠ '\n') body (trivia ++ rest)
            (fun c member => by
              rw [decide_eq_true_eq]
              rintro rfl
              exact inside member)
            (fun c found => by
              rw [ends c found]
              rfl)
          have line := @skipTrivia_line fuel position (body ++ (trivia ++ rest))
          rw [run.1, run.2] at line
          have length : ('-' :: '-' :: (body ++ trivia)).length = body.length + trivia.length + 2 := by simp
          have more := @ih fuel (position.afterAll ('-' :: '-' :: body)) (by omega)
          rw [← line] at more
          rw [← afterAll_append] at more
          simpa using more
  | @block body trivia open_ _ ih =>
      cases fuel with
      | zero => exact absurd enough (Nat.not_lt_zero _)
      | succ fuel =>
          have closed : skipBlock position (body ++ '*' :: '/' :: (trivia ++ rest)) (position.afterAll ['/', '*']) =
              .ok ⟨trivia ++ rest, (position.afterAll ['/', '*']).afterAll (body ++ ['*', '/'])⟩ :=
            skipBlock_ok.mpr ⟨body, rfl, open_, rfl⟩
          have length : ('/' :: '*' :: (body ++ '*' :: '/' :: trivia)).length = body.length + trivia.length + 4 := by
            simp
            omega
          have more := @ih fuel ((position.afterAll ['/', '*']).afterAll (body ++ ['*', '/'])) (by omega)
          rw [← skipTrivia_block closed, ← afterAll_append, ← afterAll_append] at more
          simpa using more

/-- Enough fuel skips the whitespace and the comments of a text, or reports one that is not
closed. -/
theorem skipTrivia_total (text : List Char) {fuel : ℕ} {position : Position} (enough : text.length < fuel) :
    ∃ answer, skipTrivia fuel ⟨text, position⟩ = some answer := by
  induction fuel generalizing text position with
  | zero => exact absurd enough (Nat.not_lt_zero _)
  | succ fuel ih =>
      rcases startsTrivia_cases text with final | ⟨c, cs, rfl, white⟩ | ⟨cs, rfl⟩ | ⟨cs, rfl⟩
      · exact ⟨_, skipTrivia_stop final⟩
      · rw [skipTrivia_space white]
        exact ih cs (Nat.lt_of_succ_lt_succ enough)
      · rw [skipTrivia_line]
        have short := List.length_dropWhile_le (p := (· ≠ '\n')) cs
        have length : ('-' :: '-' :: cs).length = cs.length + 2 := rfl
        exact ih _ (by omega)
      · cases closed : skipBlock position cs (position.afterAll ['/', '*']) with
        | error error => exact ⟨_, skipTrivia_unclosed closed⟩
        | ok behind =>
            rw [skipTrivia_block closed]
            obtain ⟨body, rfl, _⟩ := skipBlock_ok.mp closed
            obtain ⟨rest, place⟩ := behind
            refine ih rest ?_
            simp at enough
            omega

/-! ## Quoted texts -/

theorem doubled_cons (quote c : Char) (content : List Char) :
    doubled quote (c :: content) = (if c = quote then [quote, quote] else [c]) ++ doubled quote content := rfl

/-- A quoted text ends with the first quote that is not doubled. -/
theorem quotedFrom_ok {quote : Char} {error : SqlError} {text : List Char} {position : Position} {content : List Char}
    {behind : Lexer} :
    quotedFrom quote error text position = .ok (content, behind) ↔
      text = doubled quote content ++ quote :: behind.rest ∧ behind.rest.head? ≠ some quote ∧
        behind.position = position.afterAll (doubled quote content ++ [quote]) := by
  constructor
  · intro found
    induction text, position using quotedFrom.induct quote generalizing content with
    | case1 position => cases found
    | case2 position =>
        rw [quotedFrom, if_pos rfl] at found
        cases found
        exact ⟨rfl, fun there => (by cases there), rfl⟩
    | case3 c position other =>
        rw [quotedFrom, if_neg other] at found
        cases found
    | case4 c next rest position both ih =>
        rw [quotedFrom, if_pos both] at found
        obtain ⟨⟨inner, last⟩, more, same⟩ := Result.bind_eq_ok.mp found
        cases same
        obtain ⟨rfl, ends, place⟩ := ih more
        obtain ⟨rfl, rfl⟩ := both
        rw [doubled_cons, if_pos rfl]
        exact ⟨rfl, ends, place⟩
    | case5 next rest position not_both =>
        rw [quotedFrom, if_neg not_both, if_pos rfl] at found
        cases found
        exact ⟨rfl, fun there => not_both ⟨rfl, Option.some.inj there⟩, rfl⟩
    | case6 c next rest position not_both other ih =>
        rw [quotedFrom, if_neg not_both, if_neg other] at found
        obtain ⟨⟨inner, last⟩, more, same⟩ := Result.bind_eq_ok.mp found
        cases same
        obtain ⟨whole, ends, place⟩ := ih more
        rw [doubled_cons, if_neg other, whole]
        exact ⟨rfl, ends, place⟩
  · rintro ⟨rfl, ends, place⟩
    obtain ⟨rest, last⟩ := behind
    dsimp only at ends place ⊢
    rw [place]
    clear place
    induction content generalizing position with
    | nil =>
        cases rest with
        | nil => exact if_pos rfl
        | cons next rest =>
            have single : ¬ (quote = quote ∧ next = quote) := fun both => ends (congrArg some both.2)
            exact (if_neg single).trans (if_pos rfl)
    | cons c cs ih =>
        rw [doubled_cons]
        by_cases same : c = quote
        · subst same
          rw [if_pos rfl]
          have more := @ih ((position.after c).after c)
          have text : [c, c] ++ doubled c cs ++ c :: rest = c :: c :: (doubled c cs ++ c :: rest) := rfl
          rw [text, quotedFrom, if_pos ⟨rfl, rfl⟩, more]
          rfl
        · rw [if_neg same]
          obtain ⟨next, tail, cut⟩ : ∃ next tail, doubled quote cs ++ quote :: rest = next :: tail := by
            cases doubled quote cs with
            | nil => exact ⟨_, _, rfl⟩
            | cons d ds => exact ⟨_, _, rfl⟩
          have more := @ih (position.after c)
          have text : [c] ++ doubled quote cs ++ quote :: rest = c :: next :: tail := congrArg (c :: ·) cut
          rw [text, quotedFrom, if_neg (fun both => same both.1), if_neg same, ← cut, more]
          rfl

/-! ## Symbols -/

/-- The symbol in front of a text is the longest one. -/
theorem symbol_some {text : List Char} {token : Token} {length : ℕ} (found : symbol text = some (token, length)) :
    ∃ front rest, text = front ++ rest ∧ front.length = length ∧ (token, front) ∈ symbolTexts ∧
      (token = .minus ∨ ∀ c ∈ extending token, rest.head? ≠ some c) := by
  have alone : ∀ {c : Char}, c ∈ ([] : List Char) → ∀ rest : List Char, rest.head? ≠ some c :=
    fun member => absurd member List.not_mem_nil
  unfold symbol at found
  split at found
  all_goals cases found
  case h_13 rest greater equal =>
    refine ⟨['<'], rest, rfl, rfl, by decide, .inr fun c member head => ?_⟩
    obtain ⟨tail, rfl⟩ := List.head?_eq_some_iff.mp head
    rcases List.mem_cons.mp member with rfl | member
    · exact equal tail rfl
    · rw [List.mem_singleton.mp member] at greater
      exact greater tail rfl
  case h_15 rest equal =>
    refine ⟨['>'], rest, rfl, rfl, by decide, .inr fun c member head => ?_⟩
    obtain ⟨tail, rfl⟩ := List.head?_eq_some_iff.mp head
    rw [List.mem_singleton.mp member] at equal
    exact equal tail rfl
  all_goals first
    | exact ⟨[_], _, rfl, rfl, by decide, .inl rfl⟩
    | exact ⟨[_], _, rfl, rfl, by decide, .inr fun c member => alone member _⟩
    | exact ⟨[_, _], _, rfl, rfl, by decide, .inr fun c member => alone member _⟩

theorem symbol_of_mem {token : Token} {text rest : List Char} (member : (token, text) ∈ symbolTexts)
    (ends : ∀ c ∈ extending token, rest.head? ≠ some c) : symbol (text ++ rest) = some (token, text.length) := by
  simp only [symbolTexts, List.mem_cons, Prod.mk.injEq, List.not_mem_nil, or_false] at member
  rcases member with ⟨rfl, rfl⟩ | ⟨rfl, rfl⟩ | ⟨rfl, rfl⟩ | ⟨rfl, rfl⟩ | ⟨rfl, rfl⟩ | ⟨rfl, rfl⟩ | ⟨rfl, rfl⟩ | ⟨rfl, rfl⟩ |
    ⟨rfl, rfl⟩ | ⟨rfl, rfl⟩ | ⟨rfl, rfl⟩ | ⟨rfl, rfl⟩ | ⟨rfl, rfl⟩ | ⟨rfl, rfl⟩ | ⟨rfl, rfl⟩ <;> try rfl
  · have equal := ends '=' (by decide)
    have greater := ends '>' (by decide)
    cases rest with
    | nil => rfl
    | cons c cs =>
        rw [List.head?_cons] at equal greater
        rw [List.singleton_append, symbol] <;> simp_all
  · have equal := ends '=' (by decide)
    cases rest with
    | nil => rfl
    | cons c cs =>
        rw [List.head?_cons] at equal
        rw [List.singleton_append, symbol] <;> simp_all

/-! ## Numbers and words -/

theorem isWordChar_eq (c : Char) : isWordChar c = (isWordStart c || c.isDigit) := by
  change ((c.isAlpha || c.isDigit) || c == '_') = ((c.isAlpha || c == '_') || c.isDigit)
  rw [Bool.or_right_comm]

/-- No letter, no `_` and no digit follows. -/
theorem ends_iff {rest : List Char} : (∀ c, rest.head? = some c → isWordChar c = false) ↔
    rest[0]?.any isWordStart = false ∧ ∀ c, rest.head? = some c → c.isDigit = false := by
  cases rest with
  | nil => simp
  | cons c cs =>
      rw [List.head?_cons]
      constructor
      · intro ends
        have here := ends c rfl
        rw [isWordChar_eq, Bool.or_eq_false_iff] at here
        exact ⟨here.1, fun d same => Option.some.inj same ▸ here.2⟩
      · rintro ⟨start, digit⟩ d same
        obtain rfl := Option.some.inj same
        rw [isWordChar_eq, Bool.or_eq_false_iff]
        exact ⟨start, digit c rfl⟩

section Numbers
variable {text rest : List Char} {position : Position}

theorem fraction_none (point : ∀ c, rest[0]? = some '.' → rest[1]? = some c → c.isDigit = false) :
    fraction ⟨rest, position⟩ = none := by
  refine if_neg ?_
  rintro ⟨dot, digit⟩
  obtain ⟨c, found, digit⟩ := (Option.any_eq_true _ _).mp digit
  rw [point c dot found] at digit
  cases digit

theorem fraction_some {digits : List Char} (some_ : digits ≠ []) (form : ∀ c ∈ digits, c.isDigit = true)
    (ends : ∀ c, rest.head? = some c → c.isDigit = false) :
    fraction ⟨'.' :: (digits ++ rest), position⟩ = some (digits, ⟨rest, position.afterAll ('.' :: digits)⟩) := by
  obtain ⟨taken, dropped⟩ := takeWhile_run form ends
  have digit : ('.' :: (digits ++ rest))[1]?.any Char.isDigit = true := by
    cases digits with
    | nil => exact absurd rfl some_
    | cons d ds => exact form d List.mem_cons_self
  refine (if_pos ⟨rfl, digit⟩).trans (congrArg some ?_)
  exact (takeChars_eq Char.isDigit (digits ++ rest) (position.after '.')).trans (by rw [taken, dropped]; rfl)

/-- The digits behind a point, or no digit behind a point. -/
theorem fraction_cases (rest : List Char) (position : Position) :
    (fraction ⟨rest, position⟩ = none ∧ ∀ c, rest[0]? = some '.' → rest[1]? = some c → c.isDigit = false) ∨
      ∃ digits behind, rest = '.' :: (digits ++ behind) ∧ digits ≠ [] ∧ (∀ c ∈ digits, c.isDigit = true) ∧
        (∀ c, behind.head? = some c → c.isDigit = false) := by
  by_cases point : ∀ c, rest[0]? = some '.' → rest[1]? = some c → c.isDigit = false
  · exact .inl ⟨fraction_none point, point⟩
  · simp only [not_forall] at point
    obtain ⟨d, dot, next, digit⟩ := point
    obtain ⟨more, rfl⟩ := @peekAt_cases rest position '.' d dot next
    rw [Bool.not_eq_false] at digit
    refine .inr ⟨(d :: more).takeWhile Char.isDigit, (d :: more).dropWhile Char.isDigit, ?_, ?_, ?_, head_dropWhile _⟩
    · rw [List.takeWhile_append_dropWhile]
    · rw [List.takeWhile_cons, digit]
      exact List.cons_ne_nil _ _
    · exact fun c member => List.mem_takeWhile_imp member

theorem number_integer {digits : List Char} (form : ∀ c ∈ digits, c.isDigit = true) (small : value digits < 2 ^ 64)
    (ends : ∀ c, rest.head? = some c → isWordChar c = false)
    (point : ∀ c, rest[0]? = some '.' → rest[1]? = some c → c.isDigit = false) :
    number ⟨digits ++ rest, position⟩ = .ok (.integer (UInt64.ofNat (value digits)), ⟨rest, position.afterAll digits⟩) := by
  obtain ⟨start, digit⟩ := ends_iff.mp ends
  obtain ⟨taken, dropped⟩ := takeWhile_run form digit
  have whole : Lexer.digits ⟨digits ++ rest, position⟩ = (digits, ⟨rest, position.afterAll digits⟩) :=
    (takeChars_eq Char.isDigit (digits ++ rest) position).trans (by rw [taken, dropped])
  rw [number, whole]
  dsimp only
  rw [fraction_none point]
  exact (if_neg (Bool.eq_false_iff.mp start)).trans (if_pos small)

theorem number_float {whole fraction : List Char} (some_ : fraction ≠ []) (form : ∀ c ∈ whole ++ fraction, c.isDigit = true)
    (ends : ∀ c, rest.head? = some c → isWordChar c = false) :
    number ⟨whole ++ '.' :: fraction ++ rest, position⟩ =
      .ok (.float (whole ++ '.' :: fraction), ⟨rest, position.afterAll (whole ++ '.' :: fraction)⟩) := by
  obtain ⟨start, digit⟩ := ends_iff.mp ends
  obtain ⟨front, back⟩ := List.forall_mem_append.mp form
  obtain ⟨taken, dropped⟩ := @takeWhile_run Char.isDigit whole ('.' :: (fraction ++ rest)) front
    (fun c found => by cases found; rfl)
  have text : whole ++ '.' :: fraction ++ rest = whole ++ '.' :: (fraction ++ rest) := by simp
  have digits : Lexer.digits ⟨whole ++ '.' :: (fraction ++ rest), position⟩ =
      (whole, ⟨'.' :: (fraction ++ rest), position.afterAll whole⟩) :=
    (takeChars_eq Char.isDigit (whole ++ '.' :: (fraction ++ rest)) position).trans (by rw [taken, dropped])
  rw [text, number, digits]
  dsimp only
  rw [fraction_some some_ back digit, ← afterAll_append]
  exact if_neg (Bool.eq_false_iff.mp start)

/-- A number is written as one. -/
theorem number_ok {c : Char} {cs : List Char} {token : Token} {behind : Lexer} (first : c.isDigit = true)
    (found : number ⟨c :: cs, position⟩ = .ok (token, behind)) :
    ∃ front, c :: cs = front ++ behind.rest ∧ behind.position = position.afterAll front ∧ Written behind.rest token front ∧ front ≠ [] := by
  obtain ⟨digits, tail, text, some_, form, ends⟩ :
      ∃ digits tail, c :: cs = digits ++ tail ∧ digits ≠ [] ∧ (∀ c ∈ digits, c.isDigit = true) ∧
        ∀ c, tail.head? = some c → c.isDigit = false := by
    refine ⟨(c :: cs).takeWhile Char.isDigit, (c :: cs).dropWhile Char.isDigit, ?_, ?_, ?_, head_dropWhile _⟩
    · rw [List.takeWhile_append_dropWhile]
    · rw [List.takeWhile_cons, first]
      exact List.cons_ne_nil _ _
    · exact fun c member => List.mem_takeWhile_imp member
  obtain ⟨taken, dropped⟩ := takeWhile_run form ends
  have whole : Lexer.digits ⟨c :: cs, position⟩ = (digits, ⟨tail, position.afterAll digits⟩) :=
    (takeChars_eq Char.isDigit (c :: cs) position).trans (by rw [text, taken, dropped])
  rw [number, whole] at found
  dsimp only at found
  rcases fraction_cases tail (position.afterAll digits) with ⟨none_, point⟩ | ⟨more, rest, rfl, more_some, more_form, more_ends⟩
  · rw [none_] at found
    dsimp only at found
    split at found
    · cases found
    · rename_i start
      split at found
      · rename_i small
        cases found
        refine ⟨digits, text, rfl, .integer some_ form small (ends_iff.mpr ⟨Bool.eq_false_iff.mpr start, ends⟩) point, some_⟩
      · cases found
  · rw [fraction_some more_some more_form more_ends] at found
    dsimp only at found
    split at found
    · cases found
    · rename_i start
      cases found
      refine ⟨digits ++ '.' :: more, by rw [text]; simp, ?_, ?_, by simp⟩
      · rw [afterAll_append]
      · exact .float ⟨some_, more_some⟩ (List.forall_mem_append.mpr ⟨form, more_form⟩)
          (ends_iff.mpr ⟨Bool.eq_false_iff.mpr start, more_ends⟩)

end Numbers

theorem isUpper_iff (c : Char) : c.isUpper = true ↔ 65 ≤ c.toNat ∧ c.toNat ≤ 90 := by
  change decide (c.val ≥ 'A'.val ∧ c.val ≤ 'Z'.val) = true ↔ _
  rw [decide_eq_true_eq, ge_iff_le, UInt32.le_iff_toNat_le, UInt32.le_iff_toNat_le]
  rfl

theorem isLower_iff (c : Char) : c.isLower = true ↔ 97 ≤ c.toNat ∧ c.toNat ≤ 122 := by
  change (decide (c.val ≥ 'a'.val) && decide (c.val ≤ 'z'.val)) = true ↔ _
  rw [Bool.and_eq_true, decide_eq_true_eq, decide_eq_true_eq, ge_iff_le, UInt32.le_iff_toNat_le, UInt32.le_iff_toNat_le]
  rfl

theorem isDigit_iff (c : Char) : c.isDigit = true ↔ 48 ≤ c.toNat ∧ c.toNat ≤ 57 := by
  change (decide (c.val ≥ '0'.val) && decide (c.val ≤ '9'.val)) = true ↔ _
  rw [Bool.and_eq_true, decide_eq_true_eq, decide_eq_true_eq, ge_iff_le, UInt32.le_iff_toNat_le, UInt32.le_iff_toNat_le]
  rfl

theorem isWordStart_iff (c : Char) : isWordStart c = true ↔
    (65 ≤ c.toNat ∧ c.toNat ≤ 90 ∨ 97 ≤ c.toNat ∧ c.toNat ≤ 122) ∨ c = '_' := by
  change ((c.isUpper || c.isLower) || c == '_') = true ↔ _
  rw [Bool.or_eq_true, Bool.or_eq_true, isUpper_iff, isLower_iff, beq_iff_eq]

/-- The places of the characters of words. -/
theorem wordChar_range {c : Char} (inside : isWordChar c = true) :
    48 ≤ c.toNat ∧ c.toNat ≤ 57 ∨ 65 ≤ c.toNat ∧ c.toNat ≤ 90 ∨ c.toNat = 95 ∨ 97 ≤ c.toNat ∧ c.toNat ≤ 122 := by
  rw [isWordChar_eq, Bool.or_eq_true, isWordStart_iff, isDigit_iff] at inside
  rcases inside with ((upper | lower) | rfl) | digit
  · exact .inr (.inl upper)
  · exact .inr (.inr (.inr lower))
  · exact .inr (.inr (.inl rfl))
  · exact .inl digit

theorem whitespace_range {c : Char} (white : isWhitespace c = true) :
    c.toNat ≤ 32 ∨ 133 ≤ c.toNat := by
  simp only [isWhitespace, Bool.or_eq_true, Bool.and_eq_true, decide_eq_true_eq, beq_iff_eq] at white
  omega

/-- The first characters of tokens other than symbols. -/
def StartsToken (c : Char) : Prop := isWordChar c = true ∨ c = singleQuote ∨ c = doubleQuote

theorem StartsToken.dark {c : Char} (starts : StartsToken c) : isWhitespace c = false ∧ c ≠ '-' ∧ c ≠ '/' := by
  rcases starts with inside | rfl | rfl
  · have range := wordChar_range inside
    refine ⟨Bool.eq_false_iff.mpr fun white => ?_, ?_, ?_⟩
    · have far := whitespace_range white
      omega
    · rintro rfl
      exact absurd inside (by decide)
    · rintro rfl
      exact absurd inside (by decide)
  · decide
  · decide

theorem symbolTexts_heads : ∀ entry ∈ symbolTexts, entry.2.head?.any
    (fun c => !isWordChar c && c != singleQuote && c != doubleQuote && !isWhitespace c && c != '/') = true := by decide

theorem symbolTexts_minus : ∀ entry ∈ symbolTexts, entry.2.head? = some '-' → entry = (.minus, ['-']) := by decide

theorem symbol_none {c : Char} (starts : StartsToken c) (cs : List Char) : symbol (c :: cs) = none := by
  cases found : symbol (c :: cs) with
  | none => rfl
  | some entry =>
      obtain ⟨token, length⟩ := entry
      obtain ⟨front, rest, text, _, member, _⟩ := symbol_some found
      have head := symbolTexts_heads _ member
      cases front with
      | nil => cases head
      | cons d ds =>
          obtain rfl := (List.cons.inj text).1
          simp only [List.head?_cons, Option.any_some, Bool.and_eq_true, Bool.not_eq_true', bne_iff_ne] at head
          obtain ⟨⟨⟨⟨word, single⟩, double⟩, _⟩, _⟩ := head
          rcases starts with inside | same | same
          · rw [word] at inside
            cases inside
          · exact absurd same single
          · exact absurd same double

/-- The letters of a reserved word. -/
def letters : Keyword → List Char
  | .kwAnd => ['A', 'N', 'D']
  | .kwAs => ['A', 'S']
  | .kwAsc => ['A', 'S', 'C']
  | .kwBegin => ['B', 'E', 'G', 'I', 'N']
  | .kwBy => ['B', 'Y']
  | .kwCascade => ['C', 'A', 'S', 'C', 'A', 'D', 'E']
  | .kwCommit => ['C', 'O', 'M', 'M', 'I', 'T']
  | .kwCross => ['C', 'R', 'O', 'S', 'S']
  | .kwDelete => ['D', 'E', 'L', 'E', 'T', 'E']
  | .kwDesc => ['D', 'E', 'S', 'C']
  | .kwDistinct => ['D', 'I', 'S', 'T', 'I', 'N', 'C', 'T']
  | .kwExcept => ['E', 'X', 'C', 'E', 'P', 'T']
  | .kwFalse => ['F', 'A', 'L', 'S', 'E']
  | .kwFrom => ['F', 'R', 'O', 'M']
  | .kwFull => ['F', 'U', 'L', 'L']
  | .kwGroup => ['G', 'R', 'O', 'U', 'P']
  | .kwHaving => ['H', 'A', 'V', 'I', 'N', 'G']
  | .kwIn => ['I', 'N']
  | .kwInner => ['I', 'N', 'N', 'E', 'R']
  | .kwInsert => ['I', 'N', 'S', 'E', 'R', 'T']
  | .kwIntersect => ['I', 'N', 'T', 'E', 'R', 'S', 'E', 'C', 'T']
  | .kwInto => ['I', 'N', 'T', 'O']
  | .kwIs => ['I', 'S']
  | .kwJoin => ['J', 'O', 'I', 'N']
  | .kwLeft => ['L', 'E', 'F', 'T']
  | .kwLike => ['L', 'I', 'K', 'E']
  | .kwLimit => ['L', 'I', 'M', 'I', 'T']
  | .kwNatural => ['N', 'A', 'T', 'U', 'R', 'A', 'L']
  | .kwNot => ['N', 'O', 'T']
  | .kwNull => ['N', 'U', 'L', 'L']
  | .kwOffset => ['O', 'F', 'F', 'S', 'E', 'T']
  | .kwOn => ['O', 'N']
  | .kwOr => ['O', 'R']
  | .kwOrder => ['O', 'R', 'D', 'E', 'R']
  | .kwOuter => ['O', 'U', 'T', 'E', 'R']
  | .kwRestrict => ['R', 'E', 'S', 'T', 'R', 'I', 'C', 'T']
  | .kwRight => ['R', 'I', 'G', 'H', 'T']
  | .kwRollback => ['R', 'O', 'L', 'L', 'B', 'A', 'C', 'K']
  | .kwSelect => ['S', 'E', 'L', 'E', 'C', 'T']
  | .kwSet => ['S', 'E', 'T']
  | .kwTransaction => ['T', 'R', 'A', 'N', 'S', 'A', 'C', 'T', 'I', 'O', 'N']
  | .kwTrue => ['T', 'R', 'U', 'E']
  | .kwUnion => ['U', 'N', 'I', 'O', 'N']
  | .kwUpdate => ['U', 'P', 'D', 'A', 'T', 'E']
  | .kwUsing => ['U', 'S', 'I', 'N', 'G']
  | .kwValues => ['V', 'A', 'L', 'U', 'E', 'S']
  | .kwWhere => ['W', 'H', 'E', 'R', 'E']

theorem toList_asStr (keyword : Keyword) : keyword.asStr.toList = letters keyword := by
  have text : keyword.asStr = String.ofList (letters keyword) := by
    cases keyword <;> rfl
  rw [text, String.toList_ofList]

theorem upper_letters : ∀ keyword ∈ Keyword.all, (!(letters keyword).isEmpty && (letters keyword).all Char.isUpper) = true := by
  decide

theorem find_letters : ∀ keyword ∈ Keyword.all,
    (Keyword.all.find? fun other => lower (letters other) == lower (letters keyword)) = some keyword := by
  decide

theorem mem_all (keyword : Keyword) : keyword ∈ Keyword.all := by
  cases keyword <;> exact List.mem_of_elem_eq_true rfl

theorem upper_texts (keyword : Keyword) :
    (!keyword.asStr.toList.isEmpty && keyword.asStr.toList.all Char.isUpper) = true := by
  rw [toList_asStr]
  exact upper_letters keyword (mem_all keyword)

theorem fromWord_asStr (keyword : Keyword) : Keyword.fromWord keyword.asStr.toList = some keyword := by
  simp only [Keyword.fromWord, toList_asStr]
  exact find_letters keyword (mem_all keyword)

/-- A reserved word in any case is the reserved word. -/
theorem fromWord_of_lower {keyword : Keyword} {word : List Char} (same : lower keyword.asStr.toList = lower word) :
    Keyword.fromWord word = some keyword := by
  have found := fromWord_asStr keyword
  rwa [Keyword.fromWord, same] at found

theorem isAlpha_of_toLower {c u : Char} (upper : u.isUpper = true) (same : c.toLower = u.toLower) : c.isAlpha = true := by
  have range := (isUpper_iff u).mp upper
  change (c.isUpper || c.isLower) = true
  rw [Bool.or_eq_true]
  by_cases here : c.val ≥ 'A'.val ∧ c.val ≤ 'Z'.val
  · exact .inl ((isUpper_iff c).mpr here)
  · right
    have there : u.val ≥ 'A'.val ∧ u.val ≤ 'Z'.val := range
    have kept : c.toLower = c := dif_neg here
    have lowered : u.toLower.toNat = (u.val + 32).toNat := congrArg Char.toNat (dif_pos there)
    rw [← same, kept, UInt32.toNat_add] at lowered
    change c.toNat = (u.toNat + 32) % 2 ^ 32 at lowered
    rw [isLower_iff]
    omega

theorem isWord_of_lower {keyword : Keyword} {word : List Char} (same : lower keyword.asStr.toList = lower word) : IsWord word := by
  have texts := upper_texts keyword
  rw [Bool.and_eq_true, Bool.not_eq_true', List.isEmpty_eq_false_iff, List.all_eq_true] at texts
  obtain ⟨some_, upper⟩ := texts
  have letters : ∀ c ∈ word, c.isAlpha = true := by
    intro c member
    have inside : c.toLower ∈ lower keyword.asStr.toList := by
      rw [same]
      exact List.mem_map_of_mem member
    obtain ⟨u, there, lowered⟩ := List.mem_map.mp inside
    exact isAlpha_of_toLower (upper u there) lowered.symm
  cases word with
  | nil => exact absurd (List.map_eq_nil_iff.mp same) some_
  | cons c cs =>
      obtain ⟨first, others⟩ := List.forall_mem_cons.mp letters
      refine ⟨?_, fun d member => ?_⟩
      · rw [isWordStart, first]
        rfl
      · rw [isWordChar_eq, isWordStart, others d member]
        rfl

theorem startsToken_of_isWord {word : List Char} (form : IsWord word) : ∃ c cs, word = c :: cs ∧ isWordStart c = true ∧
    StartsToken c := by
  cases word with
  | nil => exact form.elim
  | cons c cs =>
      refine ⟨c, cs, rfl, form.1, .inl ?_⟩
      rw [isWordChar_eq, form.1]
      rfl

theorem startsToken_of_digits {digits : List Char} (some_ : digits ≠ []) (form : ∀ c ∈ digits, c.isDigit = true) :
    ∃ c cs, digits = c :: cs ∧ c.isDigit = true ∧ StartsToken c := by
  cases digits with
  | nil => exact absurd rfl some_
  | cons c cs =>
      have digit := form c List.mem_cons_self
      refine ⟨c, cs, rfl, digit, .inl ?_⟩
      rw [isWordChar_eq, digit, Bool.or_true]

/-- No text of a token begins like a comment or with whitespace. -/
theorem not_startsTrivia {rest text : List Char} {token : Token} (written : Written rest token text) :
    text ≠ [] ∧ ¬ StartsTrivia (text ++ rest) := by
  have plain : ∀ {c : Char} {cs : List Char}, StartsToken c → c :: cs ≠ [] ∧ ¬ StartsTrivia (c :: cs ++ rest) := by
    intro c cs starts
    refine ⟨List.cons_ne_nil _ _, ?_⟩
    rintro (white | ⟨dash, _⟩ | ⟨slash, _⟩)
    · have dark : isWhitespace c = true := white
      rw [starts.dark.1] at dark
      cases dark
    · exact starts.dark.2.1 (Option.some.inj dash)
    · exact starts.dark.2.2 (Option.some.inj slash)
  cases written with
  | keyword same _ =>
      obtain ⟨c, cs, rfl, _, starts⟩ := startsToken_of_isWord (isWord_of_lower same)
      exact plain starts
  | identifier form _ _ =>
      obtain ⟨c, cs, rfl, _, starts⟩ := startsToken_of_isWord form
      exact plain starts
  | quoted _ _ => exact plain (.inr (.inr rfl))
  | string _ => exact plain (.inr (.inl rfl))
  | integer some_ form _ _ _ =>
      obtain ⟨c, cs, rfl, _, starts⟩ := startsToken_of_digits some_ form
      exact plain starts
  | @float whole fraction some_ form _ =>
      obtain ⟨c, cs, rfl, _, starts⟩ := startsToken_of_digits some_.1 (List.forall_mem_append.mp form).1
      exact plain starts
  | symbol form ends =>
      have head := symbolTexts_heads _ form
      cases text with
      | nil => cases head
      | cons c cs =>
          refine ⟨List.cons_ne_nil _ _, ?_⟩
          simp only [List.head?_cons, Option.any_some, Bool.and_eq_true, Bool.not_eq_true', bne_iff_ne] at head
          rintro (white | ⟨dash, next⟩ | ⟨slash, _⟩)
          · have dark : isWhitespace c = true := white
            rw [head.1.2] at dark
            cases dark
          · have minus := symbolTexts_minus _ form dash
            cases minus
            exact ends '-' List.mem_cons_self (by rw [List.head?_eq_getElem?]; exact next)
          · exact head.2 (Option.some.inj slash)

/-! ## One token -/

section Token
variable {position : Position} {rest text : List Char} {token : Token}

theorem nextToken_symbol {c : Char} {cs : List Char} {length : ℕ} (found : symbol (c :: cs) = some (token, length)) :
    nextToken ⟨c :: cs, position⟩ = .ok (token, (⟨c :: cs, position⟩ : Lexer).bumps length) := by
  rw [nextToken]
  dsimp only
  rw [found]

theorem nextToken_other {c : Char} {cs : List Char} (none_ : symbol (c :: cs) = none) :
    nextToken ⟨c :: cs, position⟩ = otherToken ⟨c :: cs, position⟩ c := by
  rw [nextToken]
  dsimp only
  rw [none_]

theorem otherToken_single (lexer : Lexer) : otherToken lexer singleQuote =
    (lexer.quoted singleQuote "unterminated string literal").map fun read => (.string read.1, read.2) := by
  rw [otherToken, if_pos rfl]
  cases lexer.quoted singleQuote "unterminated string literal" <;> rfl

theorem otherToken_double (lexer : Lexer) : otherToken lexer doubleQuote =
    (lexer.quoted doubleQuote "unterminated quoted identifier") >>= fun read =>
      if read.1 = [] then .error (lexer.position.error "quoted identifier cannot be empty") else .ok (.identifier read.1, read.2) := by
  rw [otherToken, if_neg (by decide), if_pos rfl]
  rfl

/-- A digit or a letter is none of the characters with a meaning of their own. -/
theorem wordChar_plain {c : Char} (inside : isWordChar c = true) :
    c ≠ singleQuote ∧ c ≠ doubleQuote ∧ c ≠ backtick ∧ ¬ (c = ':' ∨ c = '$' ∨ c = '@') := by
  refine ⟨?_, ?_, ?_, ?_⟩
  · rintro rfl
    exact absurd inside (by decide)
  · rintro rfl
    exact absurd inside (by decide)
  · rintro rfl
    exact absurd inside (by decide)
  · rintro (rfl | rfl | rfl) <;> exact absurd inside (by decide)

theorem otherToken_digit {lexer : Lexer} {c : Char} (digit : c.isDigit = true) : otherToken lexer c = lexer.number := by
  obtain ⟨single, double, tick, sigil⟩ := wordChar_plain (c := c) (by rw [isWordChar_eq, digit, Bool.or_true])
  rw [otherToken, if_neg single, if_neg double, if_neg tick, if_neg sigil, if_pos digit]

theorem otherToken_word {lexer : Lexer} {c : Char} (start : isWordStart c = true) : otherToken lexer c = .ok lexer.word := by
  obtain ⟨single, double, tick, sigil⟩ := wordChar_plain (c := c) (by rw [isWordChar_eq, start, Bool.true_or])
  have other : ¬ c.isDigit = true := by
    rw [isDigit_iff]
    rcases (isWordStart_iff c).mp start with (upper | lower) | rfl
    · omega
    · omega
    · decide
  rw [otherToken, if_neg single, if_neg double, if_neg tick, if_neg sigil, if_neg other, if_pos start]

theorem word_eq {word : List Char} (form : IsWord word) (ends : ∀ c, rest.head? = some c → isWordChar c = false) :
    Lexer.word ⟨word ++ rest, position⟩ =
      (((Keyword.fromWord word).map Token.keyword).getD (.identifier word), ⟨rest, position.afterAll word⟩) := by
  have inside : ∀ c ∈ word, isWordChar c = true := by
    cases word with
    | nil => exact form.elim
    | cons c cs =>
        refine List.forall_mem_cons.mpr ⟨?_, form.2⟩
        rw [isWordChar_eq, form.1]
        rfl
  obtain ⟨taken, dropped⟩ := takeWhile_run inside ends
  rw [Lexer.word, takeChars_eq, taken, dropped]
  dsimp only
  cases Keyword.fromWord word <;> rfl

/-- A quoted text behind its first quote. -/
theorem quoted_ok {quote : Char} {unterminated : String} {content : List Char} {behind : Lexer} {cs : List Char} :
    quoted ⟨quote :: cs, position⟩ quote unterminated = .ok (content, behind) ↔
      quote :: cs = quote :: (doubled quote content ++ [quote]) ++ behind.rest ∧ behind.rest.head? ≠ some quote ∧
        behind.position = position.afterAll (quote :: (doubled quote content ++ [quote])) := by
  have text : quote :: (doubled quote content ++ [quote]) ++ behind.rest = quote :: (doubled quote content ++ quote :: behind.rest) := by
    simp
  rw [text, List.cons_inj_right]
  exact quotedFrom_ok

/-- What is written for a token is read as the token. -/
theorem nextToken_of_written (written : Written rest token text) :
    nextToken ⟨text ++ rest, position⟩ = .ok (token, ⟨rest, position.afterAll text⟩) := by
  cases written with
  | @keyword keyword word same ends =>
      have form := isWord_of_lower same
      obtain ⟨c, cs, rfl, start, starts⟩ := startsToken_of_isWord form
      have read := @word_eq position rest _ form ends
      rw [fromWord_of_lower same] at read
      exact (nextToken_other (symbol_none starts _)).trans ((otherToken_word start).trans (congrArg Except.ok read))
  | identifier form free ends =>
      obtain ⟨c, cs, rfl, start, starts⟩ := startsToken_of_isWord form
      have read := @word_eq position rest _ form ends
      rw [free] at read
      exact (nextToken_other (symbol_none starts _)).trans ((otherToken_word start).trans (congrArg Except.ok read))
  | @quoted name some_ ends =>
      have read := (@quoted_ok position doubleQuote "unterminated quoted identifier" name
        ⟨rest, position.afterAll (doubleQuote :: (doubled doubleQuote name ++ [doubleQuote]))⟩ _).mpr ⟨rfl, ends, rfl⟩
      refine (nextToken_other (symbol_none (.inr (.inr rfl)) _)).trans ((otherToken_double _).trans ?_)
      exact Result.bind_eq_ok.mpr ⟨_, read, if_neg some_⟩
  | @string content ends =>
      have read := (@quoted_ok position singleQuote "unterminated string literal" content
        ⟨rest, position.afterAll (singleQuote :: (doubled singleQuote content ++ [singleQuote]))⟩ _).mpr ⟨rfl, ends, rfl⟩
      refine (nextToken_other (symbol_none (.inr (.inl rfl)) _)).trans ((otherToken_single _).trans ?_)
      exact congrArg (Except.map _) read
  | integer some_ form small ends point =>
      obtain ⟨c, cs, rfl, digit, starts⟩ := startsToken_of_digits some_ form
      exact (nextToken_other (symbol_none starts _)).trans ((otherToken_digit digit).trans (number_integer form small ends point))
  | @float whole fraction some_ form ends =>
      obtain ⟨c, cs, rfl, digit, starts⟩ := startsToken_of_digits some_.1 (List.forall_mem_append.mp form).1
      exact (nextToken_other (symbol_none starts _)).trans ((otherToken_digit digit).trans (number_float some_.2 form ends))
  | symbol form ends =>
      have found := symbol_of_mem form ends
      have moved := bumps_append text rest position
      cases text with
      | nil => exact absurd rfl (not_startsTrivia (.symbol form ends)).1
      | cons c cs =>
          refine (nextToken_symbol found).trans ?_
          exact congrArg (fun behind => Except.ok (token, behind)) moved

/-- What is read as a token is written for it. -/
theorem nextToken_ok {c : Char} {cs : List Char} {behind : Lexer} (final : ¬ StartsTrivia (c :: cs))
    (read : nextToken ⟨c :: cs, position⟩ = .ok (token, behind)) :
    ∃ front, c :: cs = front ++ behind.rest ∧ behind.position = position.afterAll front ∧ Written behind.rest token front := by
  cases found : symbol (c :: cs) with
  | some entry =>
      obtain ⟨symbol, length⟩ := entry
      rw [nextToken_symbol found] at read
      cases read
      obtain ⟨front, rest, text, rfl, member, ends⟩ := symbol_some found
      have moved := bumps_append front rest position
      rw [← text] at moved
      rw [moved]
      refine ⟨front, text, rfl, .symbol member ?_⟩
      rcases ends with rfl | ends
      · have single : ∀ entry ∈ symbolTexts, entry.1 = .minus → entry.2 = ['-'] := by decide
        obtain rfl := single _ member rfl
        intro d dash next
        rw [List.mem_singleton.mp dash] at next
        obtain ⟨tail, rfl⟩ := List.head?_eq_some_iff.mp next
        rw [text] at final
        exact final (startsTrivia_dashes tail)
      · exact ends
  | none =>
      rw [nextToken_other found, otherToken] at read
      split at read
      · rename_i single
        subst single
        obtain ⟨⟨content, last⟩, inner, same⟩ := Result.bind_eq_ok.mp read
        cases same
        obtain ⟨text, ends, place⟩ := quoted_ok.mp inner
        exact ⟨_, text, place, .string ends⟩
      · split at read
        · rename_i double
          subst double
          obtain ⟨⟨name, last⟩, inner, same⟩ := Result.bind_eq_ok.mp read
          dsimp only at same
          split at same
          · cases same
          · rename_i some_
            cases same
            obtain ⟨text, ends, place⟩ := quoted_ok.mp inner
            exact ⟨_, text, place, .quoted some_ ends⟩
        · split at read
          · cases read
          · split at read
            · cases read
            · split at read
              · rename_i digit
                obtain ⟨front, text, place, written, _⟩ := number_ok digit read
                exact ⟨front, text, place, written⟩
              · split at read
                · rename_i start
                  have form : IsWord ((c :: cs).takeWhile isWordChar) := by
                    have inside : isWordChar c = true := by
                      rw [isWordChar_eq, start, Bool.true_or]
                    rw [List.takeWhile_cons, inside]
                    exact ⟨start, fun d member => List.mem_takeWhile_imp member⟩
                  have ends := @head_dropWhile isWordChar (c :: cs)
                  have text : (c :: cs).takeWhile isWordChar ++ (c :: cs).dropWhile isWordChar = c :: cs :=
                    List.takeWhile_append_dropWhile
                  have word := @word_eq position _ _ form ends
                  rw [text] at word
                  rw [word] at read
                  refine ⟨(c :: cs).takeWhile isWordChar, ?_⟩
                  cases known : Keyword.fromWord ((c :: cs).takeWhile isWordChar) with
                  | some keyword =>
                      rw [known] at read
                      cases read
                      have same := List.find?_some known
                      exact ⟨text.symm, rfl, .keyword (eq_of_beq same) ends⟩
                  | none =>
                      rw [known] at read
                      cases read
                      exact ⟨text.symm, rfl, .identifier form known ends⟩
                · cases read

end Token

/-! ## All tokens -/

/-- Only the end of the text is read as the end. -/
theorem nextToken_eof {text : List Char} {position : Position} {behind : Lexer} (final : ¬ StartsTrivia text)
    (read : nextToken ⟨text, position⟩ = .ok (.eof, behind)) : text = [] := by
  cases text with
  | nil => rfl
  | cons c cs =>
      obtain ⟨front, _, _, written⟩ := nextToken_ok final read
      cases written with
      | symbol form _ =>
          have none_ : ∀ entry ∈ symbolTexts, entry.1 ≠ .eof := by decide
          exact absurd rfl (none_ _ form)

theorem written_ne_eof {rest text : List Char} {token : Token} (written : Written rest token text) : token ≠ .eof := by
  cases written with
  | symbol form _ =>
      have none_ : ∀ entry ∈ symbolTexts, entry.1 ≠ .eof := by decide
      exact none_ _ form
  | _ => exact Token.noConfusion

section Loop
variable {fuel : ℕ} {lexer behind last : Lexer} {token : Token}

theorem tokens_skip_error {error : SqlError} (skipped : skipTrivia (fuel + 1) lexer = some (.error error)) :
    tokens (fuel + 1) lexer = some (.error error) := by
  rw [tokens, skipped]

theorem tokens_token_error {error : SqlError} (skipped : skipTrivia (fuel + 1) lexer = some (.ok behind))
    (read : nextToken behind = .error error) : tokens (fuel + 1) lexer = some (.error error) := by
  rw [tokens, skipped]
  dsimp only
  rw [read]

theorem tokens_eof (skipped : skipTrivia (fuel + 1) lexer = some (.ok behind)) (read : nextToken behind = .ok (.eof, last)) :
    tokens (fuel + 1) lexer = some (.ok [⟨.eof, behind.position⟩]) := by
  rw [tokens, skipped]
  dsimp only
  rw [read]
  rfl

theorem tokens_token (skipped : skipTrivia (fuel + 1) lexer = some (.ok behind)) (read : nextToken behind = .ok (token, last))
    (more : token ≠ .eof) :
    tokens (fuel + 1) lexer = (tokens fuel last).map fun answer => answer.map (⟨token, behind.position⟩ :: ·) := by
  rw [tokens, skipped]
  dsimp only
  rw [read]
  exact if_neg more

end Loop

/-- Every token takes a character. -/
theorem nextToken_shorter {text : List Char} {position : Position} {token : Token} {behind : Lexer} (final : ¬ StartsTrivia text)
    (read : nextToken ⟨text, position⟩ = .ok (token, behind)) (more : token ≠ .eof) : behind.rest.length < text.length := by
  cases text with
  | nil =>
      cases read
      exact absurd rfl more
  | cons c cs =>
      obtain ⟨front, text, _, written⟩ := nextToken_ok final read
      have some_ := List.length_pos_of_ne_nil (not_startsTrivia written).1
      rw [text, List.length_append]
      omega

/-- Enough fuel answers. -/
theorem tokens_total {text : List Char} {fuel : ℕ} {position : Position} (enough : text.length < fuel) :
    ∃ answer, tokens fuel ⟨text, position⟩ = some answer := by
  induction fuel generalizing text position with
  | zero => exact absurd enough (Nat.not_lt_zero _)
  | succ fuel ih =>
      obtain ⟨skip, skipped⟩ := @skipTrivia_total text (fuel + 1) position enough
      cases skip with
      | error error => exact ⟨_, tokens_skip_error skipped⟩
      | ok behind =>
          obtain ⟨rest, place⟩ := behind
          obtain ⟨trivia, rfl, _, _, final⟩ := skipTrivia_ok skipped
          cases read : nextToken ⟨rest, place⟩ with
          | error error => exact ⟨_, tokens_token_error skipped read⟩
          | ok entry =>
              obtain ⟨token, last⟩ := entry
              by_cases done : token = .eof
              · subst done
                exact ⟨_, tokens_eof skipped read⟩
              · have shorter := nextToken_shorter final read done
                rw [List.length_append] at enough
                obtain ⟨answer, found⟩ := @ih last.rest last.position (by omega)
                rw [tokens_token skipped read done]
                exact ⟨_, congrArg (Option.map _) found⟩

/-- A text of tokens is read as the tokens. -/
theorem tokens_of_renders {before text : List Char} {spanned : List Spanned} (renders : Renders before spanned text) {fuel : ℕ}
    (enough : text.length < fuel) : tokens fuel ⟨text, positionOf before⟩ = some (.ok spanned) := by
  induction renders generalizing fuel with
  | @eof before trivia between =>
      cases fuel with
      | zero => exact absurd enough (Nat.not_lt_zero _)
      | succ fuel =>
          have final : ¬ StartsTrivia [] := by
            rintro (white | ⟨dash, _⟩ | ⟨slash, _⟩)
            · cases white
            · cases dash
            · cases slash
          have skipped := @skipTrivia_of_trivia [] trivia between final (fuel + 1) (positionOf before) enough
          rw [List.append_nil, ← positionOf_append] at skipped
          exact tokens_eof skipped rfl
  | @token before trivia text rest token spanned between written _ ih =>
      cases fuel with
      | zero => exact absurd enough (Nat.not_lt_zero _)
      | succ fuel =>
          obtain ⟨some_, final⟩ := not_startsTrivia written
          have positive := List.length_pos_of_ne_nil some_
          rw [List.length_append, List.length_append] at enough
          have skipped := @skipTrivia_of_trivia _ trivia between final (fuel + 1) (positionOf before) (by omega)
          rw [← positionOf_append] at skipped
          have read := @nextToken_of_written (positionOf (before ++ trivia)) rest text token written
          rw [← positionOf_append] at read
          rw [List.append_assoc, tokens_token skipped read (written_ne_eof written), ih (by omega)]
          rfl

/-- What is read is a text of the tokens. -/
theorem renders_of_tokens {before text : List Char} {spanned : List Spanned} {fuel : ℕ}
    (read : tokens fuel ⟨text, positionOf before⟩ = some (.ok spanned)) : Renders before spanned text := by
  induction fuel generalizing before text spanned with
  | zero => cases read
  | succ fuel ih =>
      cases skipped : skipTrivia (fuel + 1) ⟨text, positionOf before⟩ with
      | none =>
          rw [tokens, skipped] at read
          cases read
      | some skip =>
          cases skip with
          | error error =>
              rw [tokens_skip_error skipped] at read
              cases read
          | ok behind =>
              obtain ⟨rest, place⟩ := behind
              obtain ⟨trivia, rfl, here, between, final⟩ := skipTrivia_ok skipped
              dsimp only at here between final
              subst here
              cases next : nextToken ⟨rest, (positionOf before).afterAll trivia⟩ with
              | error error =>
                  rw [tokens_token_error skipped next] at read
                  cases read
              | ok entry =>
                  obtain ⟨token, last⟩ := entry
                  by_cases done : token = .eof
                  · subst done
                    obtain rfl := nextToken_eof final next
                    rw [tokens_eof skipped next] at read
                    cases read
                    rw [List.append_nil, ← positionOf_append]
                    exact .eof between
                  · rw [tokens_token skipped next done] at read
                    cases rest with
                    | nil =>
                        cases next
                        exact absurd rfl done
                    | cons c cs =>
                        obtain ⟨front, text, there, written⟩ := nextToken_ok final next
                        obtain ⟨rest, after⟩ := last
                        dsimp only at text there written
                        rw [text] at between ⊢
                        rw [← positionOf_append] at there read
                        rw [← positionOf_append] at there
                        subst there
                        obtain ⟨answer, inner, same⟩ := Option.map_eq_some_iff.mp read
                        cases answer with
                        | error error => cases same
                        | ok more =>
                            cases same
                            rw [← List.append_assoc]
                            exact .token between written (ih inner)

end Lexer

/-! ## Tokens and texts -/

/-- The tokens that can be written: names are not empty, and a decimal has digits on both
sides of the point. -/
def Writable : Token → Prop
  | .identifier name => name ≠ []
  | .float text => ∃ whole fraction, text = whole ++ '.' :: fraction ∧ (whole ≠ [] ∧ fraction ≠ []) ∧
      ∀ c ∈ whole ++ fraction, c.isDigit = true
  | .eof => False
  | _ => True

/-- In front of a space a token can be written. -/
theorem Writable.written {token : Token} (writable : Writable token) :
    ∃ text, ∀ rest : List Char, (∀ c, rest.head? = some c → c = ' ') → Written rest token text := by
  have ends : ∀ {rest : List Char}, (∀ c, rest.head? = some c → c = ' ') → ∀ c, rest.head? = some c → isWordChar c = false := by
    intro rest space c found
    rw [space c found]
    rfl
  have other : ∀ {rest : List Char}, (∀ c, rest.head? = some c → c = ' ') → ∀ c, c ≠ ' ' → rest.head? ≠ some c :=
    fun space c apart found => apart (space c found)
  have symbol : ∀ text, (token, text) ∈ symbolTexts →
      ∃ text, ∀ rest : List Char, (∀ c, rest.head? = some c → c = ' ') → Written rest token text := by
    intro text member
    refine ⟨text, fun rest space => .symbol member fun c inside => other space c ?_⟩
    have apart : ∀ entry ∈ symbolTexts, (extending entry.1).all (· != ' ') = true := by decide
    exact bne_iff_ne.mp (List.all_eq_true.mp (apart _ member) c inside)
  cases token with
  | keyword keyword => exact ⟨keyword.asStr.toList, fun _ space => .keyword rfl (ends space)⟩
  | identifier name => exact ⟨_, fun _ space => .quoted writable (other space _ (by decide))⟩
  | integer n =>
      have number := padded_value 0 n.toNat
      have long := padded_length 0 n.toNat
      have positive := Nat.length_toDigits_pos (b := 10) (n := n.toNat)
      have some_ : padded 0 n.toNat ≠ [] := by
        intro none_
        rw [none_, List.length_nil] at long
        omega
      refine ⟨padded 0 n.toNat, fun rest space => ?_⟩
      have point : ∀ c, rest[0]? = some '.' → rest[1]? = some c → c.isDigit = false := by
        intro c dot _
        rw [← List.head?_eq_getElem?] at dot
        exact absurd dot (other space '.' (by decide))
      have written := Written.integer some_ (padded_digits 0 n.toNat) (by rw [number]; exact n.toNat_lt) (ends space) point
      rwa [number, UInt64.ofNat_toNat] at written
  | float text =>
      obtain ⟨whole, fraction, rfl, some_, form⟩ := writable
      exact ⟨_, fun _ space => .float some_ form (ends space)⟩
  | string content => exact ⟨_, fun _ space => .string (other space _ (by decide))⟩
  | placeholder => exact symbol ['?'] (by decide)
  | comma => exact symbol [','] (by decide)
  | dot => exact symbol ['.'] (by decide)
  | leftParen => exact symbol ['('] (by decide)
  | rightParen => exact symbol [')'] (by decide)
  | star => exact symbol ['*'] (by decide)
  | semicolon => exact symbol [';'] (by decide)
  | minus => exact symbol ['-'] (by decide)
  | eq => exact symbol ['='] (by decide)
  | notEq => exact symbol ['!', '='] (by decide)
  | lt => exact symbol ['<'] (by decide)
  | ltEq => exact symbol ['<', '='] (by decide)
  | gt => exact symbol ['>'] (by decide)
  | gtEq => exact symbol ['>', '='] (by decide)
  | eof => exact writable.elim

/-- Every list of such tokens has a text. -/
theorem exists_text {tokens : List Token} (writable : ∀ token ∈ tokens, Writable token) (before : List Char) :
    ∃ sql spanned, Renders before spanned sql ∧ spanned.map Spanned.token = tokens ++ [.eof] := by
  suffices spaced : ∃ sql spanned, Renders before spanned sql ∧ spanned.map Spanned.token = tokens ++ [.eof] ∧
      ∀ c, sql.head? = some c → c = ' ' by
    obtain ⟨sql, spanned, renders, same, _⟩ := spaced
    exact ⟨sql, spanned, renders, same⟩
  induction tokens generalizing before with
  | nil => exact ⟨[], _, .eof .none, rfl, fun c found => (by cases found)⟩
  | cons token tokens ih =>
      obtain ⟨here, more⟩ := List.forall_mem_cons.mp writable
      obtain ⟨text, written⟩ := here.written
      obtain ⟨rest, spanned, renders, same, space⟩ := ih more (before ++ [' '] ++ text)
      refine ⟨[' '] ++ text ++ rest, _, .token (.space rfl .none) (written rest space) renders, congrArg (token :: ·) same, ?_⟩
      intro c found
      cases found
      rfl

namespace Lexer

theorem skipTrivia_more {fuel : ℕ} {text : List Char} {position : Position} {answer : Except SqlError Lexer}
    (found : skipTrivia fuel ⟨text, position⟩ = some answer) : skipTrivia (fuel + 1) ⟨text, position⟩ = some answer := by
  induction fuel generalizing text position with
  | zero => cases found
  | succ fuel ih =>
      rcases startsTrivia_cases text with final | ⟨c, cs, rfl, white⟩ | ⟨cs, rfl⟩ | ⟨cs, rfl⟩
      · rw [skipTrivia_stop final] at found ⊢
        exact found
      · rw [skipTrivia_space white] at found ⊢
        exact ih found
      · rw [skipTrivia_line] at found ⊢
        exact ih found
      · cases closed : skipBlock position cs (position.afterAll ['/', '*']) with
        | error error =>
            rw [skipTrivia_unclosed closed] at found ⊢
            exact found
        | ok behind =>
            rw [skipTrivia_block closed] at found ⊢
            exact ih found

/-- More fuel changes no answer. -/
theorem tokens_more {fuel : ℕ} {lexer : Lexer} {answer : Except SqlError (List Spanned)}
    (found : tokens fuel lexer = some answer) : tokens (fuel + 1) lexer = some answer := by
  induction fuel generalizing lexer answer with
  | zero => cases found
  | succ fuel ih =>
      cases skipped : skipTrivia (fuel + 1) lexer with
      | none =>
          rw [tokens, skipped] at found
          cases found
      | some skip =>
          have skipped' := skipTrivia_more skipped
          cases skip with
          | error error =>
              rw [tokens_skip_error skipped] at found
              rw [tokens_skip_error skipped', found]
          | ok behind =>
              cases read : nextToken behind with
              | error error =>
                  rw [tokens_token_error skipped read] at found
                  rw [tokens_token_error skipped' read, found]
              | ok entry =>
                  obtain ⟨token, last⟩ := entry
                  by_cases done : token = .eof
                  · subst done
                    rw [tokens_eof skipped read] at found
                    rw [tokens_eof skipped' read, found]
                  · rw [tokens_token skipped read done] at found
                    obtain ⟨inner, more, same⟩ := Option.map_eq_some_iff.mp found
                    rw [tokens_token skipped' read done, ih more, ← same]
                    rfl

theorem tokens_of_enough (text : List Char) (position : Position) :
    ∃ answer, ∀ fuel, text.length < fuel → tokens fuel ⟨text, position⟩ = some answer := by
  obtain ⟨answer, found⟩ := @tokens_total text (text.length + 1) position (Nat.lt_succ_self _)
  refine ⟨answer, fun fuel enough => ?_⟩
  induction fuel, Nat.succ_le_of_lt enough using Nat.le_induction with
  | base => exact found
  | succ fuel le ih => exact tokens_more (ih (Nat.lt_of_succ_le le))

end Lexer

/-- A text is read as tokens exactly when it is a text of them, every text has an answer, and
every list of tokens that can be written has a text. -/
theorem tokenize_reads_what_is_written :
    (∀ sql, ∃ answer, ∀ fuel, sql.length < fuel → tokenizeWith fuel sql = some answer) ∧
    (∀ sql spanned fuel, sql.length < fuel → (tokenizeWith fuel sql = some (.ok spanned) ↔ Renders [] spanned sql)) ∧
    ∀ tokens, (∀ token ∈ tokens, Writable token) →
      ∃ sql spanned, Renders [] spanned sql ∧ spanned.map Spanned.token = tokens ++ [.eof] :=
  ⟨fun sql => Lexer.tokens_of_enough sql ⟨1, 1⟩,
    fun _ _ _ enough => ⟨fun read => Lexer.renders_of_tokens read, fun renders => Lexer.tokens_of_renders renders enough⟩,
    fun _ writable => exists_text writable []⟩

/-- `"a""b"--c⏎*`: a name, a comment and a symbol on the second line. -/
theorem quoted_name_and_comment :
    Renders [] [⟨.identifier ['a', doubleQuote, 'b'], ⟨1, 1⟩⟩, ⟨.star, ⟨2, 1⟩⟩, ⟨.eof, ⟨2, 2⟩⟩]
      [doubleQuote, 'a', doubleQuote, doubleQuote, 'b', doubleQuote, '-', '-', 'c', '\n', '*'] :=
  (tokenize_reads_what_is_written.2.1 _ _ 12 (by decide)).mp (by decide)

/-- The empty name between quotes is refused. -/
theorem empty_name_refused :
    tokenizeWith 3 (doubleQuote :: (doubled doubleQuote [] ++ [doubleQuote])) =
      some (.error (.parse 1 1 "quoted identifier cannot be empty")) := by decide

end WasmDbms.Sql
