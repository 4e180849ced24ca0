import Mathlib.Data.List.TakeWhile
import WasmDbms.Db.Filter
import WasmDbms.Lib.Wildcard
import WasmDbms.Memory.Encode

/-!
# LIKE patterns

`Like::parse` and the loop of `Like::matches`, which goes through the text by byte
offsets and comes back to the last `%`. A string slice off a character boundary panics.
-/
namespace WasmDbms
open Wildcard

/-- The bytes of a text in UTF-8. -/
def byteLen (text : List Char) : ℕ := (text.map Char.utf8Size).sum

/-- `&text[offset..]`. -/
def strFrom : List Char → ℕ → Except Fault (List Char)
  | text, 0 => .ok text
  | [], _ + 1 => .error .panic
  | c :: text, offset + 1 =>
      if c.utf8Size ≤ offset + 1 then strFrom text (offset + 1 - c.utf8Size) else .error .panic

inductive PatternToken where
  | literal (s : List Char)
  | wildcardSingle
  | wildcardMulti
  deriving DecidableEq, Repr

namespace Pattern

/-- The variables of the loop in `from_str`. -/
structure Parsing where
  tokens : List PatternToken
  currentLiteral : List Char
  escape : Bool
  deriving DecidableEq, Repr

/-- The tokens with the current literal, unless it is empty. -/
def Parsing.flushed (p : Parsing) : List PatternToken :=
  if p.currentLiteral = [] then p.tokens else p.tokens ++ [.literal p.currentLiteral]

def Parsing.next (p : Parsing) (c : Char) : Parsing :=
  if c = '_' ∧ p.escape = false then ⟨p.flushed ++ [.wildcardSingle], [], p.escape⟩
  else if c = '%' ∧ p.escape = false then ⟨p.flushed ++ [.wildcardMulti], [], p.escape⟩
  else if c = '\\' ∧ p.escape = false then { p with escape := true }
  else { p with currentLiteral := p.currentLiteral ++ [c], escape := false }

def fromStr {J : Type} (s : String) : Except (QueryError J) (List PatternToken) :=
  let parsed := s.toList.foldl Parsing.next ⟨[], [], false⟩
  if parsed.escape then .error (.invalidQuery "LIKE pattern ends with a dangling escape character")
  else .ok parsed.flushed

end Pattern

/-- A parsed pattern. -/
structure Like where
  tokens : List PatternToken
  deriving DecidableEq, Repr

namespace Like

def parse {J : Type} (pattern : String) : Except (QueryError J) Like := (Pattern.fromStr pattern).map Like.mk

/-- The variables of the loop in `matches`. -/
structure Cursor where
  ti : ℕ
  ii : ℕ
  starTi : Option ℕ
  starIi : ℕ
  deriving DecidableEq, Repr

/-- Back to the last `%`, which takes one character more; without a `%` or a character there is no match. -/
def extendStar (input : List Char) (cursor : Cursor) : Except Fault (Bool ⊕ Cursor) :=
  match cursor.starTi with
  | none => .ok (.inl false)
  | some starTi => do
      let rest ← strFrom input cursor.starIi
      match rest with
      | [] => return .inl false
      | c :: _ => return .inr ⟨starTi, cursor.starIi + c.utf8Size, some starTi, cursor.starIi + c.utf8Size⟩

/-- The body of the loop and what follows it. -/
def step (like : Like) (input : List Char) (cursor : Cursor) : Except Fault (Bool ⊕ Cursor) :=
  if cursor.ii < byteLen input then
    match like.tokens[cursor.ti]? with
    | some (.literal s) => do
        let rest ← strFrom input cursor.ii
        if s.isPrefixOf rest then return .inr { cursor with ii := cursor.ii + byteLen s, ti := cursor.ti + 1 }
        else extendStar input cursor
    | some .wildcardSingle => do
        let rest ← strFrom input cursor.ii
        match rest with
        | [] => .error .panic
        | c :: _ => return .inr { cursor with ii := cursor.ii + c.utf8Size, ti := cursor.ti + 1 }
    | some .wildcardMulti =>
        return .inr { cursor with starTi := some (cursor.ti + 1), starIi := cursor.ii, ti := cursor.ti + 1 }
    | none =>
        match cursor.starTi with
        | none => return .inl false
        | some starTi => if like.tokens.length ≤ starTi then return .inl true else extendStar input cursor
  else
    let trailing := (like.tokens.drop cursor.ti).takeWhile fun token => decide (token = .wildcardMulti)
    return .inl (decide (cursor.ti + trailing.length = like.tokens.length))

def run (like : Like) (input : List Char) : ℕ → Cursor → Except Fault Bool
  | 0, _ => .error .diverges
  | fuel + 1, cursor => do
      match ← like.step input cursor with
      | .inl answer => return answer
      | .inr cursor => like.run input fuel cursor

end Like

def Like.matches (like : Like) (fuel : ℕ) (input : String) : Except Fault Bool :=
  like.run input.toList fuel ⟨0, 0, none, 0⟩

/-! ## The language of a pattern -/

/-- What a character of a pattern stands for when it is not escaped. -/
def unescaped (c : Char) : Element Char := if c = '%' then .any else if c = '_' then .one else .lit c

/-- The elements of a pattern; it may not end with an escape character. -/
def patternElements : List Char → Option (List (Element Char))
  | [] => some []
  | c :: rest =>
      if c = '\\' then
        match rest with
        | [] => none
        | d :: rest => (patternElements rest).map (.lit d :: ·)
      else (patternElements rest).map (unescaped c :: ·)

namespace PatternToken

def elements : PatternToken → List (Element Char)
  | .literal s => s.map .lit
  | .wildcardSingle => [.one]
  | .wildcardMulti => [.any]

def elementsOf (tokens : List PatternToken) : List (Element Char) := tokens.flatMap elements

@[simp] theorem elementsOf_nil : elementsOf [] = [] := rfl

@[simp] theorem elementsOf_cons (token : PatternToken) (tokens : List PatternToken) :
    elementsOf (token :: tokens) = token.elements ++ elementsOf tokens := rfl

@[simp] theorem elementsOf_append (tokens tokens' : List PatternToken) :
    elementsOf (tokens ++ tokens') = elementsOf tokens ++ elementsOf tokens' := List.flatMap_append

end PatternToken

namespace Pattern
open PatternToken

/-- No literal is empty. -/
def Filled (tokens : List PatternToken) : Prop := .literal [] ∉ tokens

theorem Parsing.flushed_elements (p : Parsing) :
    elementsOf p.flushed = elementsOf p.tokens ++ p.currentLiteral.map .lit := by
  unfold flushed
  split
  · rename_i empty
    simp [empty]
  · simp [elements]

theorem Parsing.flushed_filled {p : Parsing} (filled : Filled p.tokens) : Filled p.flushed := by
  unfold flushed
  split
  · exact filled
  · rename_i some_
    intro member
    rcases List.mem_append.mp member with old | new
    · exact filled old
    · exact some_ (PatternToken.literal.inj (List.mem_singleton.mp new)).symm

/-- A character that is not an escape character goes to the elements. -/
theorem Parsing.next_elements {p : Parsing} {c : Char} (plain : p.escape = false) (other : c ≠ '\\') :
    (p.next c).escape = false ∧ elementsOf (p.next c).flushed = elementsOf p.flushed ++ [unescaped c] := by
  unfold Parsing.next unescaped
  split
  · rename_i single
    obtain ⟨rfl, _⟩ := single
    refine ⟨plain, ?_⟩
    rw [Parsing.flushed_elements]
    simp [elements]
  · rename_i single
    split
    · rename_i multi
      obtain ⟨rfl, _⟩ := multi
      refine ⟨plain, ?_⟩
      rw [Parsing.flushed_elements]
      simp [elements]
    · rename_i multi
      rw [if_neg fun escape => other escape.1, if_neg fun percent => multi ⟨percent, plain⟩,
        if_neg fun underscore => single ⟨underscore, plain⟩]
      refine ⟨rfl, ?_⟩
      rw [Parsing.flushed_elements, Parsing.flushed_elements]
      simp

theorem Parsing.next_escape {p : Parsing} (plain : p.escape = false) : p.next '\\' = { p with escape := true } := by
  simp [Parsing.next, plain]

/-- An escaped character stands for itself. -/
theorem Parsing.next_escaped {p : Parsing} (c : Char) (escaped : p.escape = true) :
    (p.next c).escape = false ∧ elementsOf (p.next c).flushed = elementsOf p.flushed ++ [.lit c] := by
  have taken : p.next c = { p with currentLiteral := p.currentLiteral ++ [c], escape := false } := by
    simp [Parsing.next, escaped]
  rw [taken, Parsing.flushed_elements, Parsing.flushed_elements]
  simp

theorem Parsing.next_filled {p : Parsing} (c : Char) (filled : Filled p.tokens) : Filled (p.next c).tokens := by
  unfold Parsing.next
  repeat' split
  · exact fun member => (List.mem_append.mp member).elim (flushed_filled filled) (by simp)
  · exact fun member => (List.mem_append.mp member).elim (flushed_filled filled) (by simp)
  · exact filled
  · exact filled

theorem foldl_filled {p : Parsing} (s : List Char) (filled : Filled p.tokens) : Filled (s.foldl Parsing.next p).tokens := by
  induction s generalizing p with
  | nil => exact filled
  | cons c s ih => exact ih (Parsing.next_filled c filled)

/-- The parser reads the elements of the pattern, or ends inside an escape. -/
theorem foldl_elements {s : List Char} {p : Parsing} (plain : p.escape = false) :
    (patternElements s = none ∧ (s.foldl Parsing.next p).escape = true) ∨
      ∃ es, patternElements s = some es ∧ (s.foldl Parsing.next p).escape = false ∧
        elementsOf (s.foldl Parsing.next p).flushed = elementsOf p.flushed ++ es := by
  induction s using patternElements.induct generalizing p with
  | case1 => exact .inr ⟨[], rfl, plain, (List.append_nil _).symm⟩
  | case2 =>
      refine .inl ⟨by simp [patternElements], ?_⟩
      rw [List.foldl_cons, Parsing.next_escape plain]
      rfl
  | case3 d rest ih =>
      obtain ⟨plain', read⟩ := Parsing.next_escaped (p := { p with escape := true }) d rfl
      rw [List.foldl_cons, Parsing.next_escape plain, List.foldl_cons]
      rcases ih plain' with ⟨none_, dangling⟩ | ⟨es, some_, ended, elements⟩
      · exact .inl ⟨by simp [patternElements, none_], dangling⟩
      · refine .inr ⟨.lit d :: es, by simp [patternElements, some_], ended, ?_⟩
        rw [elements, read, List.append_assoc]
        rfl
  | case4 c rest other ih =>
      obtain ⟨plain', read⟩ := Parsing.next_elements plain other
      rw [List.foldl_cons]
      rcases ih plain' with ⟨none_, dangling⟩ | ⟨es, some_, ended, elements⟩
      · refine .inl ⟨?_, dangling⟩
        rw [patternElements.eq_def]
        simp [other, none_]
      · refine .inr ⟨unescaped c :: es, ?_, ended, ?_⟩
        · rw [patternElements.eq_def]
          simp [other, some_]
        · rw [elements, read, List.append_assoc]
          rfl

end Pattern

/-- A pattern is refused exactly when it ends with an escape character, and its tokens stand for its elements. -/
theorem Like.parse_cases {J : Type} (pattern : String) :
    (patternElements pattern.toList = none ∧
      (Like.parse pattern : Except (QueryError J) Like) =
        .error (.invalidQuery "LIKE pattern ends with a dangling escape character")) ∨
    ∃ es like, patternElements pattern.toList = some es ∧ (Like.parse pattern : Except (QueryError J) Like) = .ok like ∧
      PatternToken.elementsOf like.tokens = es ∧ Pattern.Filled like.tokens := by
  have filled := Pattern.foldl_filled (p := ⟨[], [], false⟩) pattern.toList (by simp [Pattern.Filled])
  unfold Like.parse Pattern.fromStr
  rcases Pattern.foldl_elements (s := pattern.toList) (p := ⟨[], [], false⟩) rfl with ⟨none_, dangling⟩ | ⟨es, some_, ended, elements⟩
  · refine .inl ⟨none_, ?_⟩
    dsimp only
    rw [if_pos dangling]
    rfl
  · refine .inr ⟨es, ⟨_⟩, some_, ?_, elements, Pattern.Parsing.flushed_filled filled⟩
    dsimp only
    rw [if_neg (by rw [ended]; decide)]
    rfl

/-! ## The loop -/

theorem byteLen_append (a b : List Char) : byteLen (a ++ b) = byteLen a + byteLen b := by
  simp [byteLen]

theorem byteLen_pos {text : List Char} (some_ : text ≠ []) : 0 < byteLen text := by
  cases text with
  | nil => exact absurd rfl some_
  | cons c text =>
      have wide := c.utf8Size_pos
      simp only [byteLen, List.map_cons, List.sum_cons]
      omega

/-- A slice at the end of a prefix. -/
theorem strFrom_append (before text : List Char) : strFrom (before ++ text) (byteLen before) = .ok text := by
  induction before with
  | nil =>
      rw [List.nil_append]
      cases text <;> rfl
  | cons c before ih =>
      have wide := c.utf8Size_pos
      obtain ⟨offset, size⟩ : ∃ offset, byteLen (c :: before) = offset + 1 :=
        ⟨byteLen (c :: before) - 1, by have pos := byteLen_pos (List.cons_ne_nil c before); omega⟩
      have rest : offset + 1 - c.utf8Size = byteLen before := by
        rw [← size, byteLen, List.map_cons, List.sum_cons]
        exact Nat.add_sub_cancel_left ..
      have inside : c.utf8Size ≤ offset + 1 := by
        rw [← size, byteLen, List.map_cons, List.sum_cons]
        exact Nat.le_add_right ..
      rw [size, List.cons_append, strFrom, if_pos inside, rest, ih]

namespace Like
open PatternToken

/-- A place in the pattern and a place in the text, which is a character boundary. -/
structure At (like : Like) (input : List Char) (ti ii : ℕ) (ts : List PatternToken) (text : List Char) : Prop where
  inside : ti ≤ like.tokens.length
  tokens : like.tokens.drop ti = ts
  boundary : ∃ before, input = before ++ text ∧ byteLen before = ii

namespace At
variable {like : Like} {input text : List Char} {ti ii : ℕ} {ts : List PatternToken}

theorem slice (here : At like input ti ii ts text) : strFrom input ii = .ok text := by
  obtain ⟨before, rfl, rfl⟩ := here.boundary
  exact strFrom_append before text

theorem lt_iff (here : At like input ti ii ts text) : ii < byteLen input ↔ text ≠ [] := by
  obtain ⟨before, rfl, rfl⟩ := here.boundary
  rw [byteLen_append]
  constructor
  · rintro less rfl
    exact Nat.lt_irrefl _ less
  · intro some_
    have pos := byteLen_pos some_
    omega

theorem token {token : PatternToken} (here : At like input ti ii (token :: ts) text) : like.tokens[ti]? = some token := by
  rw [← List.head?_drop, here.tokens]
  rfl

theorem no_token (here : At like input ti ii [] text) : like.tokens[ti]? = none := by
  rw [← List.head?_drop, here.tokens]
  rfl

/-- Behind the next token and some text. -/
theorem advance {token : PatternToken} {used rest : List Char} (here : At like input ti ii (token :: ts) (used ++ rest)) :
    At like input (ti + 1) (ii + byteLen used) ts rest := by
  obtain ⟨before, rfl, rfl⟩ := here.boundary
  have length := congrArg List.length here.tokens
  rw [List.length_drop, List.length_cons] at length
  refine ⟨by omega, ?_, before ++ used, (List.append_assoc ..).symm, byteLen_append ..⟩
  rw [← List.drop_drop, here.tokens]
  rfl

/-- Behind one more character. -/
theorem skip {c : Char} {rest : List Char} (here : At like input ti ii ts (c :: rest)) :
    At like input ti (ii + c.utf8Size) ts rest := by
  obtain ⟨before, rfl, rfl⟩ := here.boundary
  refine ⟨here.inside, here.tokens, before ++ [c], by simp, ?_⟩
  rw [byteLen_append]
  rfl

theorem length_le (here : At like input ti ii ts text) : ts.length ≤ like.tokens.length ∧ text.length ≤ input.length := by
  obtain ⟨before, rfl, _⟩ := here.boundary
  rw [← here.tokens, List.length_drop, List.length_append]
  omega

end At

/-- What is left of a search: the places to go on from now, and those to come back to. The
tokens since the last `%` stand for as many characters as were used for them. -/
inductive Search (like : Like) (input : List Char) : Cursor → ℕ → Prop where
  | plain {ti ii starIi ts text} (here : At like input ti ii ts text)
      (answer : Matches (elementsOf like.tokens) input ↔ Matches (elementsOf ts) text) :
      Search like input ⟨ti, ii, none, starIi⟩ ((input.length + 1) * (like.tokens.length + 1) + ts.length)
  | starred {ti ii starTi starIi ts text starTs used segment} (here : At like input ti ii ts text)
      (star : At like input starTi starIi starTs (used ++ text))
      (since : elementsOf starTs = segment ++ elementsOf ts) (fixed : Fixed segment) (length : used.length = segment.length)
      (answer : Matches (elementsOf like.tokens) input ↔
        Matches (elementsOf ts) text ∨ Later (elementsOf starTs) (used ++ text)) :
      Search like input ⟨ti, ii, some starTi, starIi⟩
        ((used ++ text).length * (like.tokens.length + 1) + ts.length)

/-- The answer, or a search with less left. -/
def Settles (like : Like) (input : List Char) (n : ℕ) (r : Except Fault (Bool ⊕ Cursor)) : Prop :=
  (∃ b, r = .ok (.inl b) ∧ (b = true ↔ Matches (elementsOf like.tokens) input)) ∨
    ∃ cursor n', r = .ok (.inr cursor) ∧ Search like input cursor n' ∧ n' < n

section Step
variable {like : Like} {input text : List Char} {ti ii starIi n : ℕ} {ts : List PatternToken}

theorem settles_of_answer {b : Bool} (answer : b = true ↔ Matches (elementsOf like.tokens) input) :
    Settles like input n (.ok (.inl b)) := .inl ⟨b, rfl, answer⟩

theorem settles_of_search {cursor : Cursor} {n' : ℕ} (search : Search like input cursor n') (less : n' < n) :
    Settles like input n (.ok (.inr cursor)) := .inr ⟨cursor, n', rfl, search, less⟩

/-- Without a `%` there is no way back. -/
theorem extendStar_plain (ti ii starIi : ℕ) (answer : ¬ Matches (elementsOf like.tokens) input) :
    Settles like input n (extendStar input ⟨ti, ii, none, starIi⟩) :=
  settles_of_answer (by simpa using answer)

/-- The last `%` takes one more character. -/
theorem extendStar_starred (ti ii : ℕ) {starTi : ℕ} {starTs : List PatternToken} {starText : List Char}
    (star : At like input starTi starIi starTs starText)
    (answer : Matches (elementsOf like.tokens) input ↔ Later (elementsOf starTs) starText)
    (left : starText.length * (like.tokens.length + 1) ≤ n) :
    Settles like input n (extendStar input ⟨ti, ii, some starTi, starIi⟩) := by
  rw [extendStar]
  dsimp only
  rw [star.slice]
  cases starText with
  | nil => exact settles_of_answer (by simpa [answer] using not_later_nil)
  | cons c rest =>
      have here := star.skip
      refine settles_of_search (@Search.starred like input starTi _ starTi _ _ rest starTs [] [] here here rfl (by simp [Fixed]) rfl
        (answer.trans later_cons)) ?_
      have short := here.length_le.1
      rw [List.length_cons, Nat.succ_mul] at left
      rw [List.nil_append]
      omega

/-- A token takes some text: the search goes on behind it. -/
theorem Search.advance_plain {token : PatternToken} {used rest : List Char}
    (here : At like input ti ii (token :: ts) (used ++ rest))
    (answer : Matches (elementsOf like.tokens) input ↔ Matches (elementsOf (token :: ts)) (used ++ rest))
    (takes : Matches (elementsOf (token :: ts)) (used ++ rest) ↔ Matches (elementsOf ts) rest) :
    Settles like input ((input.length + 1) * (like.tokens.length + 1) + (token :: ts).length)
      (.ok (.inr ⟨ti + 1, ii + byteLen used, none, starIi⟩)) :=
  settles_of_search (.plain here.advance (answer.trans takes)) (Nat.lt_succ_self _)

theorem Search.advance_starred {token : PatternToken} {rest used more : List Char} {segment : List (Element Char)}
    {starTi : ℕ} {starTs : List PatternToken} (here : At like input ti ii (token :: ts) (more ++ rest))
    (star : At like input starTi starIi starTs (used ++ (more ++ rest)))
    (since : elementsOf starTs = segment ++ elementsOf (token :: ts)) (fixed : Fixed segment)
    (length : used.length = segment.length) (fixedToken : Fixed token.elements) (lengthToken : more.length = token.elements.length)
    (answer : Matches (elementsOf like.tokens) input ↔
      Matches (elementsOf (token :: ts)) (more ++ rest) ∨ Later (elementsOf starTs) (used ++ (more ++ rest)))
    (takes : Matches (elementsOf (token :: ts)) (more ++ rest) ↔ Matches (elementsOf ts) rest) :
    Settles like input ((used ++ (more ++ rest)).length * (like.tokens.length + 1) + (token :: ts).length)
      (.ok (.inr ⟨ti + 1, ii + byteLen more, some starTi, starIi⟩)) := by
  have join : used ++ (more ++ rest) = (used ++ more) ++ rest := (List.append_assoc ..).symm
  rw [join] at star answer ⊢
  refine settles_of_search (@Search.starred like input _ _ _ _ _ _ _ _ (segment ++ token.elements) here.advance star ?_ (fixed.append fixedToken) ?_
    (answer.trans (or_congr_left takes))) (Nat.lt_succ_self _)
  · rw [since, elementsOf_cons, List.append_assoc]
  · rw [List.length_append, List.length_append, length, lengthToken]

/-- A `%` is the place to come back to. -/
theorem Search.from_multi (here : At like input ti ii (.wildcardMulti :: ts) text)
    (answer : Matches (elementsOf like.tokens) input ↔ Matches (elementsOf (.wildcardMulti :: ts)) text) :
    Search like input ⟨ti + 1, ii, some (ti + 1), ii⟩ (text.length * (like.tokens.length + 1) + ts.length) :=
  have start : At like input ti ii (.wildcardMulti :: ts) ([] ++ text) := here
  have next : At like input (ti + 1) ii ts text := start.advance
  @Search.starred like input (ti + 1) ii (ti + 1) ii ts text ts [] [] next next rfl (by simp [Fixed]) rfl
    (answer.trans matches_any_iff)

/-- At the end of the text only `%` may be left. -/
theorem At.trailing (here : At like input ti ii ts []) (filled : Pattern.Filled like.tokens) :
    decide (ti + ((like.tokens.drop ti).takeWhile fun token => decide (token = .wildcardMulti)).length =
      like.tokens.length) = true ↔ Matches (elementsOf ts) [] := by
  have length := congrArg List.length here.tokens
  rw [List.length_drop] at length
  have inside := here.inside
  have whole : ti + (ts.takeWhile fun token => decide (token = .wildcardMulti)).length = like.tokens.length ↔
      (ts.takeWhile fun token => decide (token = .wildcardMulti)).length = ts.length := by omega
  rw [here.tokens, decide_eq_true_iff, whole, matches_empty_iff]
  constructor
  · intro all e member
    obtain ⟨token, listed, inToken⟩ := List.mem_flatMap.mp member
    rw [← (List.takeWhile_prefix _).eq_of_length all] at listed
    have multi := List.mem_takeWhile_imp listed
    rw [of_decide_eq_true multi] at inToken
    exact List.mem_singleton.mp inToken
  · intro all
    rw [List.takeWhile_eq_self_iff.mpr]
    intro token listed
    refine decide_eq_true ?_
    have each : ∀ e ∈ token.elements, e = .any := fun e inToken => all e (List.mem_flatMap.mpr ⟨token, listed, inToken⟩)
    cases token with
    | literal s =>
        cases s with
        | nil =>
            have member : PatternToken.literal [] ∈ like.tokens := List.mem_of_mem_drop (here.tokens ▸ listed)
            exact absurd member filled
        | cons c s => cases each (.lit c) (by simp [elements])
    | wildcardSingle => cases each .one (by simp [elements])
    | wildcardMulti => rfl

/-- A literal is in the text, or there is no match from here. -/
theorem literal_cases (s : List Char) (ts : List PatternToken) (text : List Char) :
    (∃ rest, text = s ++ rest ∧ s.isPrefixOf text = true ∧
      (Matches (elementsOf (.literal s :: ts)) text ↔ Matches (elementsOf ts) rest)) ∨
    s.isPrefixOf text = false ∧ ¬ Matches (elementsOf (.literal s :: ts)) text := by
  have lits : Matches (elementsOf (.literal s :: ts)) text ↔ ∃ rest, text = s ++ rest ∧ Matches (elementsOf ts) rest :=
    matches_lits
  by_cases starts : s <+: text
  · obtain ⟨rest, rfl⟩ := starts
    refine .inl ⟨rest, rfl, List.isPrefixOf_iff_prefix.mpr (List.prefix_append s rest), lits.trans ?_⟩
    constructor
    · rintro ⟨rest', same, matched⟩
      rwa [List.append_cancel_left same]
    · intro matched
      exact ⟨rest, rfl, matched⟩
  · refine .inr ⟨?_, ?_⟩
    · exact Bool.eq_false_iff.mpr (mt List.isPrefixOf_iff_prefix.mp starts)
    · rw [lits]
      rintro ⟨rest, rfl, _⟩
      exact starts (List.prefix_append s rest)

theorem not_matches_nil (some_ : text ≠ []) : ¬ Matches (elementsOf []) text := some_

/-- One turn of the loop. -/
theorem Search.step {cursor : Cursor} (filled : Pattern.Filled like.tokens) (search : Search like input cursor n) :
    Settles like input n (like.step input cursor) := by
  cases search with
  | @plain ti ii starIi ts text here answer =>
      rw [Like.step]
      dsimp only
      by_cases empty : text = []
      · subst empty
        rw [if_neg (mt here.lt_iff.mp (by simp))]
        exact settles_of_answer ((here.trailing filled).trans answer.symm)
      · rw [if_pos (here.lt_iff.mpr empty)]
        cases ts with
        | nil =>
            rw [here.no_token]
            exact settles_of_answer (by simpa [answer] using empty)
        | cons token ts =>
            rw [here.token]
            cases token with
            | literal s =>
                dsimp only
                rw [here.slice]
                change Settles like input _ (if s.isPrefixOf text then _ else _)
                rcases literal_cases s ts text with ⟨rest, rfl, starts, takes⟩ | ⟨starts, fails⟩
                · rw [starts]
                  exact Search.advance_plain here answer takes
                · rw [starts]
                  exact extendStar_plain ti ii starIi (mt answer.mp fails)
            | wildcardSingle =>
                dsimp only
                rw [here.slice]
                obtain ⟨c, rest, rfl⟩ := List.exists_cons_of_ne_nil empty
                have start : At like input ti ii (.wildcardSingle :: ts) ([c] ++ rest) := here
                exact Search.advance_plain start answer matches_one
            | wildcardMulti =>
                refine settles_of_search (Search.from_multi here ?_) ?_
                · exact answer
                · have short := here.length_le.2
                  have wide := Nat.mul_le_mul_right (like.tokens.length + 1) (Nat.le_add_right_of_le (k := 1) short)
                  rw [List.length_cons]
                  omega
  | @starred ti ii starTi starIi ts text starTs used segment here star since fixed length answer =>
      rw [Like.step]
      dsimp only
      by_cases empty : text = []
      · subst empty
        rw [if_neg (mt here.lt_iff.mp (by simp))]
        refine settles_of_answer ((here.trailing filled).trans ?_)
        rw [answer, since]
        exact (or_iff_left fun later => not_later_nil (later.behind fixed length)).symm
      · rw [if_pos (here.lt_iff.mpr empty)]
        have back : ¬ Matches (elementsOf ts) text →
            (Matches (elementsOf like.tokens) input ↔ Later (elementsOf starTs) (used ++ text)) :=
          fun fails => answer.trans (or_iff_right fails)
        cases ts with
        | nil =>
            rw [here.no_token]
            dsimp only
            split
            · rename_i trailing
              refine settles_of_answer ?_
              -- the last token is the `%`, which takes what is left
              have none_left : starTs = [] := by
                rw [← star.tokens]
                exact List.drop_eq_nil_of_le trailing
              rw [back (not_matches_nil empty), none_left]
              refine iff_of_true rfl ⟨[], List.nil_suffix, ?_, rfl⟩
              rw [List.length_append, List.length_nil]
              have some_ := List.length_pos_of_ne_nil empty
              omega
            · exact extendStar_starred ti ii star (back (not_matches_nil empty)) (Nat.le_add_right ..)
        | cons token ts =>
            rw [here.token]
            cases token with
            | literal s =>
                dsimp only
                rw [here.slice]
                change Settles like input _ (if s.isPrefixOf text then _ else _)
                rcases literal_cases s ts text with ⟨rest, rfl, starts, takes⟩ | ⟨starts, fails⟩
                · rw [starts]
                  exact Search.advance_starred here star since fixed length (fixed_lits s) (by simp [elements]) answer takes
                · rw [starts]
                  exact extendStar_starred ti ii star (back fails) (Nat.le_add_right ..)
            | wildcardSingle =>
                dsimp only
                rw [here.slice]
                obtain ⟨c, rest, rfl⟩ := List.exists_cons_of_ne_nil empty
                have start : At like input ti ii (.wildcardSingle :: ts) ([c] ++ rest) := here
                exact Search.advance_starred start star since fixed length (by simp [Fixed, elements]) rfl answer
                  matches_one
            | wildcardMulti =>
                refine settles_of_search (Search.from_multi here ?_) ?_
                · rw [answer, since]
                  exact or_iff_left_of_imp (Later.absorbed fixed length)
                · have wide := Nat.mul_le_mul_right (like.tokens.length + 1) (Nat.le_add_left text.length used.length)
                  rw [List.length_append, List.length_cons]
                  omega

end Step

/-- With more turns than are left the loop ends with the answer. -/
theorem run_ok {like : Like} {input : List Char} (filled : Pattern.Filled like.tokens) {fuel n : ℕ} {cursor : Cursor}
    (search : Search like input cursor n) (enough : n < fuel) :
    ∃ b, like.run input fuel cursor = .ok b ∧ (b = true ↔ Matches (elementsOf like.tokens) input) := by
  induction fuel generalizing n cursor with
  | zero => exact absurd enough (Nat.not_lt_zero n)
  | succ fuel ih =>
      rw [run]
      rcases search.step filled with ⟨b, answered, answer⟩ | ⟨next, n', stepped, later, less⟩
      · rw [answered]
        exact ⟨b, rfl, answer⟩
      · rw [stepped]
        exact ih later (by omega)

/-- The search begins at the start of the pattern and of the text. -/
theorem Search.start (like : Like) (input : List Char) :
    Search like input ⟨0, 0, none, 0⟩ ((input.length + 1) * (like.tokens.length + 1) + like.tokens.length) :=
  .plain ⟨Nat.zero_le _, rfl, [], rfl, rfl⟩ Iff.rfl

end Like

/-- A pattern that does not end with an escape character is parsed, and the search in any text ends, without a panic,
with whether the text is in the language of the pattern; a pattern that does is refused. -/
theorem like_matches_language {J : Type} (pattern text : String) :
    (patternElements pattern.toList = none ∧
      (Like.parse pattern : Except (QueryError J) Like) =
        .error (.invalidQuery "LIKE pattern ends with a dangling escape character")) ∨
    ∃ elements like, patternElements pattern.toList = some elements ∧
      (Like.parse pattern : Except (QueryError J) Like) = .ok like ∧
      ∃ enough, ∀ fuel, enough ≤ fuel → ∃ b, like.matches fuel text = .ok b ∧ (b = true ↔ Matches elements text.toList) := by
  rcases Like.parse_cases (J := J) pattern with refused | ⟨elements, like, read, parsed, rfl, filled⟩
  · exact .inl refused
  · exact .inr ⟨_, like, read, parsed, _, fun fuel enough => Like.run_ok filled (Like.Search.start like text.toList) enough⟩

end WasmDbms
