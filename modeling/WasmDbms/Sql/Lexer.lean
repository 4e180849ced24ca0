import WasmDbms.Sql.Syntax

/-!
# Lexical analysis

A statement text is turned into tokens with their positions. Whitespace and comments are
dropped. Every text has an answer.
-/
namespace WasmDbms.Sql
open Numerals

/-! ## Tokens -/

/-- Reserved words of the dialect. -/
inductive Keyword where
  | kwAnd
  | kwAs
  | kwAsc
  | kwBegin
  | kwBy
  | kwCascade
  | kwCommit
  | kwCross
  | kwDelete
  | kwDesc
  | kwDistinct
  | kwExcept
  | kwFalse
  | kwFrom
  | kwFull
  | kwGroup
  | kwHaving
  | kwIn
  | kwInner
  | kwInsert
  | kwIntersect
  | kwInto
  | kwIs
  | kwJoin
  | kwLeft
  | kwLike
  | kwLimit
  | kwNatural
  | kwNot
  | kwNull
  | kwOffset
  | kwOn
  | kwOr
  | kwOrder
  | kwOuter
  | kwRestrict
  | kwRight
  | kwRollback
  | kwSelect
  | kwSet
  | kwTransaction
  | kwTrue
  | kwUnion
  | kwUpdate
  | kwUsing
  | kwValues
  | kwWhere
  deriving DecidableEq, Repr

/-- `as_str`. -/
def Keyword.asStr : Keyword → String
  | .kwAnd => "AND"
  | .kwAs => "AS"
  | .kwAsc => "ASC"
  | .kwBegin => "BEGIN"
  | .kwBy => "BY"
  | .kwCascade => "CASCADE"
  | .kwCommit => "COMMIT"
  | .kwCross => "CROSS"
  | .kwDelete => "DELETE"
  | .kwDesc => "DESC"
  | .kwDistinct => "DISTINCT"
  | .kwExcept => "EXCEPT"
  | .kwFalse => "FALSE"
  | .kwFrom => "FROM"
  | .kwFull => "FULL"
  | .kwGroup => "GROUP"
  | .kwHaving => "HAVING"
  | .kwIn => "IN"
  | .kwInner => "INNER"
  | .kwInsert => "INSERT"
  | .kwIntersect => "INTERSECT"
  | .kwInto => "INTO"
  | .kwIs => "IS"
  | .kwJoin => "JOIN"
  | .kwLeft => "LEFT"
  | .kwLike => "LIKE"
  | .kwLimit => "LIMIT"
  | .kwNatural => "NATURAL"
  | .kwNot => "NOT"
  | .kwNull => "NULL"
  | .kwOffset => "OFFSET"
  | .kwOn => "ON"
  | .kwOr => "OR"
  | .kwOrder => "ORDER"
  | .kwOuter => "OUTER"
  | .kwRestrict => "RESTRICT"
  | .kwRight => "RIGHT"
  | .kwRollback => "ROLLBACK"
  | .kwSelect => "SELECT"
  | .kwSet => "SET"
  | .kwTransaction => "TRANSACTION"
  | .kwTrue => "TRUE"
  | .kwUnion => "UNION"
  | .kwUpdate => "UPDATE"
  | .kwUsing => "USING"
  | .kwValues => "VALUES"
  | .kwWhere => "WHERE"

/-- Every reserved word, in declaration order. -/
def Keyword.all : List Keyword :=
  [.kwAnd, .kwAs, .kwAsc, .kwBegin, .kwBy, .kwCascade, .kwCommit, .kwCross, .kwDelete, .kwDesc, .kwDistinct,
    .kwExcept, .kwFalse, .kwFrom, .kwFull, .kwGroup, .kwHaving, .kwIn, .kwInner, .kwInsert, .kwIntersect, .kwInto,
    .kwIs, .kwJoin, .kwLeft, .kwLike, .kwLimit, .kwNatural, .kwNot, .kwNull, .kwOffset, .kwOn, .kwOr, .kwOrder,
    .kwOuter, .kwRestrict, .kwRight, .kwRollback, .kwSelect, .kwSet, .kwTransaction, .kwTrue, .kwUnion, .kwUpdate,
    .kwUsing, .kwValues, .kwWhere]

/-- The text in lower case, of ASCII letters only. -/
def lower (text : List Char) : List Char := text.map Char.toLower

/-- `from_word`. -/
def Keyword.fromWord (word : List Char) : Option Keyword :=
  Keyword.all.find? fun keyword => lower keyword.asStr.toList == lower word

inductive Token where
  | keyword (keyword : Keyword)
  | identifier (name : List Char)
  | integer (value : UInt64)
  | float (text : List Char)
  | string (content : List Char)
  | placeholder
  | comma
  | dot
  | leftParen
  | rightParen
  | star
  | semicolon
  | minus
  | eq
  | notEq
  | lt
  | ltEq
  | gt
  | gtEq
  | eof
  deriving DecidableEq

/-- 1-based position in a text. -/
structure Position where
  line : ℕ
  col : ℕ
  deriving DecidableEq

structure Spanned where
  token : Token
  position : Position
  deriving DecidableEq

def Position.error (position : Position) (msg : String) : SqlError := .parse position.line position.col msg

/-- The position behind a character. -/
def Position.after (position : Position) (c : Char) : Position :=
  if c = '\n' then ⟨position.line + 1, 1⟩ else ⟨position.line, position.col + 1⟩

def Position.afterAll (position : Position) (text : List Char) : Position := text.foldl Position.after position

/-! ## The cursor -/

/-- The characters from the cursor on, and its position. -/
structure Lexer where
  rest : List Char
  position : Position
  deriving DecidableEq

def singleQuote : Char := Char.ofNat 39

def doubleQuote : Char := Char.ofNat 34

def backtick : Char := Char.ofNat 96

/-- `char::is_whitespace`: the property `White_Space`. -/
def isWhitespace (c : Char) : Bool :=
  (9 ≤ c.toNat && c.toNat ≤ 13) || c.toNat == 32 || c.toNat == 133 || c.toNat == 160 || c.toNat == 5760 ||
    (8192 ≤ c.toNat && c.toNat ≤ 8202) || c.toNat == 8232 || c.toNat == 8233 || c.toNat == 8239 || c.toNat == 8287 ||
    c.toNat == 12288

def isWordStart (c : Char) : Bool := c.isAlpha || c == '_'

def isWordChar (c : Char) : Bool := c.isAlphanum || c == '_'

namespace Lexer

/-- `peek_at`. -/
def peekAt (lexer : Lexer) (offset : ℕ) : Option Char := lexer.rest[offset]?

/-- `bump`. -/
def bump (lexer : Lexer) : Lexer :=
  match lexer.rest with
  | [] => lexer
  | c :: cs => ⟨cs, lexer.position.after c⟩

/-- `single` and `double`. -/
def bumps (lexer : Lexer) : ℕ → Lexer
  | 0 => lexer
  | n + 1 => lexer.bump.bumps n

/-- Up to the end of the line. -/
def skipLine : List Char → Position → Lexer
  | [], position => ⟨[], position⟩
  | c :: cs, position => if c = '\n' then ⟨c :: cs, position⟩ else skipLine cs (position.after c)

/-- Behind the next end of a block comment. -/
def skipBlock (start : Position) : List Char → Position → Except SqlError Lexer
  | '*' :: '/' :: cs, position => .ok ⟨cs, (position.after '*').after '/'⟩
  | c :: cs, position => skipBlock start cs (position.after c)
  | [], _ => .error (start.error "unterminated block comment")

/-- `skip_block_comment`. -/
def skipBlockComment (lexer : Lexer) : Except SqlError Lexer :=
  skipBlock lexer.position (lexer.bumps 2).rest (lexer.bumps 2).position

/-- `skip_trivia`, with fuel for the loop. -/
def skipTrivia : ℕ → Lexer → Option (Except SqlError Lexer)
  | 0, _ => none
  | fuel + 1, lexer =>
      if (lexer.peekAt 0).any isWhitespace then skipTrivia fuel lexer.bump
      else if lexer.peekAt 0 = some '-' ∧ lexer.peekAt 1 = some '-' then skipTrivia fuel (skipLine lexer.rest lexer.position)
      else if lexer.peekAt 0 = some '/' ∧ lexer.peekAt 1 = some '*' then
        match lexer.skipBlockComment with
        | .ok lexer => skipTrivia fuel lexer
        | .error error => some (.error error)
      else some (.ok lexer)

/-- The longest run of characters of a kind. -/
def takeChars (kind : Char → Bool) : List Char → Position → List Char × Lexer
  | [], position => ([], ⟨[], position⟩)
  | c :: cs, position =>
      if kind c then
        let (word, lexer) := takeChars kind cs (position.after c)
        (c :: word, lexer)
      else ([], ⟨c :: cs, position⟩)

/-- The loop of `quoted`. -/
def quotedFrom (quote : Char) (error : SqlError) : List Char → Position → Except SqlError (List Char × Lexer)
  | [], _ => .error error
  | [c], position => if c = quote then .ok ([], ⟨[], position.after c⟩) else .error error
  | c :: next :: rest, position =>
      if c = quote ∧ next = quote then do
        let (content, lexer) ← quotedFrom quote error rest ((position.after c).after next)
        return (quote :: content, lexer)
      else if c = quote then .ok ([], ⟨next :: rest, position.after c⟩)
      else do
        let (content, lexer) ← quotedFrom quote error (next :: rest) (position.after c)
        return (c :: content, lexer)

/-- `quoted`. -/
def quoted (lexer : Lexer) (quote : Char) (unterminated : String) : Except SqlError (List Char × Lexer) :=
  quotedFrom quote (lexer.position.error unterminated) lexer.bump.rest lexer.bump.position

/-- `digits`. -/
def digits (lexer : Lexer) : List Char × Lexer := takeChars Char.isDigit lexer.rest lexer.position

/-- The digits behind the point of a decimal, if they are there. -/
def fraction (lexer : Lexer) : Option (List Char × Lexer) :=
  if lexer.peekAt 0 = some '.' ∧ (lexer.peekAt 1).any Char.isDigit then some lexer.bump.digits else none

/-- `number`. -/
def number (lexer : Lexer) : Except SqlError (Token × Lexer) :=
  let (whole, behind) := lexer.digits
  match behind.fraction with
  | some (fraction, behind) =>
      if (behind.peekAt 0).any isWordStart then .error (lexer.position.error "invalid numeric literal")
      else .ok (.float (whole ++ '.' :: fraction), behind)
  | none =>
      if (behind.peekAt 0).any isWordStart then .error (lexer.position.error "invalid numeric literal")
      else if value whole < 2 ^ 64 then .ok (.integer (UInt64.ofNat (value whole)), behind)
      else .error (lexer.position.error "integer literal is too large")

/-- `word`. -/
def word (lexer : Lexer) : Token × Lexer :=
  let (word, behind) := takeChars isWordChar lexer.rest lexer.position
  match Keyword.fromWord word with
  | some keyword => (.keyword keyword, behind)
  | none => (.identifier word, behind)

/-- The symbol in front of a text, and its length. -/
def symbol : List Char → Option (Token × ℕ)
  | ',' :: _ => some (.comma, 1)
  | '.' :: _ => some (.dot, 1)
  | '(' :: _ => some (.leftParen, 1)
  | ')' :: _ => some (.rightParen, 1)
  | '*' :: _ => some (.star, 1)
  | ';' :: _ => some (.semicolon, 1)
  | '-' :: _ => some (.minus, 1)
  | '?' :: _ => some (.placeholder, 1)
  | '=' :: _ => some (.eq, 1)
  | '!' :: '=' :: _ => some (.notEq, 2)
  | '<' :: '>' :: _ => some (.notEq, 2)
  | '<' :: '=' :: _ => some (.ltEq, 2)
  | '<' :: _ => some (.lt, 1)
  | '>' :: '=' :: _ => some (.gtEq, 2)
  | '>' :: _ => some (.gt, 1)
  | _ => none

/-- The tokens that are no symbols, from the first character on. -/
def otherToken (lexer : Lexer) (c : Char) : Except SqlError (Token × Lexer) :=
  if c = singleQuote then do
    let (content, lexer) ← lexer.quoted singleQuote "unterminated string literal"
    return (.string content, lexer)
  else if c = doubleQuote then do
    let (name, behind) ← lexer.quoted doubleQuote "unterminated quoted identifier"
    if name = [] then .error (lexer.position.error "quoted identifier cannot be empty")
    else return (.identifier name, behind)
  else if c = backtick then
    .error (lexer.position.error "backtick-quoted identifiers are not supported; use double quotes")
  else if c = ':' ∨ c = '$' ∨ c = '@' then
    .error (lexer.position.error "named and numbered placeholders are not supported; use `?`")
  else if c.isDigit then lexer.number
  else if isWordStart c then .ok lexer.word
  else .error (lexer.position.error s!"unexpected character `{c}`")

/-- `next_token`. -/
def nextToken (lexer : Lexer) : Except SqlError (Token × Lexer) :=
  match lexer.rest with
  | [] => .ok (.eof, lexer)
  | c :: _ =>
      match symbol lexer.rest with
      | some (token, length) => .ok (token, lexer.bumps length)
      | none => lexer.otherToken c

/-- The loop of `tokenize`, with fuel. -/
def tokens : ℕ → Lexer → Option (Except SqlError (List Spanned))
  | 0, _ => none
  | fuel + 1, lexer =>
      match skipTrivia (fuel + 1) lexer with
      | none => none
      | some (.error error) => some (.error error)
      | some (.ok lexer) =>
          match lexer.nextToken with
          | .error error => some (.error error)
          | .ok (token, behind) =>
              if token = .eof then some (.ok [⟨token, lexer.position⟩])
              else (tokens fuel behind).map fun answer => answer.map (⟨token, lexer.position⟩ :: ·)

end Lexer

/-- `tokenize`, with fuel for its loops. -/
def tokenizeWith (fuel : ℕ) (sql : List Char) : Option (Except SqlError (List Spanned)) := Lexer.tokens fuel ⟨sql, ⟨1, 1⟩⟩

end WasmDbms.Sql
