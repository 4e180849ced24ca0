import Mathlib.Algebra.Field.Rat
import WasmDbms.Db.Value
import WasmDbms.Lib.Numerals

/-!
# The values of a statement

Literals as they are written, parameters, and the errors of the front-end that name a
place in the text or a column.
-/
namespace WasmDbms.Sql
open Numerals

/-- The variants of `SqlError` that the lexer and the conversion of values use. A type is
named by its `CandidDataTypeKind`. -/
inductive SqlError where
  | parse (line col : ℕ) (msg : String)
  | typeMismatch (column : String) (expected : DataTypeKind) (got : String)
  | invalidLiteral (column : String) (expected : DataTypeKind) (reason : String)
  | parameterCountMismatch (expected got : ℕ)
  deriving DecidableEq

/-- The parts of a decimal literal, which is kept as written: `[-]digits.digits`. -/
structure DecimalLiteral where
  negative : Bool
  whole : List Char
  fraction : List Char
  whole_ne_nil : whole ≠ []
  fraction_ne_nil : fraction ≠ []
  digits : ∀ c ∈ whole ++ fraction, c.isDigit = true
  deriving DecidableEq

namespace DecimalLiteral

def text (l : DecimalLiteral) : String :=
  String.ofList ((if l.negative then ['-'] else []) ++ l.whole ++ '.' :: l.fraction)

/-- The number that is written. -/
def number (l : DecimalLiteral) : ℚ :=
  (if l.negative then -1 else 1) * (value l.whole + value l.fraction / 10 ^ l.fraction.length)

end DecimalLiteral

inductive Literal where
  | integer (value : ℤ)
  | float (value : DecimalLiteral)
  | string (value : String)
  | boolean (value : Bool)
  | null
  deriving DecidableEq

/-- A placeholder is numbered from zero. -/
inductive ValueExpr where
  | literal (literal : Literal)
  | parameter (index : ℕ)
  deriving DecidableEq

end WasmDbms.Sql
