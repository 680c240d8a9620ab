/-!
# Syntax errors

A formula is refused for one of six causes. An error keeps the whole formula and, where one token is
to blame, the bytes which that token occupies.
-/

namespace ComputerAlgebra

/-- A range of bytes of a text: `start` is the first byte, `stop` the first one after it. -/
structure Span where
  start : Nat
  stop : Nat
  deriving DecidableEq, Repr, Inhabited

namespace Span

/-- How an error message names the range: bytes are counted from one, the last one included. An
empty range has no name. -/
def describe (s : Span) : String :=
  if s.stop ≤ s.start then ""
  else if s.stop - s.start = 1 then s!" at position {s.start + 1}"
  else s!" at positions {s.start + 1}-{s.stop}"

end Span

namespace Parsing

/-- Why a formula is refused. -/
inductive Cause where
  /-- A formula, or one side of an equation, holds nothing but white space. -/
  | emptyExpression
  /-- A formula has two or more equality signs. -/
  | severalEquals
  /-- A symbol is neither an operator nor a parenthesis. -/
  | unknownOperator (symbol : String)
  /-- A parenthesis lacks its partner. -/
  | mismatchedParentheses
  /-- A numeral has no digit, two points, or a value out of range. -/
  | malformedNumber (text : String)
  /-- Operators and operands do not fit together. -/
  | invalidExpression
  deriving DecidableEq, Repr, Inhabited

/-- The wording of a cause. -/
def Cause.message : Cause → String
  | emptyExpression => "empty expression"
  | severalEquals => "an equation must contain exactly one '='"
  | unknownOperator symbol => "unknown operator: " ++ symbol
  | mismatchedParentheses => "mismatched parentheses"
  | malformedNumber text => "malformed number: " ++ text
  | invalidExpression => "invalid expression"

/-- A cause, together with the place of the token to blame if there is one. -/
structure Fault where
  cause : Cause
  span : Option Span
  deriving DecidableEq, Repr, Inhabited

/-- A fault of a given token. -/
def Fault.at (cause : Cause) (span : Span) : Fault := ⟨cause, some span⟩

/-- A fault that no single token is to blame for. -/
def Fault.overall (cause : Cause) : Fault := ⟨cause, none⟩

end Parsing

/-- Why and where a formula is refused, with the formula. -/
structure SyntaxError extends Parsing.Fault where
  text : String
  deriving DecidableEq, Repr, Inhabited

namespace SyntaxError

/-- The cause in words, without place and formula. -/
def bareMessage (e : SyntaxError) : String := e.cause.message

/-- The full message: cause, place and formula. -/
def message (e : SyntaxError) : String :=
  e.bareMessage ++ (e.span.elim "" Span.describe) ++ " in '" ++ e.text ++ "'"

end SyntaxError

end ComputerAlgebra
