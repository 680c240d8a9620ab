import ComputerAlgebra.Func
import ComputerAlgebra.Operator

/-!
# Styles of writing

How expressions are written down differs in the signs used and in where parentheses may be left
out. A style fixes both; the rules that styles share are in `ComputerAlgebra.Printing.Render`.

Two styles are defined here: `Style.plain`, which can be read again, and `Style.latex`, for
typesetting.
-/

namespace ComputerAlgebra

namespace Printing

/-- How an operation with two operands is written: what stands before, between and after them, and
for each operand the operator that it has to be told apart from, if any. -/
structure Layout where
  before : String
  leftContext : Option Operator
  between : String
  rightContext : Option Operator
  after : String

/-- What a style decides. -/
structure Style where
  /-- The opening parenthesis. -/
  openParen : String
  /-- The closing parenthesis. -/
  closeParen : String
  /-- What stands between two factors. -/
  times : String
  /-- How a variable is written. -/
  name : String → String
  /-- How a quotient is written. -/
  quotient : Layout
  /-- How a power is written. -/
  power : Layout
  /-- What stands before and after the argument of a function. -/
  call : Func → String × String
  /-- Does an operation need parentheses as an operand of another one? The outer operator comes
  first. -/
  wraps : Operator → Operator → Bool

/-- An operation needs parentheses unless it binds more tightly than the one around it. -/
def wrapsByPrecedence (outer inner : Operator) : Bool := inner.precedence ≤ outer.precedence

namespace Style

/-- Text that reads back as the tree it was printed from. -/
def plain : Style where
  openParen := "("
  closeParen := ")"
  times := "*"
  name := id
  quotient := ⟨"", some .div, "/", some .div, ""⟩
  power := ⟨"", some .pow, "^", some .pow, ""⟩
  call f := (f.name ++ "(", ")")
  wraps := wrapsByPrecedence

/-- The roman name of a function in LaTeX. -/
def latexName : Func → String
  | .asin => "\\arcsin"
  | .acos => "\\arccos"
  | .atan => "\\arctan"
  | f => "\\" ++ f.name

/-- LaTeX source for math mode. Fraction bars, roots and raised exponents enclose their operands, so
what stands there needs no parentheses, and a fraction needs them only as the base of a power. -/
def latex : Style where
  openParen := "\\left("
  closeParen := "\\right)"
  times := " \\cdot "
  name x := if x = "pi" ∨ x = "π" then "\\pi" else x
  quotient := ⟨"\\frac\x7b", none, "\x7d\x7b", none, "\x7d"⟩
  power := ⟨"", some .pow, "^\x7b", none, "\x7d"⟩
  call
    | .abs => ("\\left|", "\\right|")
    | .sqrt => ("\\sqrt\x7b", "\x7d")
    | f => (latexName f ++ "\\left(", "\\right)")
  wraps
    | outer, .div => outer = .pow
    | outer, inner => wrapsByPrecedence outer inner

end Style

end Printing

end ComputerAlgebra
