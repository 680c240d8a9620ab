import ComputerAlgebra.Func
import ComputerAlgebra.Operator
import ComputerAlgebra.Parsing.Token

/-!
# Lexemes

What a token means on its own: a numeral, a name, a function, an operator or a parenthesis.
-/

namespace ComputerAlgebra

namespace Parsing

/-- A value that was read from some bytes of a formula. -/
structure Located (α : Type) where
  value : α
  span : Span
  deriving DecidableEq, Repr, Inhabited

/-- The meaning of a token. -/
inductive Lexeme where
  | number (digits : List Char)
  | name (text : String)
  | func (f : Func)
  | op (op : Operator)
  | leftParen
  | rightParen
  deriving DecidableEq, Repr, Inhabited

/-- The meaning of a symbol, if it has one. -/
def Lexeme.ofSymbol? (text : String) : Option Lexeme :=
  if text = "(" then some .leftParen
  else if text = ")" then some .rightParen
  else (Operator.ofSymbol? text).map .op

/-- Does a lexeme begin an operand? -/
def Lexeme.startsOperand : Lexeme → Bool
  | number _ => true
  | name _ => true
  | func _ => true
  | leftParen => true
  | _ => false

/-- The meaning of a token. A word is a function if it spells one, and a name otherwise. -/
def Token.lexeme (t : Token) : Except Fault (Located Lexeme) :=
  match t.cls with
  | .number => .ok ⟨.number t.chars, t.span⟩
  | .word =>
    match Func.ofName? t.text with
    | some f => .ok ⟨.func f, t.span⟩
    | none => .ok ⟨.name t.text, t.span⟩
  | _ =>
    match Lexeme.ofSymbol? t.text with
    | some l => .ok ⟨l, t.span⟩
    | none => .error (.at (.unknownOperator t.text) t.span)

end Parsing

end ComputerAlgebra
