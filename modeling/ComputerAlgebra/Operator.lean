/-!
# Infix operators

The five operators of the written form of expressions. A subtraction exists in writing only: as a
tree, `a - b` is the sum of `a` and of `-1` times `b`.
-/

namespace ComputerAlgebra

/-- The infix operators of written formulas. -/
inductive Operator where
  | add | sub | mul | div | pow
  deriving DecidableEq, Repr, Inhabited

namespace Operator

/-- Every operator, weakest first. -/
def all : List Operator := [add, sub, mul, div, pow]

/-- How tightly an operator binds; a larger number binds more tightly. -/
def precedence : Operator → Nat
  | add => 1
  | sub => 1
  | mul => 2
  | div => 2
  | pow => 3

/-- Powers associate to the right, all other operators to the left. -/
def isRightAssoc : Operator → Bool
  | pow => true
  | _ => false

/-- The character that writes the operator. -/
def char : Operator → Char
  | add => '+'
  | sub => '-'
  | mul => '*'
  | div => '/'
  | pow => '^'

/-- The text that writes the operator. -/
def symbol (op : Operator) : String := String.singleton op.char

/-- The operator that a text writes, if it writes one. -/
def ofSymbol? (text : String) : Option Operator := all.find? fun op => op.symbol = text

@[simp] theorem ofSymbol?_symbol (op : Operator) : ofSymbol? op.symbol = some op := by
  cases op <;> decide

end Operator

end ComputerAlgebra
