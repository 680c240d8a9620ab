import ComputerAlgebra.Parsing.Numeral
import ComputerAlgebra.Parsing.ReversePolish

/-!
# Reading formulas

A formula is an expression, or two of them with an equality sign between. Each is put into reverse
Polish order, and its tree is then built on a stack.
-/

namespace ComputerAlgebra

namespace Parsing

/-- The tree of an infix operator. A difference is a sum with a negative. -/
def combine : Operator → Expr → Expr → Expr
  | .add, a, b => .sum [a, b]
  | .sub, a, b => .subtract a b
  | .mul, a, b => .prod [a, b]
  | .div, a, b => .quot a b
  | .pow, a, b => .pow a b

/-- Let one item act on the stack of finished operands. -/
def apply (stack : List Expr) (item : Located ReversePolish.Item) : Except Fault (List Expr) :=
  match item.value, stack with
  | .number digits, stack =>
    match readNumeral? digits with
    | some e => .ok (e :: stack)
    | none => .error (.at (.malformedNumber (String.ofList digits)) item.span)
  | .minusOne, stack => .ok (.num (-1) :: stack)
  | .name x, stack => .ok (.var x :: stack)
  | .func f, a :: stack => .ok (.app f a :: stack)
  | .op o, b :: a :: stack => .ok (combine o a b :: stack)
  | _, _ => .error (.at .invalidExpression item.span)

/-- Build the tree of items in reverse Polish order. -/
def build (items : List (Located ReversePolish.Item)) : Except Fault Expr := do
  match ← items.foldlM apply [] with
  | [e] => .ok e
  | _ => .error (.overall .invalidExpression)

/-- Read one side of an equation, or a formula without equality sign. -/
def readSide (ts : List Token) : Except Fault Expr :=
  if ts.isEmpty then .error (.overall .emptyExpression)
  else do build (← ReversePolish.ofTokens ts)

/-- Read the tokens of a formula. A second equality sign is noticed before anything else. -/
def readTokens (ts : List Token) : Except Fault Expr :=
  match ts.span fun t => !t.isEquals with
  | (_, []) => readSide ts
  | (left, _ :: right) =>
    if right.any Token.isEquals then .error (.overall .severalEquals)
    else do return .eqn (← readSide left) (← readSide right)

end Parsing

/-- Read a formula. -/
def Expr.parse (text : String) : Except SyntaxError Expr :=
  (Parsing.readTokens (Parsing.Token.ofText text)).mapError fun fault => { fault with text }

end ComputerAlgebra
