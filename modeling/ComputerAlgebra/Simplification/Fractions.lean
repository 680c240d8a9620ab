import ComputerAlgebra.Expr.BottomUp

/-!
# One fraction bar

Quotients move outwards, so that of a product or a quotient at most one fraction bar remains.
-/

namespace ComputerAlgebra

namespace Simplification

namespace Fractions

/-- What a factor contributes to the numerator of a product. -/
def numerator : Expr → Expr
  | .quot a _ => a
  | e => e

/-- What a factor contributes to the denominator of a product, if it is a quotient. -/
def denominator? : Expr → Option Expr
  | .quot _ b => some b
  | _ => none

/-- `(a / b) / c = a / (b * c)`, else `a / (b / c) = (a * c) / b`. -/
def quotient : Expr → Expr → Expr
  | .quot a b, c => .quot a (.prod [b, c])
  | a, .quot b c => .quot (.prod [a, c]) b
  | a, b => .quot a b

/-- `a * (b / c) * (d / e) = (a * b * d) / (c * e)`. -/
def product (es : List Expr) : Expr :=
  match es.filterMap denominator? with
  | [] => .prod es
  | denominators => .quot (.prodOf (es.map numerator)) (.prodOf denominators)

/-- Move quotients out of one node. -/
def rule : Expr → Expr
  | .quot a b => quotient a b
  | .prod es => product es
  | e => e

end Fractions

/-- Merge fractions everywhere, operands first. -/
def mergeFractions (e : Expr) : Expr := e.bottomUp Fractions.rule

end Simplification

end ComputerAlgebra
