import ComputerAlgebra.Expr.BottomUp

/-!
# Folding numbers

Exact arithmetic on the integers and fractions among the operands of a node. Where a result does not
fit into 64 bits the node stays as it was.
-/

namespace ComputerAlgebra

namespace Simplification

namespace Fold

/-- Reduce a quotient of integers, unless its denominator is `0`. -/
def quotient (a b : Expr) : Expr :=
  match a, b with
  | .num n, .num d =>
    if d = 0 then .quot a b
    else ((Fraction.reduce? ⟨n, d⟩).map Expr.ofFraction).getD (.quot a b)
  | _, _ => .quot a b

/-- Multiply integers. -/
def multiply? (ns : List Int64) : Option Int64 := ns.foldlM Int64.mul? 1

/-- Multiply the integers among the factors and put the product last, unless it is `1` and other
factors remain. -/
def product (es : List Expr) : Expr :=
  match multiply? (es.filterMap Expr.num?) with
  | none => .prod es
  | some c =>
    let others := es.filter fun e => e.num?.isNone
    if c = 0 then 0
    else if c ≠ 1 ∨ others = [] then .prodOf (others ++ [.num c])
    else .prodOf others

/-- Add the integers and fractions among the addends and put their sum last, unless it is `0`. A
fraction with denominator `0` keeps the whole sum as it is. -/
def addends (es : List Expr) : Expr :=
  let fractions := es.filterMap Expr.fraction?
  if fractions = [] ∨ fractions.any fun q => q.den = 0 then .sum es
  else match Fraction.sum? fractions with
    | none => .sum es
    | some q =>
      let others := es.filter fun e => e.fraction?.isNone
      .sumOf (if q.num = 0 then others else others ++ [.ofFraction q])

/-- Fold the numbers among the operands of one node. -/
def rule : Expr → Expr
  | .quot a b => quotient a b
  | .prod es => product es
  | .sum es => addends es
  | e => e

end Fold

/-- Fold numbers everywhere, operands first. -/
def fold (e : Expr) : Expr := e.bottomUp Fold.rule

end Simplification

end ComputerAlgebra
