import ComputerAlgebra.Expr.Substitution
import ComputerAlgebra.Job.Symbolic

/-!
# Taylor polynomials

The Taylor polynomial of an expression in one variable around a point, which may be any expression:
the sum of `f⁽ⁿ⁾(p) * (x - p) ^ n / n!` over all `n` up to the order.
-/

namespace ComputerAlgebra

namespace Calculus

/-- The largest order: `20!` is the last factorial below `2 ^ 63`. -/
def maxTaylorOrder : Nat := 20

/-- The term of order `n`, given the derivative of that order and `n!`. -/
def taylorTerm (x : String) (p : Expr) (n : Nat) (factorial : Int64) (derivative : Expr) : Expr :=
  .quot
    (.prod [derivative.substitute [(x, p)], .pow (.subtract (.var x) p) (.num (.ofNat n))])
    (.num factorial)

/-- The next `count` terms after the one of order `n`, given the derivative of that order and
`n!`. -/
def taylorTerms (cap : Option Nat) (x : String) (p : Expr) :
    (count n : Nat) → (factorial : Int64) → (derivative : Expr) → Job (List Expr)
  | 0, _, _, _ => return []
  | count + 1, n, factorial, derivative => do
    let derivative ← Job.differentiate cap derivative x
    let factorial := factorial * .ofNat (n + 1)
    let terms ← taylorTerms cap x p count (n + 1) factorial derivative
    return taylorTerm x p (n + 1) factorial derivative :: terms

/-- The Taylor polynomial of an expression in the variable `x` around the point `p`, simplified. -/
def taylor (cap : Option Nat) (f : Expr) (x : String) (p : Expr) (order : Nat) : Job Expr := do
  if f.isEquation || p.isEquation then throw (.domain .expandedEquation)
  if maxTaylorOrder < order then throw (.domain (.orderTooLarge order maxTaylorOrder))
  let f ← Job.simplify cap f
  let terms ← taylorTerms cap x p order 0 1 f
  Job.simplify cap (.sumOf (f.substitute [(x, p)] :: terms))

end Calculus

end ComputerAlgebra
