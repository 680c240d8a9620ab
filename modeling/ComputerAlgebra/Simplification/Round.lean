import ComputerAlgebra.Simplification.Collect
import ComputerAlgebra.Simplification.FixedPoint
import ComputerAlgebra.Simplification.Flatten
import ComputerAlgebra.Simplification.Fold
import ComputerAlgebra.Simplification.Fractions
import ComputerAlgebra.Simplification.Identities
import ComputerAlgebra.Simplification.Sorting

/-!
# The simplifier

Six passes make one round, and rounds are repeated until one of them changes nothing. A tree is
simplified if a whole round leaves it as it is.
-/

namespace ComputerAlgebra

namespace Simplification

/-- The passes of a round, in order. -/
def passes : List (Expr → Expr) :=
  [flatten, applyIdentities, mergeFractions, collect, fold, sortOperands]

/-- Apply every pass once. -/
def round (e : Expr) : Expr := passes.foldl (fun e pass => pass e) e

/-- How many rounds a simplification without a cap may take. No computation gets that far, and the
number makes the definition total. -/
def unbounded : Nat := 0x10000000000000000

/-- Simplify with at most `cap` rounds. The error is the tree that was reached. -/
def simplify (cap : Option Nat) (e : Expr) : Except Expr Expr :=
  converge round (cap.getD unbounded) e

/-- The trees that at most `limit` rounds go through, and the simplified one if it is reached. -/
def trace (limit : Nat) (e : Expr) : List Expr × Option Expr := approach round limit e

end Simplification

end ComputerAlgebra
