import ComputerAlgebra.Expr.Order
import ComputerAlgebra.Expr.BottomUp
import ComputerAlgebra.Sorted

/-!
# Sorting operands

The operands of sums and products are put into the order of `Expr.cmp`. Trees that differ only in
the order of operands become equal, since operands are sorted before the node that holds them.
-/

namespace ComputerAlgebra

namespace Simplification

namespace Sorting

/-- Sort the operands of one node. -/
def rule : Expr → Expr
  | .sum es => .sum (Sorted.sort Expr.le es)
  | .prod es => .prod (Sorted.sort Expr.le es)
  | e => e

end Sorting

/-- Sort the operands of sums and products everywhere. -/
def sortOperands (e : Expr) : Expr := e.bottomUp Sorting.rule

end Simplification

end ComputerAlgebra
