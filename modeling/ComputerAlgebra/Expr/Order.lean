import ComputerAlgebra.Expr.Basic

/-!
# The order of operands

A total order on expressions. Numbers come first, then variables, sums, products, quotients,
powers, functions and equations; within a kind, numbers go by value, variables by the code points
of their names, functions by their rank, and everything else by its operands from left to right.
-/

namespace ComputerAlgebra

namespace Expr

/-- The place of a node's kind in the order. -/
def rank : Expr → Nat
  | .num _ => 0
  | .var _ => 1
  | .sum _ => 2
  | .prod _ => 3
  | .quot _ _ => 4
  | .pow _ _ => 5
  | .app _ _ => 6
  | .eqn _ _ => 7

mutual

/-- Compare two expressions, first by kind, then by content. -/
def cmp : Expr → Expr → Ordering
  | .num m, .num n => compare m.toInt n.toInt
  | .var x, .var y => compare x y
  | .sum as, .sum bs => cmpAll as bs
  | .prod as, .prod bs => cmpAll as bs
  | .quot a b, .quot c d => (cmp a c).then (cmp b d)
  | .pow a b, .pow c d => (cmp a c).then (cmp b d)
  | .app f a, .app g b => (compare f.rank g.rank).then (cmp a b)
  | .eqn a b, .eqn c d => (cmp a c).then (cmp b d)
  | a, b => compare a.rank b.rank

/-- Compare two lists of operands by their first difference; a list that ends early comes first. -/
def cmpAll : List Expr → List Expr → Ordering
  | [], [] => .eq
  | [], _ :: _ => .lt
  | _ :: _, [] => .gt
  | a :: as, b :: bs => (cmp a b).then (cmpAll as bs)

end

/-- Does the first expression come before the second one, or equal it? -/
def le (a b : Expr) : Bool := (cmp a b).isLE

end Expr

end ComputerAlgebra
