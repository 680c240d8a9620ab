import ComputerAlgebra.Expr.BottomUp

/-!
# Flattening nested sums and products

`a + (b + c)` becomes `a + b + c`, and likewise for products. Formulas nest a chain of operators one
level for each operator, so this pass keeps what is left to do on a list of its own instead of
recursing into the tree; the passes after it see shallow trees.
-/

namespace ComputerAlgebra

namespace Expr

/-- The operands of a node, in order. -/
def operands : Expr → List Expr
  | .var _ => []
  | .num _ => []
  | .sum es => es
  | .prod es => es
  | .quot a b => [a, b]
  | .pow a b => [a, b]
  | .app _ a => [a]
  | .eqn a b => [a, b]

/-- The same node over other operands, if their number is right. -/
def withOperands? : Expr → List Expr → Option Expr
  | .var x, [] => some (.var x)
  | .num n, [] => some (.num n)
  | .sum _, es => some (.sum es)
  | .prod _, es => some (.prod es)
  | .quot _ _, [a, b] => some (.quot a b)
  | .pow _ _, [a, b] => some (.pow a b)
  | .app f _, [a] => some (.app f a)
  | .eqn _ _, [a, b] => some (.eqn a b)
  | _, _ => none

/-- Taking a node apart and putting it together again gives the node. -/
@[simp] theorem withOperands?_operands (e : Expr) : e.withOperands? e.operands = some e := by
  cases e <;> rfl

end Expr

namespace Simplification

namespace Flatten

/-- What an operand contributes to a sum: the addends of a sum, and anything else itself. -/
def addends : Expr → List Expr
  | .sum es => es
  | e => [e]

/-- What an operand contributes to a product: the factors of a product, and anything else itself. -/
def factors : Expr → List Expr
  | .prod es => es
  | e => [e]

/-- Splice the operands of the same operation into a sum or a product. -/
def splice : Expr → Expr
  | .sum es => .sum (es.flatMap addends)
  | .prod es => .prod (es.flatMap factors)
  | e => e

/-- What is left to do: visit a node, or rebuild one over its finished operands. -/
inductive Step where
  | enter (e : Expr)
  | leave (e : Expr)

/-- Work through the steps that are left. Finished trees wait on a stack, last one first, and
leaving a node takes as many of them as it has operands. Gives nothing if the fuel runs out or a
tree is missing, which the fuel of `flatten` and the order of the steps exclude. -/
def run : Nat → List Step → List Expr → Option Expr
  | _, [], finished => finished.head?
  | 0, _ :: _, _ => none
  | fuel + 1, .enter e :: steps, finished =>
    run fuel (e.operands.map .enter ++ .leave e :: steps) finished
  | fuel + 1, .leave e :: steps, finished =>
    let count := e.operands.length
    match e.withOperands? (finished.take count).reverse with
    | some e' => run fuel steps (splice e' :: finished.drop count)
    | none => none

end Flatten

/-- Flatten nested sums and products. Every node is entered once and left once. -/
def flatten (e : Expr) : Expr := (Flatten.run (2 * e.nodeCount) [.enter e] []).getD e

end Simplification

end ComputerAlgebra
