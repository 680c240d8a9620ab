import ComputerAlgebra.Expr.Basic
import ComputerAlgebra.NamedConstant
import ComputerAlgebra.Sorted

/-!
# Visiting the nodes of an expression

Every node has a label: its name, its digits or the sign of its operation. `Expr.visit` lists the
nodes of a tree, parents before children and operands from left to right, and can leave out what
lies under chosen nodes; `Expr.unknowns` lists the unknowns.
-/

namespace ComputerAlgebra

namespace Expr

/-- What stands at the root: a variable's name, a number's digits, an operation's sign or a
function's name. -/
def label : Expr → String
  | .var name => name
  | .num value => toString value.toInt
  | .sum _ => "+"
  | .prod _ => "*"
  | .quot _ _ => "/"
  | .pow _ _ => "^"
  | .app f _ => f.name
  | .eqn _ _ => "="

mutual

/-- The nodes of a tree in the order of a visit, without those under a node that is not entered. -/
def visit (enters : Expr → Bool) : Expr → List Expr
  | .var x => [.var x]
  | .num n => [.num n]
  | .sum es => .sum es :: if enters (.sum es) then visitAll enters es else []
  | .prod es => .prod es :: if enters (.prod es) then visitAll enters es else []
  | .quot a b => .quot a b :: if enters (.quot a b) then visit enters a ++ visit enters b else []
  | .pow a b => .pow a b :: if enters (.pow a b) then visit enters a ++ visit enters b else []
  | .app f a => .app f a :: if enters (.app f a) then visit enters a else []
  | .eqn a b => .eqn a b :: if enters (.eqn a b) then visit enters a ++ visit enters b else []

/-- The nodes of several trees, one tree after the other. -/
def visitAll (enters : Expr → Bool) : List Expr → List Expr
  | [] => []
  | e :: es => visit enters e ++ visitAll enters es

end

mutual

/-- Every variable name in a tree from left to right, with repetitions and named constants. -/
def names : Expr → List String
  | .var x => [x]
  | .num _ => []
  | .sum es => namesAll es
  | .prod es => namesAll es
  | .quot a b => names a ++ names b
  | .pow a b => names a ++ names b
  | .app _ a => names a
  | .eqn a b => names a ++ names b

/-- Every variable name in a list of trees. -/
def namesAll : List Expr → List String
  | [] => []
  | e :: es => names e ++ namesAll es

end

/-- A visit of several trees visits one after the other. -/
theorem visitAll_eq_flatMap (enters : Expr → Bool) (es : List Expr) :
    visitAll enters es = es.flatMap (visit enters) := by
  induction es with
  | nil => rfl
  | cons e es ih => simp [visitAll, ih]

/-- The names of several trees are those of one after the other. -/
theorem namesAll_eq_flatMap (es : List Expr) : namesAll es = es.flatMap names := by
  induction es with
  | nil => rfl
  | cons e es ih => simp [namesAll, ih]

/-- The unknowns of an expression: its variables that name no constant, each once, in the order of
their code points. -/
def unknowns (e : Expr) : List String :=
  Sorted.distinct (fun x y => (compare x y).isLE) (e.names.filter fun x => !NamedConstant.isName x)

/-- The unknowns are the variables that name no constant. -/
theorem mem_unknowns {e : Expr} {x : String} :
    x ∈ e.unknowns ↔ x ∈ e.names ∧ NamedConstant.isName x = false := by
  simp [unknowns, Sorted.mem_distinct]

end Expr

end ComputerAlgebra
