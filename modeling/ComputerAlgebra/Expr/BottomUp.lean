import ComputerAlgebra.Expr.Basic

/-!
# Rules applied from the leaves up

A pass over an expression is given by a rule for single nodes. `Expr.bottomUp` applies the rule once
to every node, children before parents, so that the rule meets each node with its operands done.
-/

namespace ComputerAlgebra

namespace Expr

mutual

/-- Apply a rule to every node, children before parents. -/
def bottomUp (rule : Expr → Expr) : Expr → Expr
  | .var x => rule (.var x)
  | .num n => rule (.num n)
  | .sum es => rule (.sum (bottomUpAll rule es))
  | .prod es => rule (.prod (bottomUpAll rule es))
  | .quot a b => rule (.quot (bottomUp rule a) (bottomUp rule b))
  | .pow a b => rule (.pow (bottomUp rule a) (bottomUp rule b))
  | .app f a => rule (.app f (bottomUp rule a))
  | .eqn a b => rule (.eqn (bottomUp rule a) (bottomUp rule b))

/-- Apply a rule to every node of each expression of a list. -/
def bottomUpAll (rule : Expr → Expr) : List Expr → List Expr
  | [] => []
  | e :: es => bottomUp rule e :: bottomUpAll rule es

end

/-- Rewriting several trees rewrites each of them. -/
theorem bottomUpAll_eq_map (rule : Expr → Expr) (es : List Expr) :
    bottomUpAll rule es = es.map (bottomUp rule) := by
  induction es with
  | nil => rfl
  | cons e es ih => simp [bottomUpAll, ih]

@[simp] theorem bottomUp_var (rule : Expr → Expr) (x : String) :
    (var x).bottomUp rule = rule (.var x) := rfl

@[simp] theorem bottomUp_num (rule : Expr → Expr) (n : Int64) :
    (num n).bottomUp rule = rule (.num n) := rfl

@[simp] theorem bottomUp_sum (rule : Expr → Expr) (es : List Expr) :
    (sum es).bottomUp rule = rule (.sum (es.map (bottomUp rule))) :=
  congrArg (fun es => rule (.sum es)) (bottomUpAll_eq_map rule es)

@[simp] theorem bottomUp_prod (rule : Expr → Expr) (es : List Expr) :
    (prod es).bottomUp rule = rule (.prod (es.map (bottomUp rule))) :=
  congrArg (fun es => rule (.prod es)) (bottomUpAll_eq_map rule es)

@[simp] theorem bottomUp_quot (rule : Expr → Expr) (a b : Expr) :
    (quot a b).bottomUp rule = rule (.quot (a.bottomUp rule) (b.bottomUp rule)) := rfl

@[simp] theorem bottomUp_pow (rule : Expr → Expr) (a b : Expr) :
    (pow a b).bottomUp rule = rule (.pow (a.bottomUp rule) (b.bottomUp rule)) := rfl

@[simp] theorem bottomUp_app (rule : Expr → Expr) (f : Func) (a : Expr) :
    (app f a).bottomUp rule = rule (.app f (a.bottomUp rule)) := rfl

@[simp] theorem bottomUp_eqn (rule : Expr → Expr) (a b : Expr) :
    (eqn a b).bottomUp rule = rule (.eqn (a.bottomUp rule) (b.bottomUp rule)) := rfl

end Expr

end ComputerAlgebra
