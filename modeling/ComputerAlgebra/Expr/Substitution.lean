import ComputerAlgebra.Expr.BottomUp

/-!
# Substitution

A substitution replaces variables by expressions, all at once: what is put in is not searched
again, and nothing is simplified. Named constants are variables here like any other.
-/

namespace ComputerAlgebra

/-- A finite map from variable names to the expressions that replace them. Of several entries for
one name the first counts. -/
abbrev Substitution := List (String × Expr)

namespace Expr

/-- Replace every variable that the substitution maps. -/
def substitute (e : Expr) (σ : Substitution) : Expr :=
  e.bottomUp fun
    | .var x => (σ.lookup x).getD (.var x)
    | node => node

variable (σ : Substitution)

@[simp] theorem substitute_var (x : String) :
    (var x).substitute σ = (σ.lookup x).getD (.var x) := by simp [substitute]

@[simp] theorem substitute_num (n : Int64) : (num n).substitute σ = .num n := by simp [substitute]

@[simp] theorem substitute_sum (es : List Expr) :
    (sum es).substitute σ = .sum (es.map (substitute · σ)) := by simp [substitute]

@[simp] theorem substitute_prod (es : List Expr) :
    (prod es).substitute σ = .prod (es.map (substitute · σ)) := by simp [substitute]

@[simp] theorem substitute_quot (a b : Expr) :
    (quot a b).substitute σ = .quot (a.substitute σ) (b.substitute σ) := by simp [substitute]

@[simp] theorem substitute_pow (a b : Expr) :
    (pow a b).substitute σ = .pow (a.substitute σ) (b.substitute σ) := by simp [substitute]

@[simp] theorem substitute_app (f : Func) (a : Expr) :
    (app f a).substitute σ = .app f (a.substitute σ) := by simp [substitute]

@[simp] theorem substitute_eqn (a b : Expr) :
    (eqn a b).substitute σ = .eqn (a.substitute σ) (b.substitute σ) := by simp [substitute]

end Expr

end ComputerAlgebra
