import ComputerAlgebra.Numeric.Arithmetic
import ComputerAlgebra.Job

/-!
# Numeric evaluation

The value of an expression, given values for its variables. Every operand is evaluated, from left to
right, so the outcome never depends on a value: an expression has one unless it holds an equation or
a variable without value. Named constants cannot be given values.
-/

namespace ComputerAlgebra

open Arithmetic

variable {α : Type} [Arithmetic α]

/-- Values for variables. Of several values for one name the first counts. -/
abbrev Bindings (α : Type) := List (String × α)

/-- The value of a variable: that of the constant it names, or else the one it is bound to. -/
def Bindings.value? (bs : Bindings α) (x : String) : Option α :=
  match NamedConstant.ofName? x with
  | some c => some (constant c)
  | none => bs.lookup x

namespace Expr

mutual

/-- The value of an expression. A sum adds its addends from left to right to the empty sum, a
product multiplies its factors from left to right with one. -/
def evaluate (bs : Bindings α) : Expr → Except EvaluationError α
  | .num n => .ok (ofInt n)
  | .var x => match bs.value? x with
    | some v => .ok v
    | none => .error (.unbound x)
  | .sum es => do return (← evaluateAll bs es).foldl (· + ·) emptySum
  | .prod es => do return (← evaluateAll bs es).foldl (· * ·) (ofInt 1)
  | .quot a b => do
    let v ← evaluate bs a
    let w ← evaluate bs b
    return v / w
  | .pow a b => do
    let v ← evaluate bs a
    let w ← evaluate bs b
    return power v w
  | .app f a => do return apply f (← evaluate bs a)
  | .eqn _ _ => .error .equation

/-- The values of several expressions. -/
def evaluateAll (bs : Bindings α) : List Expr → Except EvaluationError (List α)
  | [] => .ok []
  | e :: es => do
    let v ← evaluate bs e
    let vs ← evaluateAll bs es
    return v :: vs

end

end Expr

/-- The value of an expression, after a checkpoint. -/
def Job.evaluate (bs : Bindings α) (e : Expr) : Job α := do
  checkpoint
  match e.evaluate bs with
  | .ok v => return v
  | .error err => throw (.valueless err)

end ComputerAlgebra
