import ComputerAlgebra.Calculus.Derivative
import ComputerAlgebra.Simplification.Round
import ComputerAlgebra.Job

/-!
# Symbolic operations as jobs

Simplification and differentiation. A simplification comes to a checkpoint before each of its
rounds, and before it notices that it may take no more of them.
-/

namespace ComputerAlgebra

namespace Job

/-- Repeat the rounds of a simplification until one of them changes nothing, but at most `left`
times. `allowed` is the number that a failure reports. -/
def rounds (allowed : Nat) : (left : Nat) → Expr → Job Expr
  | 0, e => do
    checkpoint
    throw (.notConverged allowed e)
  | left + 1, e => do
    checkpoint
    let next := Simplification.round e
    if next = e then return e else rounds allowed left next

/-- Simplify with at most `cap` rounds, or with as many as it takes. -/
def simplify (cap : Option Nat) (e : Expr) : Job Expr :=
  let allowed := cap.getD Simplification.unbounded
  rounds allowed allowed e

/-- The derivative by a variable, simplified before and after. -/
def differentiate (cap : Option Nat) (e : Expr) (x : String) : Job Expr := do
  simplify cap (Calculus.derivative x (← simplify cap e))

end Job

end ComputerAlgebra
