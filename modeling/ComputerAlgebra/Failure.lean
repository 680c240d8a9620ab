import ComputerAlgebra.Expr.Basic
import ComputerAlgebra.Parsing.Error

/-!
# How an operation can fail

Every cause of failure with what belongs to it, and the wording of each.
-/

namespace ComputerAlgebra

/-- Why an expression has no numeric value. -/
inductive EvaluationError where
  /-- A variable has no value. -/
  | unbound (name : String)
  /-- An equation is not a number. -/
  | equation
  deriving DecidableEq, Repr, Inhabited

/-- The wording of an evaluation error. -/
def EvaluationError.message : EvaluationError → String
  | unbound name => "no value set for variable '" ++ name ++ "'"
  | equation => "cannot evaluate an equation"

/-- Why an operation does not apply to what it is given. -/
inductive DomainError where
  /-- Only equations have roots. -/
  | notAnEquation
  /-- An equation to solve needs exactly one unknown. -/
  | equationUnknowns
  /-- A function to integrate needs exactly one unknown. -/
  | integrandUnknowns
  /-- An equation has no integral. -/
  | integratedEquation
  /-- The width of the trapezoids, given as text, is not a positive finite number. -/
  | invalidStep (step : String)
  /-- A bound of an integral is not a finite number. -/
  | infiniteBounds
  /-- An equation has no Taylor series. -/
  | expandedEquation
  /-- The order of a Taylor series is beyond the limit. -/
  | orderTooLarge (order limit : Nat)
  deriving DecidableEq, Repr, Inhabited

/-- The wording of a domain error. -/
def DomainError.message : DomainError → String
  | notAnEquation => "only an equation can be solved"
  | equationUnknowns => "an equation to solve must contain exactly one variable"
  | integrandUnknowns => "a function to integrate must contain exactly one variable"
  | integratedEquation => "cannot integrate an equation"
  | invalidStep step => "invalid integration step " ++ step
  | infiniteBounds => "integration bounds must be finite"
  | expandedEquation => "cannot expand an equation"
  | orderTooLarge order limit =>
    s!"order {order} exceeds the maximum of {limit}"

/-- Why an operation has no result. -/
inductive Failure where
  /-- A formula cannot be read. -/
  | unreadable (e : SyntaxError)
  /-- An expression has no numeric value. -/
  | valueless (e : EvaluationError)
  /-- The operation does not apply. -/
  | domain (e : DomainError)
  /-- The operation was asked to stop. -/
  | aborted
  /-- The simplifier used up its rounds; `reached` is the tree after the last one. -/
  | notConverged (rounds : Nat) (reached : Expr)
  deriving DecidableEq, Inhabited

/-- The wording of a failure. -/
def Failure.message : Failure → String
  | unreadable e => "syntax error: " ++ e.message
  | valueless e => "evaluation error: " ++ e.message
  | domain e => "domain error: " ++ e.message
  | aborted => "operation aborted"
  | notConverged rounds _ => s!"simplification did not converge within {rounds} iterations"

end ComputerAlgebra
