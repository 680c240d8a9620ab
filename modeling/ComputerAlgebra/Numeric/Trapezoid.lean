import ComputerAlgebra.Expr.Visit
import ComputerAlgebra.Numeric.Evaluation
import ComputerAlgebra.Job.Symbolic

/-!
# Definite integrals

The composite trapezoid rule. The interval is divided into as many equal parts as steps of the given
width fit into it, and into one part at least.
-/

namespace ComputerAlgebra

open Arithmetic

variable {α : Type} [Arithmetic α]

namespace Trapezoid

/-- Add up the left and right values of the remaining parts of a grid. `index` is the number of the
next point, `left` the value at the point before it. -/
def sumParts (evaluate : α → Job α) (lower width : α) :
    (remaining index : Nat) → (sum left : α) → Job α
  | 0, _, sum, _ => return sum
  | remaining + 1, index, sum, left => do
    let right ← evaluate (lower + ofNat index * width)
    sumParts evaluate lower width remaining (index + 1) (sum + (left + right)) right

/-- The number of parts into which an interval of the given length is divided. -/
def partCount (length step : α) : Nat := max 1 (truncate (length / step))

/-- The area under a function between two bounds, the lower one first. -/
def area (evaluate : α → Job α) (lower upper step : α) : Job α := do
  let length := upper - lower
  let parts := partCount length step
  let width := length / ofNat parts
  let left ← evaluate lower
  let sum ← sumParts evaluate lower width parts 1 (ofInt 0) left
  return sum * width / ofInt 2

/-- The integral of a simplified function from a lower to an upper bound. -/
def ascending (cap : Option Nat) (step : α) (f : Expr) (x : String) (lower upper : α) : Job α := do
  let f ← Job.simplify cap f
  area (fun v => Job.evaluate [(x, v)] f) lower upper step

/-- The integral of an expression in one unknown. Bounds in descending order give the negative of
the integral between the bounds exchanged, and equal bounds give zero. -/
def integrate (cap : Option Nat) (step : α) (f : Expr) (lower upper : α) : Job α := do
  if f.isEquation then throw (.domain .integratedEquation)
  match f.unknowns with
  | [x] =>
    if !(isFinite step && lt (ofInt 0) step) then throw (.domain (.invalidStep (text step)))
    if !(isFinite lower && isFinite upper) then throw (.domain .infiniteBounds)
    if eq lower upper then return ofInt 0
    else if lt upper lower then return -(← ascending cap step f x upper lower)
    else ascending cap step f x lower upper
  | _ => throw (.domain .integrandUnknowns)

end Trapezoid

end ComputerAlgebra
