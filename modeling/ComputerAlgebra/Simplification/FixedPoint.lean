/-!
# Fixed points by iteration

A step is repeated until it changes nothing, or until it has been repeated as often as allowed.
-/

namespace ComputerAlgebra

namespace Simplification

variable {α : Type _} [DecidableEq α]

/-- Repeat a step at most `cap` times. The first value that the step does not change is the result;
if there is none within the cap, the value reached is the error. -/
def converge (step : α → α) : (cap : Nat) → α → Except α α
  | 0, a => .error a
  | cap + 1, a =>
    let b := step a
    if b = a then .ok a else converge step cap b

/-- The values that repeating a step goes through, the first one included, and the one at which it
stops; that one is missing if `limit` repetitions do not reach it. -/
def approach (step : α → α) : (limit : Nat) → α → List α × Option α
  | 0, a => ([a], none)
  | limit + 1, a =>
    let b := step a
    if b = a then ([a], some a)
    else
      let (values, result) := approach step limit b
      (a :: values, result)

end Simplification

end ComputerAlgebra
