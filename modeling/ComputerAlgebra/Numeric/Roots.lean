import ComputerAlgebra.Expr.Visit
import ComputerAlgebra.Numeric.Evaluation
import ComputerAlgebra.Job.Symbolic

/-!
# Roots of equations

The real roots of an equation in one unknown, by Newton's method. After each root `r` the function
is divided by `x - r` and the search starts again from the same place, which pushes it towards
another root. The first run that finds nothing ends the search.

In the divided function a root is a variable of its own, a placeholder. Placeholders start with an
underscore, which no name in a formula can hold.
-/

namespace ComputerAlgebra

open Arithmetic

variable {α : Type} [Arithmetic α]

/-- How a search for roots is conducted. -/
structure NewtonSettings (α : Type) where
  /-- Where each run starts. -/
  seed : α
  /-- A run whose step is smaller than this has converged. -/
  tolerance : α
  /-- The largest last step of a run whose result is accepted, exclusive. -/
  acceptance : α
  /-- The number of steps of a run. -/
  maxIterations : Nat
  /-- How many steps in a row may grow before a run counts as divergent. -/
  divergenceLimit : Nat
  /-- Roots of larger absolute value are rejected. -/
  maxMagnitude : α

namespace Roots

/-- The name that stands for the root of the given index. -/
def placeholder (index : Nat) : String := "_k" ++ toString index

/-- The roots found so far, bound to their placeholders. -/
def placeholderBindings (roots : List α) : Bindings α :=
  roots.zipIdx.map fun p => (placeholder p.2, p.1)

/-- Divide a function by `x - r`, where the root `r` is a placeholder. -/
def deflate (f : Expr) (x : String) (index : Nat) : Expr :=
  .quot f (.subtract (.var x) (.var (placeholder index)))

/-- What one run knows: where it is, how long the last step was, if there was one, and how many
steps in a row have grown. -/
structure Run (α : Type) where
  point : α
  lastStep : Option α
  increases : Nat

/-- The result of a run that has ended: its point, if that lies in range and the last step was
short. -/
def Run.result? (settings : NewtonSettings α) (run : Run α) : Option α :=
  if le (apply .abs run.point) settings.maxMagnitude &&
      run.lastStep.any fun step => lt step settings.acceptance
  then some run.point else none

/-- What a step of a run leads to. -/
inductive Progress (α : Type) where
  | continues (run : Run α)
  | converged (run : Run α)
  | failed

/-- Take one Newton step, given the value and the slope of the function at the point. -/
def Run.step (settings : NewtonSettings α) (run : Run α) (value slope : α) : Progress α :=
  let next := run.point - value / slope
  if !isFinite next then .failed
  else
    let length := apply .abs (next - run.point)
    if lt length settings.tolerance then .converged ⟨next, some length, run.increases⟩
    else if run.lastStep.any fun last => lt last length then
      if settings.divergenceLimit ≤ run.increases + 1 then .failed
      else .continues ⟨next, some length, run.increases + 1⟩
    else .continues ⟨next, some length, 0⟩

/-- Continue a run for at most `count` steps, with the values and slopes that a job gives. -/
def newton (settings : NewtonSettings α) (evaluate : α → Job (α × α)) :
    (count : Nat) → Run α → Job (Option α)
  | 0, run => return run.result? settings
  | count + 1, run => do
    let (value, slope) ← evaluate run.point
    match run.step settings value slope with
    | .failed => return none
    | .converged run => return run.result? settings
    | .continues run => newton settings evaluate count run

/-- Evaluate a function and its derivative at a point, with the roots so far in their places. -/
def evaluateAt (x : String) (roots : List α) (f f' : Expr) (v : α) : Job (α × α) := do
  let bs := (x, v) :: placeholderBindings roots
  let value ← Job.evaluate bs f
  let slope ← Job.evaluate bs f'
  return (value, slope)

/-- Search one root after the other until a run finds nothing. Each run is as good as any, so the
number of runs has no bound but the fuel. -/
def search (settings : NewtonSettings α) (cap : Option Nat) (x : String) :
    (fuel : Nat) → Expr → List α → Job (List α)
  | 0, _, roots => return roots
  | fuel + 1, f, roots => do
    let f' ← Job.differentiate cap f x
    let start : Run α := ⟨settings.seed, none, 0⟩
    match ← newton settings (evaluateAt x roots f f') settings.maxIterations start with
    | none => return roots
    | some root =>
      let f ← Job.simplify cap (deflate f x roots.length)
      search settings cap x fuel f (roots ++ [root])

/-- Sort roots and leave out those that equal the one before them. -/
def tidy (roots : List α) : List α := Sorted.dedup eq (Sorted.sort totalLE roots)

/-- The roots of an equation in one unknown, ascending. A search that finds none has none to give;
it does not fail. -/
def solve (settings : NewtonSettings α) (cap : Option Nat) : Expr → Job (List α)
  | .eqn a b =>
    match (Expr.eqn a b).unknowns with
    | [x] => do
      let f ← Job.simplify cap (.subtract a b)
      return tidy (← search settings cap x Simplification.unbounded f [])
    | _ => throw (.domain .equationUnknowns)
  | _ => throw (.domain .notAnEquation)

end Roots

end ComputerAlgebra
