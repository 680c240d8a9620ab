import ComputerAlgebra.Calculus.Taylor
import ComputerAlgebra.Numeric.FloatingPoint
import ComputerAlgebra.Numeric.Trapezoid
import ComputerAlgebra.Parsing.Formula
import ComputerAlgebra.Printing.Render

/-!
# Sessions

One user calls one operation after the other, with the same settings throughout. All that an
operation leaves behind for the next one is a request to stop that it did not come to see. A call
that fails does not end the session.
-/

namespace ComputerAlgebra

namespace Session

/-- An operation with what it is given. -/
inductive Call where
  | abort
  /-- A request through a handle, which may be kept elsewhere than the session itself. -/
  | abortByHandle
  | parse (text : String)
  | plainText (e : Expr)
  | latex (e : Expr)
  | substitute (e : Expr) (σ : Substitution)
  | unknowns (e : Expr)
  | simplify (e : Expr)
  | differentiate (e : Expr) (x : String)
  | evaluate (e : Expr) (bs : Bindings Float)
  | solve (e : Expr)
  | integrate (f : Expr) (lower upper : Float)
  | taylor (f : Expr) (x : String) (p : Expr) (order : Nat)

/-- What a call gives back if it does not fail. -/
inductive Answer where
  | done
  | expr (e : Expr)
  | text (text : String)
  | names (xs : List String)
  | number (v : Float)
  | numbers (vs : List Float)

/-- The job that a call stands for. Reading can fail, but has no checkpoint. -/
def Call.job (s : Settings) : Call → Job Answer
  | abort => do
    Job.requestAbort
    return .done
  | abortByHandle => do
    Job.requestAbort
    return .done
  | parse text =>
    match Expr.parse text with
    | .ok e => return .expr e
    | .error err => throw (.unreadable err)
  | plainText e => return .text e.toPlainText
  | latex e => return .text e.toLatex
  | substitute e σ => return .expr (e.substitute σ)
  | unknowns e => return .names e.unknowns
  | simplify e => .expr <$> Job.simplify s.rounds e
  | differentiate e x => .expr <$> Job.differentiate s.rounds e x
  | evaluate e bs => .number <$> Job.evaluate bs e
  | solve e => .numbers <$> Roots.solve s.newton s.rounds e
  | integrate f lower upper =>
    .number <$> Trapezoid.integrate s.rounds s.integrationStep f lower upper
  | taylor f x p order => .expr <$> Calculus.taylor s.rounds f x p order

/-- The answers to a list of calls, and whether a request is pending after them. -/
def run (s : Settings) : List Call → (pending : Bool) → List (Except Failure Answer) × Bool
  | [], pending => ([], pending)
  | c :: cs, pending =>
    let (answer, pending) := (c.job s).run pending
    let (answers, pending) := run s cs pending
    (answer :: answers, pending)

end Session

end ComputerAlgebra
