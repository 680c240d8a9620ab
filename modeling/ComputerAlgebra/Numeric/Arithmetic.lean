import ComputerAlgebra.Func
import ComputerAlgebra.NamedConstant

/-!
# Number systems

What the numeric algorithms need of the numbers that they compute with. Floating-point numbers are
one such system; no law is asked for, since floating-point numbers obey few.
-/

namespace ComputerAlgebra

/-- Numbers to evaluate expressions in. -/
class Arithmetic (α : Type) extends Add α, Sub α, Mul α, Div α, Neg α where
  /-- The number nearest to an integer. -/
  ofInt : Int64 → α
  /-- The number nearest to a natural number. -/
  ofNat : Nat → α
  /-- What a sum starts from. -/
  emptySum : α
  /-- A number raised to another one. -/
  power : α → α → α
  /-- An elementary function of a number. -/
  apply : Func → α → α
  /-- The value of a named constant. -/
  constant : NamedConstant → α
  /-- Is the number neither infinite nor undefined? -/
  isFinite : α → Bool
  /-- Equality as the numbers themselves see it. -/
  eq : α → α → Bool
  /-- Strict order as the numbers themselves see it. -/
  lt : α → α → Bool
  /-- Order as the numbers themselves see it. -/
  le : α → α → Bool
  /-- A total order, to sort by. -/
  totalLE : α → α → Bool
  /-- The largest natural number up to a number; none counts as zero, too many as the most that 64
  bits hold. -/
  truncate : α → Nat
  /-- The number as text. -/
  text : α → String

end ComputerAlgebra
