import ComputerAlgebra.Expr.BottomUp
import ComputerAlgebra.NamedConstant

/-!
# Identities

Rules that need no arithmetic beyond a single operation: neutral and absorbing operands, equal
numerators and denominators, powers of integers, and functions at special points.

A quotient with the literal denominator `0` has no value, so no rule removes it.
-/

namespace ComputerAlgebra

namespace Simplification

namespace Identities

/-- `x / 1 = x`, `0 / x = 0` and `x / x = 1`, the latter two for `x` other than a literal `0`. -/
def quotient (a b : Expr) : Expr :=
  if b = 1 then a
  else if a = 0 ∧ b ≠ 0 then 0
  else if a = b ∧ b ≠ 0 then 1
  else .quot a b

/-- The power of two integers, if it fits. A negative exponent gives a fraction with numerator
`1`. -/
def integerPower? (base exponent : Int64) : Option Expr :=
  if 0 ≤ exponent then (base.pow? exponent.toInt.toNat).map .num
  else do
    let value ← base.pow? (← exponent.neg?).toInt.toNat
    return .quot 1 (.num value)

/-- `x ^ 0 = 1`, `1 ^ x = 1`, `x ^ 1 = x`, and powers of integers. -/
def power (a b : Expr) : Expr :=
  if b = 0 ∨ a = 1 then 1
  else if b = 1 then a
  else match a, b with
    | .num base, .num exponent => (integerPower? base exponent).getD (.pow a b)
    | _, _ => .pow a b

/-- The exact value of a function at a special point, if it has one. -/
def valueAt? : Func → Expr → Option Int64
  | .sin, .num c => if c = 0 then some 0 else none
  | .tan, .num c => if c = 0 then some 0 else none
  | .asin, .num c => if c = 0 then some 0 else none
  | .atan, .num c => if c = 0 then some 0 else none
  | .cos, .num c => if c = 0 then some 1 else none
  | .acos, .num c => if c = 1 then some 0 else none
  | .ln, .num c => if c = 1 then some 0 else none
  | .abs, .num c => c.abs?
  | .sqrt, .num c => c.sqrt?
  | .ln, .var x => if x = NamedConstant.e.name then some 1 else none
  | _, _ => none

/-- Apply the identities at one node. -/
def rule : Expr → Expr
  | .quot a b => quotient a b
  | .pow a b => power a b
  | .prod es => if 0 ∈ es then 0 else .prod es
  | .app f a => match valueAt? f a with
    | some value => .num value
    | none => .app f a
  | e => e

end Identities

/-- Apply the identities everywhere, operands first. -/
def applyIdentities (e : Expr) : Expr := e.bottomUp Identities.rule

end Simplification

end ComputerAlgebra
