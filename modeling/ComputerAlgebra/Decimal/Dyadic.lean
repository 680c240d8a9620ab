/-!
# Binary floating-point numbers as exact fractions

A finite floating-point number is a whole number of units, where the unit is a power of two. What is
written about numbers in decimal is computed from this form, in whole numbers throughout.
-/

namespace ComputerAlgebra

namespace Decimal

/-- The positive number `mantissa * 2 ^ exponent`, and whether the next smaller floating-point
number is only half a unit away. -/
structure Dyadic where
  mantissa : Nat
  exponent : Int
  narrowBelow : Bool
  deriving DecidableEq, Repr, Inhabited

/-- The kinds of floating-point numbers. -/
inductive Kind where
  | nan
  | infinite
  | zero
  | finite (value : Dyadic)
  deriving DecidableEq, Repr, Inhabited

/-- The sign bit of the 64 bits of a floating-point number. -/
def isNegative (bits : UInt64) : Bool := bits >>> 63 = 1

/-- The magnitude that the 64 bits of a floating-point number stand for: 11 bits of exponent and 52
bits of fraction, where the least exponent gives the numbers without a leading bit. -/
def kind (bits : UInt64) : Kind :=
  let fraction := (bits &&& 0xFFFFFFFFFFFFF).toNat
  let exponent := ((bits >>> 52) &&& 0x7FF).toNat
  if exponent = 0x7FF then if fraction = 0 then .infinite else .nan
  else if exponent = 0 then if fraction = 0 then .zero else .finite ⟨fraction, -1074, false⟩
  else .finite ⟨0x10000000000000 + fraction, (exponent : Int) - 1075, fraction = 0 && 1 < exponent⟩

/-- `10 ^ k` or `2 ^ k` as a fraction: the power is in the numerator or in the denominator. -/
def powerFraction (base : Nat) (k : Int) : Nat × Nat :=
  (Nat.pow base k.toNat, Nat.pow base (-k).toNat)

/-- A dyadic number as numerator and denominator. -/
def Dyadic.fraction (d : Dyadic) : Nat × Nat :=
  let (up, down) := powerFraction 2 d.exponent
  (d.mantissa * up, down)

/-- The number of decimal digits of a positive integer. -/
def digitCount (n : Nat) : Nat := (Nat.toDigits 10 n).length

/-- The exponent `e` with `10 ^ e ≤ n / d < 10 ^ (e + 1)`, for positive `n` and `d`. -/
def magnitude (n d : Nat) : Int :=
  if d ≤ n then (digitCount (n / d) : Int) - 1 else -(digitCount ((d - 1) / n) : Int)

end Decimal

end ComputerAlgebra
