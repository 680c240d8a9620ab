import ComputerAlgebra.Decimal.Shortest
import ComputerAlgebra.Numeric.Arithmetic
import ComputerAlgebra.Numeric.Roots

/-!
# Floating-point numbers

Double-precision numbers as a number system, and the settings of the numeric algorithms.
-/

namespace ComputerAlgebra

namespace FloatingPoint

/-- The value of a function. -/
def apply : Func → Float → Float
  | .sin => Float.sin
  | .cos => Float.cos
  | .tan => Float.tan
  | .asin => Float.asin
  | .acos => Float.acos
  | .atan => Float.atan
  | .ln => Float.log
  | .abs => Float.abs
  | .sqrt => Float.sqrt

/-- The double-precision number nearest to a constant. -/
def constant : NamedConstant → Float
  | .pi => 3.141592653589793
  | .e => 2.718281828459045

/-- The place of a number in the order of all bit patterns: negative numbers by falling magnitude,
then positive ones by rising magnitude. Minus zero comes before zero. -/
def key (x : Float) : Int :=
  let bits := x.toBits
  let magnitude : Int := (bits &&& 0x7FFFFFFFFFFFFFFF).toNat
  if Decimal.isNegative bits then -1 - magnitude else magnitude

/-- Double precision. Sums start from minus zero, the neutral element of addition. -/
instance : Arithmetic Float where
  ofInt := Int64.toFloat
  ofNat := Float.ofNat
  emptySum := -0.0
  power := Float.pow
  apply := apply
  constant := constant
  isFinite := Float.isFinite
  eq a b := a == b
  lt a b := a < b
  le a b := a ≤ b
  totalLE a b := key a ≤ key b
  truncate x := x.toUInt64.toNat
  text x := Decimal.positional x.toBits

end FloatingPoint

/-- What a user may tune. -/
structure Settings where
  /-- The largest number of rounds of a simplification, if there is one. -/
  rounds : Option Nat := some 1000
  /-- The width of the trapezoids of an integral. -/
  integrationStep : Float := 1e-4
  /-- How roots are searched. -/
  newton : NewtonSettings Float :=
    { seed := 0.5632371895425321
      tolerance := 1e-9
      acceptance := 1e-5
      maxIterations := 100
      divergenceLimit := 20
      maxMagnitude := 1e10 }

end ComputerAlgebra
