import ComputerAlgebra.Integer.Checked

/-!
# Fractions of 64-bit integers

Fractions are pairs of integers, not always reduced and possibly with a zero denominator. Sums and
reduction give the exact result or, where a step leaves the range of 64 bits, none.
-/

namespace ComputerAlgebra

/-- A numerator over a denominator. -/
structure Fraction where
  num : Int64
  den : Int64
  deriving DecidableEq, Repr, Inhabited

namespace Fraction

/-- The greatest common divisor, never negative. The only one that does not fit, of the least
integer with itself or with zero, counts as no common factor at all. -/
def gcd (a b : Int64) : Int64 := (Int64.ofInt? (Nat.gcd a.toInt.natAbs b.toInt.natAbs)).getD 1

/-- The least common multiple, never negative. -/
def lcm? (a b : Int64) : Option Int64 :=
  let g := gcd a b
  if g = 0 then some 0 else do (← (a / g).mul? b).abs?

/-- Lowest terms with a positive denominator, for a denominator other than zero. -/
def reduce? (q : Fraction) : Option Fraction :=
  let g := gcd q.num q.den
  let n := q.num / g
  let d := q.den / g
  if d < 0 then do return ⟨← n.neg?, ← d.neg?⟩ else some ⟨n, d⟩

/-- The least common multiple of `1` and of the denominators. -/
def commonDen? (qs : List Fraction) : Option Int64 := qs.foldlM (fun m q => lcm? m q.den) 1

/-- The sum of the numerators over a common multiple `m` of the denominators. -/
def sumOver? (m : Int64) (qs : List Fraction) : Option Int64 :=
  qs.foldlM (fun s q => do s.add? (← q.num.mul? (m / q.den))) 0

/-- The sum in lowest terms, for denominators other than zero. -/
def sum? (qs : List Fraction) : Option Fraction := do
  let m ← commonDen? qs
  reduce? ⟨← sumOver? m qs, m⟩

end Fraction

end ComputerAlgebra
