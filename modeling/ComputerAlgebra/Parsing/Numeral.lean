import ComputerAlgebra.Expr.Basic
import ComputerAlgebra.Integer.Checked

/-!
# Numerals

A numeral without a fractional digit is an integer. One with `k` fractional digits is the exact
fraction of all its digits over `10 ^ k`, not reduced.
-/

namespace ComputerAlgebra

namespace Parsing

/-- The value of a list of decimal digits. -/
def digitsValue (ds : List Char) : Nat := ds.foldl (fun n d => 10 * n + (d.toNat - '0'.toNat)) 0

/-- The number that digits and points write. There is none if there is no digit, a second point, or
if the digits or the power of ten do not fit into 64 bits. -/
def readNumeral? (cs : List Char) : Option Expr :=
  let (whole, tail) := cs.span (· ≠ '.')
  let fraction := tail.drop 1
  let digits := whole ++ fraction
  if digits.isEmpty || '.' ∈ fraction then none
  else do
    let value ← Int64.ofInt? (digitsValue digits)
    if fraction.isEmpty then some (.num value)
    else do
      let scale ← Int64.ofInt? (Nat.pow 10 fraction.length)
      some (.quot (.num value) (.num scale))

end Parsing

end ComputerAlgebra
