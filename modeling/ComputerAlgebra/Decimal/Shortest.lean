import ComputerAlgebra.Decimal.Scientific

/-!
# Shortest decimals

The decimal with the fewest digits among those that read back as a given floating-point number, and
of several such decimals the nearest. Every real number closer to the given one than to its
neighbours reads back as it, and so do the two midpoints if the mantissa is even.
-/

namespace ComputerAlgebra

namespace Decimal

/-- Does `s * 10 ^ k` read back as the dyadic number? Distances are measured in quarters of a
unit. -/
def readsBack (v : Dyadic) (s : Nat) (k : Int) : Bool :=
  let (up₂, down₂) := powerFraction 2 (v.exponent - 2)
  let (up₁₀, down₁₀) := powerFraction 10 k
  let x := s * up₁₀ * down₂
  let quarter := up₂ * down₁₀
  let low := (4 * v.mantissa - if v.narrowBelow then 1 else 2) * quarter
  let high := (4 * v.mantissa + 2) * quarter
  if v.mantissa % 2 = 0 then low ≤ x && x ≤ high else low < x && x < high

/-- The decimal with `digits` digits that reads back as the dyadic number and is nearest to it, if
there is one. Only the two neighbours of the number on the decimal grid come into question; a tie
between them goes up. -/
def withDigits? (v : Dyadic) (digits : Nat) : Option Scaled :=
  let (n, d) := v.fraction
  let last := magnitude n d - (digits - 1 : Nat)
  let (up, down) := powerFraction 10 (-last)
  let below := n * up / (d * down)
  let rest := n * up % (d * down)
  let nearer := if 2 * rest < d * down then below else below + 1
  let farther := if 2 * rest < d * down then below + 1 else below
  if readsBack v nearer last then some (.ofDigits digits nearer last)
  else if readsBack v farther last then some (.ofDigits digits farther last)
  else none

/-- The shortest decimal that reads back as the dyadic number. Seventeen digits are always enough,
so the rounding to seventeen digits is never reached as a last resort. -/
def shortest (v : Dyadic) : Scaled :=
  ((List.range' 1 17).findSome? (withDigits? v)).getD (roundTo 17 v.fraction.1 v.fraction.2)

/-- A number in positional notation, without an exponent and without a needless zero. -/
def Scaled.positional (x : Scaled) : String :=
  let ds := Nat.toDigits 10 x.significand
  if 0 ≤ x.exponent then String.ofList (ds ++ List.replicate x.exponent.toNat '0')
  else
    let places := (-x.exponent).toNat
    let padded := List.replicate (places + 1 - ds.length) '0' ++ ds
    let whole := padded.take (padded.length - places)
    let fraction := padded.drop (padded.length - places)
    String.ofList whole ++ "." ++ String.ofList fraction

/-- A floating-point number, given by its bits, in positional notation with the fewest digits that
read back. -/
def positional (bits : UInt64) : String :=
  let sign := if isNegative bits then "-" else ""
  match kind bits with
  | .nan => "NaN"
  | .infinite => sign ++ "inf"
  | .zero => sign ++ "0"
  | .finite value => sign ++ (shortest value).positional

end Decimal

end ComputerAlgebra
