import ComputerAlgebra.Decimal.Dyadic

/-!
# Rounding to a number of digits

The text of a floating-point number in scientific notation with a fixed number of significant
digits. The exact value is rounded once, and a tie goes to the even digit.
-/

namespace ComputerAlgebra

namespace Decimal

/-- The number `significand * 10 ^ exponent`. -/
structure Scaled where
  significand : Nat
  exponent : Int
  deriving DecidableEq, Repr, Inhabited

/-- `n / d` rounded to a whole number, where a tie goes to the even neighbour. -/
def roundHalfEven (n d : Nat) : Nat :=
  let q := n / d
  let r := n % d
  if 2 * r < d ∨ 2 * r = d ∧ q % 2 = 0 then q else q + 1

/-- A number of `digits` digits. Rounding up may have given one digit more; it is then a zero and is
left off. -/
def Scaled.ofDigits (digits s : Nat) (last : Int) : Scaled :=
  if s = Nat.pow 10 digits then ⟨Nat.pow 10 (digits - 1), last + 1⟩ else ⟨s, last⟩

/-- A positive fraction rounded to `digits` significant digits. -/
def roundTo (digits : Nat) (n d : Nat) : Scaled :=
  let last := magnitude n d - (digits - 1 : Nat)
  let (up, down) := powerFraction 10 (-last)
  .ofDigits digits (roundHalfEven (n * up) (d * down)) last

/-- A number in scientific notation: one digit, a point, the other digits, and the exponent of the
first digit after an `e`. -/
def Scaled.scientific (x : Scaled) : String :=
  let ds := Nat.toDigits 10 x.significand
  String.ofList (ds.take 1) ++ "." ++ String.ofList (ds.drop 1) ++ "e" ++
    toString (x.exponent + (ds.length - 1 : Nat))

/-- A floating-point number, given by its bits, with `digits` significant digits. Not-a-number has
no sign, and zero and infinity keep theirs. -/
def scientific (digits : Nat) (bits : UInt64) : String :=
  let sign := if isNegative bits then "-" else ""
  match kind bits with
  | .nan => "nan"
  | .infinite => sign ++ "inf"
  | .zero => sign ++ "0"
  | .finite value =>
    let (n, d) := value.fraction
    sign ++ (roundTo digits n d).scientific

end Decimal

end ComputerAlgebra
