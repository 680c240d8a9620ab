import ComputerAlgebra.Expr.BottomUp

/-!
# Collecting like terms

Factors with one base become a power of the base whose exponent is the sum of theirs, and addends
with one term become a multiple of the term whose coefficient is the sum of theirs. The sums
themselves are left for `Simplification.fold`.
-/

namespace ComputerAlgebra

namespace Simplification

namespace Collect

/-- Values under keys, in the order in which the keys were first seen. -/
abbrev Groups := List (Expr × List Expr)

/-- Add a value under a key, after the values that are there. -/
def Groups.add (key value : Expr) : Groups → Groups
  | [] => [(key, [value])]
  | (k, vs) :: groups =>
    if k = key then (k, vs ++ [value]) :: groups else (k, vs) :: Groups.add key value groups

/-- Group the values of a list of keys and values. -/
def group (pairs : List (Expr × Expr)) : Groups :=
  pairs.foldl (fun groups p => groups.add p.1 p.2) []

/-- One operand for a key and its values: the key itself if its only value is `1`, else the key
combined with the sum of the values. -/
def regroup (combine : Expr → Expr → Expr) : Expr × List Expr → Expr
  | (key, [value]) => if value = 1 then key else combine key value
  | (key, values) => combine key (.sumOf values)

/-- A factor as base and exponent. -/
def baseAndExponent : Expr → Expr × Expr
  | .pow a b => (a, b)
  | e => (e, 1)

/-- An addend as term and coefficient. A product of two factors has the first one as coefficient. -/
def termAndCoefficient : Expr → Expr × Expr
  | .prod [c, t] => (t, c)
  | e => (e, 1)

/-- Collect the operands of one node. -/
def rule : Expr → Expr
  | .prod es => .prodOf ((group (es.map baseAndExponent)).map (regroup .pow))
  | .sum es =>
    .sumOf ((group (es.map termAndCoefficient)).map (regroup fun term coefficient =>
      .prod [coefficient, term]))
  | e => e

end Collect

/-- Collect like terms everywhere, operands first. -/
def collect (e : Expr) : Expr := e.bottomUp Collect.rule

end Simplification

end ComputerAlgebra
