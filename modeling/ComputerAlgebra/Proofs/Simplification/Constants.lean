import ComputerAlgebra.Proofs.Integer.Trapping
import ComputerAlgebra.Proofs.Simplification.Numbers

/-!
# Folding constants

What folding makes of constants is exact, and no step on the way traps (`fold_constants_exact`).
-/

namespace ComputerAlgebra

namespace Simplification

open Fraction

variable {n d : Int64} {es : List Expr}

/-- A quotient of constants is kept, or becomes its exact value in lowest terms. -/
theorem Fold.quotient_cases (hd : d ≠ 0) : quotient (.num n) (.num d) = .quot (.num n) (.num d) ∨
    ∃ q : Fraction, q.IsLowest ∧ q.toRat = n.toInt / d.toInt ∧
      quotient (.num n) (.num d) = .ofFraction q := by
  rw [quotient, if_neg hd]
  cases h : reduce? ⟨n, d⟩ with
  | none => exact .inl rfl
  | some q =>
    obtain ⟨hlow, hval⟩ := reduce?_eq_some hd h
    exact .inr ⟨q, hlow, hval, rfl⟩

/-- A product is kept, or is `0` because its constants make `0`, or has the exact product of its
constants behind the other factors, where a `1` is left out. -/
theorem Fold.product_cases (es : List Expr) : product es = .prod es ∨
    ∃ c : Int64, c.toInt = ((es.filterMap Expr.num?).map Int64.toInt).prod ∧
      (c = 0 ∧ product es = 0 ∨
        c = 1 ∧ (es.filter fun e => e.num?.isNone) ≠ [] ∧
          product es = .prodOf (es.filter fun e => e.num?.isNone) ∨
        c ≠ 0 ∧ product es = .prodOf ((es.filter fun e => e.num?.isNone) ++ [.num c])) := by
  cases h : multiply? (es.filterMap Expr.num?) with
  | none => exact .inl (by simp only [product, h])
  | some c =>
    refine .inr ⟨c, multiply?_eq_some h, ?_⟩
    rw [product_eq h]
    by_cases h0 : c = 0
    · exact .inl ⟨h0, if_pos h0⟩
    · rw [if_neg h0]
      by_cases h1 : c ≠ 1 ∨ (es.filter fun e => e.num?.isNone) = []
      · exact .inr (.inr ⟨h0, if_pos h1⟩)
      · rw [not_or, not_not] at h1
        exact .inr (.inl ⟨h1.1, h1.2, if_neg (by simp [h1])⟩)

/-- On fractions with denominators other than `0` the machine does not trap: it computes `gcd`,
`lcm?`, `reduce?` and `sum?`. A sum, where there is one, is exact and in lowest terms, folding a
quotient of constants keeps it or makes it exact and lowest, and folding a product keeps it or
multiplies its constants exactly, with the other factors in order unless all is `0`. -/
theorem fold_constants_exact (qs : List Fraction) (hqs : ∀ q ∈ qs, q.den ≠ 0) :
    (sumTrap qs = untrapped (sum? qs) ∧
      (∀ a b, gcdTrap a b = some (gcd a b)) ∧ (∀ a b, lcmTrap a b = untrapped (lcm? a b)) ∧
      ∀ q : Fraction, q.den ≠ 0 → reduceTrap q = untrapped (reduce? q)) ∧
    (∀ r, sum? qs = some r → 0 < r.den.toInt ∧ Int.gcd r.num.toInt r.den.toInt = 1 ∧
      (r.num.toInt / r.den.toInt : ℚ) =
        (qs.map fun q => (q.num.toInt / q.den.toInt : ℚ)).sum) ∧
    (∀ n d : Int64, d ≠ 0 → Fold.quotient (.num n) (.num d) = .quot (.num n) (.num d) ∨
      ∃ q : Fraction, q.IsLowest ∧ q.toRat = n.toInt / d.toInt ∧
        Fold.quotient (.num n) (.num d) = .ofFraction q) ∧
    ∀ es : List Expr, Fold.product es = .prod es ∨
      ∃ c : Int64, c.toInt = ((es.filterMap Expr.num?).map Int64.toInt).prod ∧
        (c = 0 ∧ Fold.product es = 0 ∨
          c = 1 ∧ (es.filter fun e => e.num?.isNone) ≠ [] ∧
            Fold.product es = .prodOf (es.filter fun e => e.num?.isNone) ∨
          c ≠ 0 ∧ Fold.product es = .prodOf ((es.filter fun e => e.num?.isNone) ++ [.num c])) := by
  refine ⟨⟨sumTrap_eq hqs, gcdTrap_eq, lcmTrap_eq, fun q => reduceTrap_eq⟩, fun r hr => ?_,
    fun n d => Fold.quotient_cases, Fold.product_cases⟩
  obtain ⟨hlow, hval⟩ := sum?_eq_some hqs hr
  exact ⟨hlow.den_pos, hlow.coprime, hval⟩

/-- The machine adds `1 / 6` and `3 / -10` without a trap and finds the lowest terms `-2 / 15`. -/
theorem fold_constants_exact_fifteenths :
    (∀ q ∈ [⟨1, 6⟩, ⟨3, -10⟩], Fraction.den q ≠ 0) ∧
      sumTrap [⟨1, 6⟩, ⟨3, -10⟩] = untrapped (some ⟨-2, 15⟩) ∧
      ((-2 : Int64).toInt / (15 : Int64).toInt : ℚ) =
        ([⟨1, 6⟩, ⟨3, -10⟩].map fun q : Fraction => (q.num.toInt / q.den.toInt : ℚ)).sum := by
  have hqs : ∀ q ∈ [⟨1, 6⟩, ⟨3, -10⟩], Fraction.den q ≠ 0 := by decide
  have hsum : sum? [⟨1, 6⟩, ⟨3, -10⟩] = some ⟨-2, 15⟩ := by decide
  obtain ⟨⟨htrap, -⟩, hexact, -⟩ := fold_constants_exact _ hqs
  exact ⟨hqs, htrap.trans (congrArg untrapped hsum), (hexact _ hsum).2.2⟩

/-- A constant `0` takes the other factors away. -/
theorem fold_product_zero_drops : ¬∀ es : List Expr, Fold.product es = .prod es ∨
    ∃ c : Int64, c.toInt = ((es.filterMap Expr.num?).map Int64.toInt).prod ∧
      (c = 1 ∧ Fold.product es = .prodOf (es.filter fun e => e.num?.isNone) ∨
        Fold.product es = .prodOf ((es.filter fun e => e.num?.isNone) ++ [.num c])) := by
  intro h
  have hzero : Fold.product [.var "x", 0] = 0 := by decide
  obtain h | ⟨c, -, ⟨-, h⟩ | h⟩ := h [.var "x", 0]
  · rw [hzero] at h
    cases h
  · rw [hzero] at h
    cases h
  · rw [hzero] at h
    cases h

end Simplification

end ComputerAlgebra
