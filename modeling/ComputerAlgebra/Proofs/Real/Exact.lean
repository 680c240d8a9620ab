import ComputerAlgebra.Proofs.Exact.Value
import ComputerAlgebra.Proofs.Expr.Operands
import ComputerAlgebra.Proofs.Real.Power

/-!
# The real numbers are exact numbers

Real numbers with their powers and elementary functions obey the laws of exact arithmetic, and their
values of expressions are the values in it.
-/

namespace ComputerAlgebra

noncomputable instance : ExactNumbers ℝ where
  PowerDomain := PowerDomain
  power b x := b ^ x
  Domain := Func.Domain
  apply := Func.real
  constant := NamedConstant.real
  powerDomain_intCast := PowerDomain.intCast_iff
  power_intCast _ := Real.rpow_intCast _ _
  power_one_left _ := Real.one_rpow _
  powerDomain_add hx hy := (hx.add hy).1
  power_add hx hy := (hx.add hy).2
  domain_abs := trivial
  apply_abs := rfl
  apply_sqrt h _ := Real.sqrt_mul_self h
  apply_sin_zero _ := Real.sin_zero
  apply_cos_zero _ := Real.cos_zero
  apply_tan_zero _ := Real.tan_zero
  apply_asin_zero _ := Real.arcsin_zero
  apply_acos_one _ := Real.arccos_one
  apply_atan_zero _ := Real.arctan_zero
  apply_ln_one _ := Real.log_one
  apply_ln_e _ := Real.log_exp 1

namespace Expr

variable {ρ : String → ℝ} {e e' : Expr}

/-- The real value is the exact value over the real numbers. -/
theorem value_eq_real (ρ : String → ℝ) (e : Expr) : Exact.value ρ e = e.real ρ := by
  induction e using operands_induct with
  | node e ih =>
    cases e with
    | sum es =>
      rw [Exact.value_sum, real_sum]
      exact congrArg _ (List.map_congr_left ih)
    | prod es =>
      rw [Exact.value_prod, real_prod]
      exact congrArg _ (List.map_congr_left ih)
    | quot a b => simp [ih a (by simp [operands]), ih b (by simp [operands])]
    | pow a b =>
      rw [Exact.value_pow, real_pow, ih a (by simp [operands]), ih b (by simp [operands])]
      rfl
    | app f a =>
      rw [Exact.value_app, real_app, ih a (by simp [operands])]
      rfl
    | _ => rfl

/-- A tree is defined over the real numbers where it is exactly defined there. -/
theorem exact_defined_iff : Exact.Defined ρ e ↔ e.Defined ρ := by
  induction e using operands_induct with
  | node e ih =>
    cases e with
    | sum es =>
      rw [Exact.Defined.sum_iff, Defined.sum_iff]
      exact forall₂_congr ih
    | prod es =>
      rw [Exact.Defined.prod_iff, Defined.prod_iff]
      exact forall₂_congr ih
    | quot a b =>
      rw [Exact.Defined.quot_iff, Defined.quot_iff, ih a (by simp [operands]),
        ih b (by simp [operands]), value_eq_real]
    | pow a b =>
      rw [Exact.Defined.pow_iff, Defined.pow_iff, ih a (by simp [operands]),
        ih b (by simp [operands]), value_eq_real, value_eq_real]
      rfl
    | app f a =>
      rw [Exact.Defined.app_iff, Defined.app_iff, ih a (by simp [operands]), value_eq_real]
      rfl
    | eqn a b => simp
    | _ => simp

/-- To refine an expression in the reals is to refine it in exact arithmetic on them. -/
theorem exact_refines_iff : Exact.Refines ℝ e e' ↔ Refines e e' := by
  simp only [Exact.Refines, Refines, exact_defined_iff, value_eq_real]

end Expr

end ComputerAlgebra
