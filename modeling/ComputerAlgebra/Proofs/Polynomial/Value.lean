import ComputerAlgebra.Proofs.Calculus.Derivative
import ComputerAlgebra.Proofs.Polynomial.Degree
import ComputerAlgebra.Proofs.Vanishing.Lawful

/-!
# Values of polynomials

A tree that is written as a polynomial has a value everywhere. As a function of one of its variables
it is a polynomial function, of at most the degree that can be read off the tree, and Taylor's
formula expands it around any point (`eval_eq_sum_iterate_derivative`).
-/

namespace ComputerAlgebra

namespace Expr

/-- Polynomials as they are written: integers are the only denominators and, if they are not
negative, the only exponents. -/
inductive IsPolynomial : Expr → Prop where
  | var (x : String) : IsPolynomial (.var x)
  | num (n : Int64) : IsPolynomial (.num n)
  | sum {es : List Expr} (h : ∀ e ∈ es, IsPolynomial e) : IsPolynomial (.sum es)
  | prod {es : List Expr} (h : ∀ e ∈ es, IsPolynomial e) : IsPolynomial (.prod es)
  | quot {a : Expr} {n : Int64} (ha : IsPolynomial a) (hn : n ≠ 0) : IsPolynomial (.quot a (.num n))
  | pow {a : Expr} {n : Int64} (ha : IsPolynomial a) (hn : 0 ≤ n.toInt) :
      IsPolynomial (.pow a (.num n))

mutual

/-- The degree in one variable that can be read off a polynomial. It is at most the degree in all
variables. -/
def degreeIn (x : String) : Expr → ℕ
  | .var y => if y = x then 1 else 0
  | .num _ => 0
  | .sum es => (degreesIn x es).foldr max 0
  | .prod es => (degreesIn x es).sum
  | .quot a _ => degreeIn x a
  | .pow a (.num n) => degreeIn x a * n.toInt.toNat
  | .pow _ _ => 0
  | .app _ _ => 0
  | .eqn _ _ => 0

/-- The degrees of several polynomials. -/
def degreesIn (x : String) : List Expr → List ℕ
  | [] => []
  | e :: es => degreeIn x e :: degreesIn x es

end

variable {x : String} {ρ : String → ℝ} {e : Expr} {es : List Expr}

theorem degreesIn_eq_map (x : String) (es : List Expr) : degreesIn x es = es.map (degreeIn x) := by
  induction es with
  | nil => rfl
  | cons e es ih => simp [degreesIn, ih]

theorem degreeIn_le_sum (he : e ∈ es) : degreeIn x e ≤ degreeIn x (.sum es) := by
  rw [degreeIn, degreesIn_eq_map]
  exact List.le_max_of_le (List.mem_map_of_mem he) le_rfl

theorem degreeIn_prod (es : List Expr) : degreeIn x (.prod es) = (es.map (degreeIn x)).sum := by
  rw [degreeIn, degreesIn_eq_map]

namespace IsPolynomial

/-- A polynomial is defined everywhere. -/
theorem defined (h : IsPolynomial e) (ρ : String → ℝ) : e.Defined ρ := by
  induction h with
  | var x => exact .var x
  | num n => exact .num n
  | sum _ ih => exact .sum ih
  | prod _ ih => exact .prod ih
  | @quot a n _ hn ih =>
    refine .quot ih (.num n) ?_
    rw [real_num]
    exact_mod_cast Int64.ne_zero_iff_toInt_ne_zero.1 hn
  | @pow a n _ hn ih =>
    refine .pow ih (.num n) ?_
    rw [real_num]
    exact PowerDomain.intCast_iff.2 (.inr hn)

/-- A polynomial applies no function. -/
theorem functionFree (h : IsPolynomial e) : e.FunctionFree := by
  induction h with
  | var x => exact FunctionFree.var x
  | num n => exact .num n
  | sum _ ih => exact FunctionFree.vocabulary.everywhere_sum.2 ih
  | prod _ ih => exact FunctionFree.vocabulary.everywhere_prod.2 ih
  | quot _ _ ih => exact FunctionFree.vocabulary.everywhere_quot.2 ⟨ih, FunctionFree.num _⟩
  | pow _ _ ih => exact FunctionFree.vocabulary.everywhere_pow.2 ⟨ih, FunctionFree.num _⟩

/-- The degree of a polynomial bounds the degree that allows whole exponents. -/
theorem degree_le (h : IsPolynomial e) : degree x Natural e ≤ degreeIn x e := by
  induction h with
  | var y =>
    rw [degree_var, degreeIn]
    split_ifs <;> simp
  | num n => simp
  | sum _ ih =>
    exact degree_sum_le_iff.2 fun e he =>
      (ih e he).trans (by exact_mod_cast degreeIn_le_sum he)
  | prod _ ih =>
    rw [degree_prod, degreeIn_prod, Nat.cast_list_sum, List.map_map]
    exact List.sum_le_sum ih
  | quot _ _ ih => rwa [degree_quot (degree_num _), degreeIn]
  | pow _ hn ih =>
    obtain ⟨hnat, hcount⟩ := natural_num hn
    rw [degree_pow hnat, hcount, degreeIn, Nat.cast_mul]
    gcongr

end IsPolynomial

end Expr

namespace Calculus

open ComputerAlgebra.Expr Polynomial

variable {x : String} {ρ : String → ℝ} {e s : Expr} {P : ℝ[X]}

/-- As a function of a variable that names no constant, a polynomial is a polynomial function. -/
theorem exists_along_eq_eval (hx : NamedConstant.isName x = false) (h : e.IsPolynomial) :
    ∃ P : ℝ[X], P.natDegree ≤ e.degreeIn x ∧ ∀ t, along ρ x e t = P.eval t := by
  induction h with
  | var y =>
    by_cases hy : y = x
    · refine ⟨X, by simp [degreeIn, hy], fun t => ?_⟩
      have hnone : NamedConstant.ofName? x = none := by simpa [NamedConstant.isName] using hx
      simp [along, realVar, hy, hnone]
    · exact ⟨C (realVar ρ y), by simp, fun t => by simp [along, realVar, Function.update_of_ne hy]⟩
  | num n => exact ⟨C n.toInt, by simp, fun t => by simp [along]⟩
  | @sum es _ ih =>
    choose! P hdeg heval using ih
    refine ⟨(es.map P).sum, (natDegree_list_sum_le _).trans ?_, fun t => ?_⟩
    · refine List.max_le_of_forall_le _ _ ?_
      simpa using fun e he => (hdeg e he).trans (degreeIn_le_sum he)
    · rw [along_sum, ← coe_evalRingHom, map_list_sum, List.map_map]
      exact congrArg _ (List.map_congr_left fun e he => heval e he t)
  | @prod es _ ih =>
    choose! P hdeg heval using ih
    refine ⟨(es.map P).prod, (natDegree_list_prod_le _).trans ?_, fun t => ?_⟩
    · rw [degreeIn_prod, List.map_map]
      exact List.sum_le_sum hdeg
    · rw [along_prod, eval_list_prod, List.map_map]
      exact congrArg _ (List.map_congr_left fun e he => heval e he t)
  | @quot a n _ hn ih =>
    -- a denominator is an integer; one that is `0` makes the quotient `0`, as does its inverse
    obtain ⟨P, hdeg, heval⟩ := ih
    refine ⟨C (n.toInt : ℝ)⁻¹ * P, (natDegree_C_mul_le _ _).trans hdeg, fun t => ?_⟩
    simp only [along_quot, heval]
    rw [eval_C_mul, along, real_num, div_eq_inv_mul]
  | @pow a n _ hn ih =>
    obtain ⟨P, hdeg, heval⟩ := ih
    refine ⟨P ^ n.toInt.toNat, natDegree_pow_le.trans ?_, fun t => ?_⟩
    · rw [degreeIn, Nat.mul_comm]
      exact Nat.mul_le_mul_right _ hdeg
    · have hcast : ((n.toInt.toNat : ℤ) : ℝ) = n.toInt := by rw [Int.toNat_of_nonneg hn]
      simp only [along_pow, heval]
      rw [eval_pow, along, real_num, ← hcast, Int.cast_natCast, Real.rpow_natCast]

/-- Along a variable it does not matter which value the assignment has for it. -/
theorem along_update (t u : ℝ) : along (Function.update ρ x t) x e u = along ρ x e u := by
  rw [along, along, Function.update_idem]

/-- The derivative of a polynomial function is the derivative of the polynomial. -/
theorem along_eq_eval_derivative (h : ∀ ρ, HasDerivAt (along ρ x e) (s.real ρ) (ρ x))
    (hP : ∀ t, along ρ x e t = P.eval t) (t : ℝ) : along ρ x s t = P.derivative.eval t := by
  have hderiv := h (Function.update ρ x t)
  rw [Function.update_self, funext (along_update t), funext hP] at hderiv
  exact hderiv.unique (P.hasDerivAt t)

/-- Taylor's formula for polynomials. -/
theorem eval_eq_sum_iterate_derivative {n : ℕ} (h : P.natDegree ≤ n) (c t : ℝ) :
    P.eval t = ∑ k ∈ Finset.range (n + 1),
      (Polynomial.derivative^[k] P).eval c * (t - c) ^ k / k.factorial := by
  have hdeg : (Polynomial.taylor c P).natDegree < n + 1 := by rw [natDegree_taylor]; omega
  rw [← taylor_eval_sub c P t, eval_eq_sum_range' hdeg]
  refine Finset.sum_congr rfl fun k _ => ?_
  have hcoeff :
      (Polynomial.derivative^[k] P).eval c = k.factorial * (Polynomial.taylor c P).coeff k := by
    rw [taylor_coeff, ← factorial_smul_hasseDeriv]
    simp
  rw [hcoeff, mul_right_comm, mul_div_assoc, mul_comm (_ * _), ← mul_assoc]
  field_simp

end Calculus

end ComputerAlgebra
