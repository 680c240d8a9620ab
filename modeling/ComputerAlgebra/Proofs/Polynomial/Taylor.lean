import ComputerAlgebra.Proofs.Calculus.Taylor
import ComputerAlgebra.Proofs.Checked.Jobs
import ComputerAlgebra.Proofs.Polynomial.Derivative
import ComputerAlgebra.Proofs.Polynomial.Value

/-!
# Taylor polynomials of polynomials

Expanded to an order that is at least its degree, a polynomial keeps its values, whatever the point
(`taylor_reproduces`). The terms are those of Taylor's formula: each derivative in the run has the
derivative of the one before for its values, and the point acts as its value in the place of the
variable.
-/

namespace ComputerAlgebra

namespace Calculus

open ComputerAlgebra.Expr ComputerAlgebra.Simplification

variable {cap : Option ℕ} {x : String} {f p s d : Expr} {ρ : String → ℝ} {n order : ℕ}
  {D : ℕ → Expr} {P : Polynomial ℝ} {pending : Bool}

/-! ### Derivatives -/

/-- The derivatives of a polynomial in a run are polynomials, and as functions of the variable they
are its derivatives. -/
theorem entire_nthDerivative (hf : f.IsPolynomial) (hwf : f.WellFormed)
    (hdeg : f.degreeIn x ≤ order) (horder : (order : ℕ∞) < 2 ^ 63)
    (hx : NamedConstant.isName x = false)
    (hD : ∀ k ≤ order, nthDerivative cap x f k = .ok (D k))
    (hstored : ∀ k < order,
      Everywhere LiteralExponent (D k) ∨ (derivative x (D k)).nodeCount < 2 ^ 63)
    (hn : n ≤ order) :
    Entire x order (D n) ∧ ∀ (ρ : String → ℝ) (P : Polynomial ℝ),
      (∀ t, along ρ x f t = P.eval t) →
        ∀ t, along ρ x (D n) t = (Polynomial.derivative^[n] P).eval t := by
  induction n with
  | zero =>
    have hdeg' : degree x Natural f ≤ order := hf.degree_le.trans (by exact_mod_cast hdeg)
    obtain ⟨hentire, hreal⟩ := entire_of_simplify hf.defined hf.functionFree hwf hdeg' (hD 0 hn)
    exact ⟨hentire, fun ρ P hP t => (hreal _).trans (hP t)⟩
  | succ n ih =>
    obtain ⟨hentire, hvalue⟩ := ih (by omega)
    have hd := hD n (by omega)
    obtain ⟨hentire', hderiv⟩ := hentire.differentiate horder (round_nthDerivative hd) hx
      (hstored n hn) (simplify_of_nthDerivative hd (hD (n + 1) hn))
    refine ⟨hentire', fun ρ P hP t => ?_⟩
    rw [Function.iterate_succ_apply']
    exact along_eq_eval_derivative hderiv (hvalue ρ P hP) t

/-! ### Terms -/

/-- Up to the greatest order, factorials fit into 64 bits. -/
theorem toInt_ofNat_factorial (h : n ≤ maxTaylorOrder) :
    (Int64.ofNat n.factorial).toInt = n.factorial :=
  Int64.toInt_ofNat_of_lt ((Nat.factorial_le h).trans_lt (by decide))

/-- The value of a term, whose factorial fits. -/
theorem taylorTerm_value (hx : NamedConstant.isName x = false) (hp : p.Defined ρ)
    (hd : ∀ ρ, d.Defined ρ) (hn : n ≤ maxTaylorOrder) :
    (taylorTerm x p n (.ofNat n.factorial) d).Defined ρ ∧
      (taylorTerm x p n (.ofNat n.factorial) d).real ρ =
        along ρ x d (p.real ρ) * (ρ x - p.real ρ) ^ n / n.factorial := by
  have hnone : NamedConstant.ofName? x = none := by simpa [NamedConstant.isName] using hx
  have hexp : (Expr.num (.ofNat n)).real ρ = (n : ℤ) := by
    rw [real_num, Int64.toInt_ofNat_of_lt (hn.trans_lt (by decide))]
  have hfactorial : (Expr.num (.ofNat n.factorial)).real ρ = n.factorial := by
    rw [real_num, toInt_ofNat_factorial hn, Int.cast_natCast]
  have hoffset : (subtract (.var x) p).real ρ = ρ x - p.real ρ := by
    rw [real_subtract, real_var, realVar, hnone, Option.elim_none]
  have hpow : (Expr.pow (subtract (.var x) p) (.num (.ofNat n))).Defined ρ :=
    .pow (defined_subtract.2 ⟨.var x, hp⟩) (.num _)
      (hexp ▸ PowerDomain.intCast_iff.2 (.inr (Int.natCast_nonneg n)))
  constructor
  · have hvalue : (d.substitute [(x, p)]).Defined ρ := (defined_substitute hx hp d).2 (hd _)
    refine .quot (.prod ?_) (.num _) (hfactorial ▸ by exact_mod_cast n.factorial_ne_zero)
    exact List.forall_mem_cons.2 ⟨hvalue, List.forall_mem_singleton.2 hpow⟩
  · rw [taylorTerm, real_quot, hfactorial, real_prod]
    simp only [List.map_cons, List.map_nil, List.prod_cons, List.prod_nil, mul_one, real_pow,
      real_substitute hx, hoffset, hexp, Int.cast_natCast, Real.rpow_natCast]
    rfl

/-- A sum of Taylor terms has the value of the Taylor sum, with the derivatives taken at the
point. -/
theorem taylorSum_value (hx : NamedConstant.isName x = false) (hp : p.Defined ρ)
    (horder : order ≤ maxTaylorOrder) (hD : ∀ k ≤ order, ∀ ρ, (D k).Defined ρ) :
    (taylorSum x p order D).Defined ρ ∧ (taylorSum x p order D).real ρ =
      ∑ k ∈ Finset.range (order + 1),
        along ρ x (D k) (p.real ρ) * (ρ x - p.real ρ) ^ k / k.factorial := by
  have hterm k (hk : k ∈ List.range order) := taylorTerm_value (ρ := ρ) (n := k + 1) hx hp
    (hD (k + 1) (List.mem_range.1 hk)) (by have := List.mem_range.1 hk; omega)
  constructor
  · rw [taylorSum, Defined.sumOf_iff, List.forall_mem_cons, List.forall_mem_map]
    exact ⟨(defined_substitute hx hp _).2 (hD 0 (Nat.zero_le _) _), fun k hk => (hterm k hk).1⟩
  · have hrange (g : ℕ → ℝ) : ∑ k ∈ Finset.range order, g k = ((List.range order).map g).sum := rfl
    have hterms := List.map_congr_left (f := real ρ ∘ _) fun k hk => (hterm k hk).2
    rw [taylorSum, real_sumOf, List.map_cons, List.sum_cons, List.map_map, Finset.sum_range_succ',
      hrange, hterms, real_substitute hx, add_comm]
    simp [along]

theorem wellFormed_taylorSum (hp : p.WellFormed) (hD : ∀ k ≤ order, (D k).WellFormed) :
    (taylorSum x p order D).WellFormed := by
  refine .sumOf (List.forall_mem_cons.2 ⟨?_, List.forall_mem_map.2 fun k hk => ?_⟩)
  · exact (Checked.substitute_point_builds (hD 0 (Nat.zero_le _)) hp x).wellFormed
  · exact (Checked.taylorTerm_builds _ _ (hD (k + 1) (List.mem_range.1 hk)) hp).wellFormed

/-! ### Taylor polynomials -/

/-- A polynomial that is expanded, to an order that is at least its degree in the variable, has the
values of its Taylor polynomial wherever the point is defined, whatever the cap on the rounds. The
trees of which the run takes derivatives have literals for exponents, or their derivatives can be
stored: exponents are only added up as trees where the sum does not fit into 64 bits. -/
theorem taylor_reproduces (hf : f.IsPolynomial) (hwf : f.WellFormed) (hdeg : f.degreeIn x ≤ order)
    (hx : NamedConstant.isName x = false) (hp : p.WellFormed)
    (hstored : ∀ k < order, ∀ g, nthDerivative cap x f k = .ok g →
      Everywhere LiteralExponent g ∨ (derivative x g).nodeCount < 2 ^ 63)
    (hrun : ((taylor cap f x p order).run pending).1 = .ok s) (hdef : p.Defined ρ) :
    f.Defined ρ ∧ s.Defined ρ ∧ s.real ρ = f.real ρ := by
  obtain ⟨horder, D, hD, hs⟩ := run_taylor hrun
  have hfinite : (order : ℕ∞) < 2 ^ 63 := by
    exact_mod_cast horder.trans_lt (by decide : maxTaylorOrder < 2 ^ 63)
  have hderivatives k (hk : k ≤ order) := entire_nthDerivative hf hwf hdeg hfinite hx hD
    (fun k hk => hstored k hk _ (hD k hk.le)) hk
  have hwfD k (hk : k ≤ order) : (D k).WellFormed :=
    round_nthDerivative (hD k hk) ▸ wellFormed_round _
  obtain ⟨hdefined, hvalue⟩ := taylorSum_value hx hdef horder fun k hk =>
    (hderivatives k hk).1.defined
  obtain ⟨P, hPdeg, hP⟩ := exists_along_eq_eval (ρ := ρ) hx hf
  obtain ⟨n, rfl⟩ := converge_eq_iterate (.inl hs)
  obtain ⟨hdefined', hreal⟩ := refines_iterate_round (wellFormed_taylorSum hp hwfD) n ρ hdefined
  refine ⟨hf.defined ρ, hdefined', ?_⟩
  calc _ = (taylorSum x p order D).real ρ := hreal
    _ = ∑ k ∈ Finset.range (order + 1),
        along ρ x (D k) (p.real ρ) * (ρ x - p.real ρ) ^ k / k.factorial := hvalue
    _ = ∑ k ∈ Finset.range (order + 1),
        (Polynomial.derivative^[k] P).eval (p.real ρ) * (ρ x - p.real ρ) ^ k / k.factorial := by
      refine Finset.sum_congr rfl fun k hk => ?_
      rw [(hderivatives k (by have := Finset.mem_range.1 hk; omega)).2 ρ P hP]
    _ = P.eval (ρ x) := (eval_eq_sum_iterate_derivative (hPdeg.trans hdeg) _ _).symm
    _ = f.real ρ := by rw [← hP, along_self]

/-- The Taylor polynomial of `x ^ 2 + 3 * x` around `a` is
`3 * a + (3 + 2 * a) * (x - a) + 2 * (x - a) ^ 2 / 2 + a ^ 2`. -/
theorem taylor_reproduces_trinomial :
    let f : Expr := .sum [.pow (.var "x") (.num 2), .prod [.num 3, .var "x"]]
    let offset : Expr := .sum [.var "x", .prod [.num (-1), .var "a"]]
    let s : Expr := .sum [.prod [.num 3, .var "a"],
      .prod [.sum [.num 3, .prod [.num 2, .var "a"]], offset],
      .quot (.prod [.num 2, .pow offset (.num 2)]) (.num 2), .pow (.var "a") (.num 2)]
    let ρ : String → ℝ := fun y => if y = "x" then 5 else 2
    ((taylor none f "x" (.var "a") 2).run false).1 = .ok s ∧ s.Defined ρ ∧ s.real ρ = f.real ρ := by
  intro f offset s ρ
  have hrun : ((taylor none f "x" (.var "a") 2).run false).1 = .ok s := by decide +kernel
  have htriple : IsPolynomial (.prod [.num 3, .var "x"]) :=
    .prod (by simpa using ⟨.num 3, .var "x"⟩)
  have hpoly : f.IsPolynomial :=
    .sum (by simpa using ⟨.pow (.var "x") (by decide), htriple⟩)
  have h0 : nthDerivative none "x" f 0 =
      .ok (.sum [.prod [.num 3, .var "x"], .pow (.var "x") (.num 2)]) := by decide +kernel
  have h1 : nthDerivative none "x" f 1 =
      .ok (.sum [.num 3, .prod [.num 2, .var "x"]]) := by decide +kernel
  refine ⟨hrun, (taylor_reproduces hpoly (by simp [f]) (by decide) (by decide) (.var "a") ?_ hrun
    (.var "a")).2⟩
  intro k hk g hg
  left
  interval_cases k
  · rw [h0] at hg
    cases hg
    decide
  · rw [h1] at hg
    cases hg
    decide

end Calculus

end ComputerAlgebra
