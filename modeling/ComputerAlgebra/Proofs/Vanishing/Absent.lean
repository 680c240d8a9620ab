import ComputerAlgebra.Proofs.Checked.Operations
import ComputerAlgebra.Proofs.Job.Outcome
import ComputerAlgebra.Proofs.Numeric.Evaluation
import ComputerAlgebra.Proofs.Vanishing.Derivative

/-!
# Differentiation by a variable that does not occur

If a simplified tree has no equation, no literal `0` below a quotient bar and no power of the
literal `0`, its derivative by a variable that is not in it is simplified to `0`
(`run_differentiate_absent`). Powers of `0` have to be left out: numbers are not raised to
fractions, so a product of such powers stays below a bar until its factors are collected to `0`.
-/

namespace ComputerAlgebra

open ComputerAlgebra.Expr

variable {a a' b b' c c' e u' : Expr} {f : Func} {x : String}

/-! ### Sizes of derivatives -/

namespace Calculus

/-- The product rule makes trees larger, if the derivatives of the factors are. -/
theorem nodeCount_le_productRule {factors : List (Expr × Expr)}
    (h : ∀ q ∈ factors, q.1.nodeCount ≤ q.2.nodeCount) :
    (prod (factors.map Prod.fst)).nodeCount ≤ (productRule factors).nodeCount := by
  match factors with
  | [] => exact le_rfl
  | [(a, a')] =>
    have := h (a, a') (by simp)
    simpa [productRule, productTerms, sumOf, nodeCount, nodeCountAll] using this
  | (a, a') :: q :: rest =>
    have := h (a, a') (by simp)
    simp only [productRule, productTerms, sumOf, nodeCount, nodeCountAll, List.map_cons,
      List.nil_append] at this ⊢
    omega

/-- The derivative of a function is larger than the argument. -/
theorem nodeCount_lt_outerDerivative (f : Func) (u : Expr) :
    u.nodeCount < (outerDerivative f u).nodeCount := by
  cases f <;> simp only [outerDerivative, reciprocal, negate, oneMinusSquare, subtract, nodeCount,
    nodeCountAll] <;> omega

theorem nodeCount_lt_chainRule (f : Func) (u u' : Expr) :
    u.nodeCount < (chainRule f u u').nodeCount := by
  have hlt := nodeCount_lt_outerDerivative f u
  rw [chainRule, mulUnlessOne, if_neg (Simplification.outerDerivative_ne_one f u)]
  split_ifs
  · exact hlt
  · rw [nodeCount, nodeCountAll]
    omega

/-- The power rule makes trees larger. -/
theorem nodeCount_le_powerRule (b b' c c' : Expr) :
    (pow b c).nodeCount ≤ (powerRule b b' c c').nodeCount := by
  have hpos := one_le_nodeCount b'
  rw [powerRule]
  cases hc : c.fraction? with
  | none =>
    simp only [nodeCount, nodeCountAll]
    omega
  | some q =>
    obtain ⟨n, d⟩ := q
    have hle : c.nodeCount ≤ 3 := by
      cases c with
      | num n => simp [nodeCount]
      | quot a b =>
        cases a <;> cases b <;> simp_all [fraction?, nodeCount]
      | _ => simp [fraction?] at hc
    dsimp only
    split_ifs
    · have := one_le_nodeCount ((n.sub? 1).elim (.sum [c, .num (-1)]) .num)
      simp only [nodeCount, nodeCountAll]
      omega
    · simp only [nodeCount, nodeCountAll]
      omega

/-- The derivative of a tree has at least as many nodes as the tree. -/
theorem nodeCount_le_derivative (x : String) (e : Expr) :
    e.nodeCount ≤ (derivative x e).nodeCount := by
  induction e using Expr.induct with
  | var y => exact one_le_nodeCount _
  | num n => exact one_le_nodeCount _
  | sum es ih =>
    rw [derivative, derivatives_eq_map, nodeCount, nodeCount, nodeCountAll_eq_sum,
      nodeCountAll_eq_sum, List.map_map]
    exact Nat.add_le_add_left (List.sum_le_sum ih) 1
  | prod es ih =>
    rw [derivative_prod]
    have hfactors : ∀ q ∈ es.map fun e => (e, derivative x e), q.1.nodeCount ≤ q.2.nodeCount :=
      List.forall_mem_map.2 ih
    simpa [Function.comp_def] using nodeCount_le_productRule hfactors
  | quot a b iha ihb =>
    simp only [derivative, quotientRule, subtract, nodeCount, nodeCountAll]
    omega
  | pow b c => exact nodeCount_le_powerRule b _ c _
  | app f u =>
    rw [derivative, nodeCount, Nat.add_comm]
    exact nodeCount_lt_chainRule f u _
  | eqn a b iha ihb =>
    simp only [derivative, nodeCount]
    omega

end Calculus

/-! ### Differentiation -/

namespace Simplification

variable {cap : Option ℕ} {v s t : Expr}

/-- What the simplifier returns is inert, if it is grounded and small enough and the tree given to
it has no equations. -/
theorem inert_of_simplify (hfree : v.EquationFree) (hs : simplify cap v = .ok s)
    (hground : Everywhere Grounded s) (hnodes : s.nodeCount < 2 ^ 63) : Inert s :=
  inert_of_round (step_eq_of_converge hs) hnodes hground ((writtenLike_simplify (.inl hs)).2 hfree)

/-- What the simplifier returns of a void tree is `0`. -/
theorem Void.simplify_eq_zero (h : Void e) (hwf : e.WellFormed) (hnodes : e.nodeCount < 2 ^ 63)
    (ht : simplify cap e = .ok t) : t = 0 := by
  have hfix := step_eq_of_converge ht
  obtain ⟨k, rfl⟩ := converge_eq_iterate (.inl ht)
  exact eq_zero_of_iterate_round h.tame h.vanishing hwf hnodes hfix

/-- Differentiation by a variable that does not occur in the simplified tree gives `0`, whatever the
cap on the rounds, if the simplification of the derivative ends. -/
theorem run_differentiate_absent (hfree : v.EquationFree) (hs : simplify cap v = .ok s)
    (hx : x ∉ s.names) (hregular : Everywhere Regular s)
    (hnodes : (Calculus.derivative x s).nodeCount < 2 ^ 63)
    (ht : simplify cap (Calculus.derivative x s) = .ok t) :
    (Job.differentiate cap v x).run false = (.ok 0, false) := by
  have hinert : Inert s := inert_of_simplify hfree hs (hregular.imp fun _ => Regular.grounded) <|
    (Calculus.nodeCount_le_derivative x s).trans_lt hnodes
  have hwf := (Checked.derivative_builds x hinert.root.wellFormed).wellFormed
  obtain rfl : t = 0 := (void_derivative hinert hx).simplify_eq_zero hwf hnodes ht
  rw [Job.differentiate, Job.run_bind, Job.run_simplify, hs]
  show (Job.simplify cap (Calculus.derivative x s)).run false = _
  rw [Job.run_simplify, ht]
  rfl

/-- `ln (y + y) / y` is constant in `x`. -/
theorem run_differentiate_absent_logarithm :
    (Job.differentiate none
        (.quot (.app .ln (.sum [.var "y", .var "y"])) (.var "y")) "x").run false =
      (.ok 0, false) :=
  run_differentiate_absent (s := .quot (.app .ln (.prod [.num 2, .var "y"])) (.var "y")) (t := 0)
    (by decide) (by decide +kernel) (by decide) (by decide) (by decide) (by decide +kernel)

/-- The square root of `0`, as a power. -/
def rootOfZero : Expr := .pow 0 (.quot 1 2)

/-- The sum of a function and the logarithm at one place. -/
def plusLogarithm (f : Func) (u : Expr) : Expr := .sum [.app f u, .app .ln u]

/-- A logarithm of a product with the square root of `0`, twice. -/
def logarithmAtZero : Expr :=
  let u := plusLogarithm .atan (.sum [.var "y", .var "z"])
  .app .ln (.prod [rootOfZero, .app .ln
    (.prod [plusLogarithm .sin u, plusLogarithm .atan u, rootOfZero])])

/-- Nothing is divided by a literal `0` in the tree, but it has powers of `0`: the derivative by a
variable that does not occur comes out as `0 / 0`, because two square roots of `0` meet in a
denominator before its numerator is `0`. -/
theorem run_differentiate_logarithmAtZero :
    logarithmAtZero.EquationFree ∧ simplify none logarithmAtZero = .ok logarithmAtZero ∧
      "x" ∉ logarithmAtZero.names ∧
      Everywhere (fun e => Fractions.denominator? e ≠ some 0) logarithmAtZero ∧
      simplify none (Calculus.derivative "x" logarithmAtZero) = .ok (.quot 0 0) ∧
      (Job.differentiate none logarithmAtZero "x").run false = (.ok (.quot 0 0), false) := by
  decide +kernel

end Simplification

end ComputerAlgebra
