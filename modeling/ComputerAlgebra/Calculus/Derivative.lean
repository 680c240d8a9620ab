import ComputerAlgebra.Expr.Basic

/-!
# Derivatives

The derivative of an expression by a variable, by the rules of calculus and without simplifying:
only a factor `1` of the chain rule is dropped. The derivative of an equation is the equation of the
derivatives.
-/

namespace ComputerAlgebra

namespace Calculus

/-- `1 - u ^ 2`. -/
def oneMinusSquare (u : Expr) : Expr := .subtract 1 (.pow u 2)

/-- The derivative of a function at an argument. -/
def outerDerivative : Func → Expr → Expr
  | .sin, u => .app .cos u
  | .cos, u => .negate (.app .sin u)
  | .tan, u => .reciprocal (.pow (.app .cos u) 2)
  | .asin, u => .reciprocal (.app .sqrt (oneMinusSquare u))
  | .acos, u => .negate (.reciprocal (.app .sqrt (oneMinusSquare u)))
  | .atan, u => .reciprocal (.sum [1, .pow u 2])
  | .ln, u => .reciprocal u
  | .abs, u => .quot (.app .abs u) u
  | .sqrt, u => .reciprocal (.prod [2, .app .sqrt u])

/-- The product of two expressions, where a factor `1` is dropped. -/
def mulUnlessOne (a b : Expr) : Expr :=
  if a = 1 then b else if b = 1 then a else .prod [a, b]

/-- The chain rule: the derivative of `f u`, given that of `u`. -/
def chainRule (f : Func) (u u' : Expr) : Expr := mulUnlessOne (outerDerivative f u) u'

/-- One product for each factor, in which that factor is replaced by its derivative. The factors
come with their derivatives; `before` holds the factors already passed. -/
def productTerms (before : List Expr) : List (Expr × Expr) → List Expr
  | [] => []
  | (a, a') :: rest =>
    .prod (before ++ a' :: rest.map Prod.fst) :: productTerms (before ++ [a]) rest

/-- The terms are products of factors and derivatives, with a derivative among them. -/
theorem forall_mem_productTerms {p : Expr → Prop} {before : List Expr}
    {factors : List (Expr × Expr)} (hbefore : ∀ e ∈ before, p e)
    (h : ∀ q ∈ factors, p q.1 ∧ p q.2) :
    ∀ e ∈ productTerms before factors,
      ∃ es, e = .prod es ∧ (∃ q ∈ factors, q.2 ∈ es) ∧ ∀ u ∈ es, p u := by
  induction factors generalizing before with
  | nil => simp [productTerms]
  | cons q rest ih =>
    obtain ⟨⟨hfactor, hderivative⟩, hrest⟩ := List.forall_mem_cons.1 h
    refine List.forall_mem_cons.2 ⟨⟨_, rfl, ⟨q, by simp, by simp⟩, ?_⟩, fun e he => ?_⟩
    · simp only [List.mem_append, List.mem_cons, List.mem_map]
      rintro u (hu | rfl | ⟨q', hq', rfl⟩)
      · exact hbefore u hu
      · exact hderivative
      · exact (hrest q' hq').1
    · have hbefore' : ∀ u ∈ before ++ [q.1], p u :=
        List.forall_mem_append.2 ⟨hbefore, List.forall_mem_singleton.2 hfactor⟩
      obtain ⟨es, rfl, ⟨q', hq', hmem⟩, hes⟩ := ih hbefore' hrest e he
      exact ⟨es, rfl, ⟨q', List.mem_cons_of_mem q hq', hmem⟩, hes⟩

/-- The product rule, for factors that come with their derivatives. -/
def productRule (factors : List (Expr × Expr)) : Expr := .sumOf (productTerms [] factors)

/-- The quotient rule: `(a' * b - a * b') / b ^ 2`. -/
def quotientRule (a a' b b' : Expr) : Expr :=
  .quot (.subtract (.prod [a', b]) (.prod [a, b'])) (.pow b 2)

/-- The power rule: `c * b ^ (c - 1) * b'` for an integer or a fraction `c`, and otherwise
`b ^ c * (c * ln b)'`. -/
def powerRule (b b' c c' : Expr) : Expr :=
  let reduced := Expr.sum [c, .num (-1)]
  match c.fraction? with
  | some ⟨n, d⟩ =>
    if d = 1 then .prod [.num n, .pow b ((n.sub? 1).elim reduced .num), b']
    else .prod [c, .pow b reduced, b']
  | none => .prod [.pow b c, productRule [(c, c'), (.app .ln b, chainRule .ln b b')]]

mutual

/-- The derivative by a variable. -/
def derivative (x : String) : Expr → Expr
  | .var y => if y = x then 1 else 0
  | .num _ => 0
  | .sum es => .sum (derivatives x es)
  | .prod es => productRule (es.zip (derivatives x es))
  | .quot a b => quotientRule a (derivative x a) b (derivative x b)
  | .pow b c => powerRule b (derivative x b) c (derivative x c)
  | .app f u => chainRule f u (derivative x u)
  | .eqn a b => .eqn (derivative x a) (derivative x b)

/-- The derivatives of several expressions by a variable. -/
def derivatives (x : String) : List Expr → List Expr
  | [] => []
  | e :: es => derivative x e :: derivatives x es

end

theorem derivatives_eq_map (x : String) (es : List Expr) :
    derivatives x es = es.map (derivative x) := by
  induction es with
  | nil => rfl
  | cons e es ih => simp [derivatives, ih]

theorem derivative_sum (x : String) (es : List Expr) :
    derivative x (.sum es) = .sum (es.map (derivative x)) := by
  rw [derivative, derivatives_eq_map]

/-- The product rule is given every factor together with its derivative. -/
theorem derivative_prod (x : String) (es : List Expr) :
    derivative x (.prod es) = productRule (es.map fun e => (e, derivative x e)) := by
  rw [derivative, derivatives_eq_map, ← List.map_prod_left_eq_zip]

end Calculus

end ComputerAlgebra
