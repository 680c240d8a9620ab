import ComputerAlgebra.Calculus.Derivative
import ComputerAlgebra.Proofs.Real.Power

/-!
# The symbolic derivative is the derivative

An expression gives a function of one of its variables, the others being fixed. `IsDerivative` says
that a second expression has the derivative of that function as its value. Each rule of
`Calculus.derivative` keeps to it at the points where the rule is sound, and `Regular` collects
these points (`isDerivative_derivative`).
-/

namespace ComputerAlgebra

namespace Calculus

open ComputerAlgebra.Expr Filter Topology

variable {ρ : String → ℝ} {x : String} {a a' b b' c c' e e' u u' : Expr} {es : List Expr}

/-! ### Values of derived forms -/

@[simp] theorem real_two : (2 : Expr).real ρ = 2 := by
  change (Expr.num 2).real ρ = 2
  rw [real_num, show (2 : Int64).toInt = 2 by decide]
  norm_num

@[simp] theorem defined_two : (2 : Expr).Defined ρ := .num 2

@[simp] theorem real_negate (a : Expr) : (negate a).real ρ = -a.real ρ := by
  simp [negate]

@[simp] theorem defined_negate : (negate a).Defined ρ ↔ a.Defined ρ := by
  simp [negate]

@[simp] theorem real_subtract (a b : Expr) : (subtract a b).real ρ = a.real ρ - b.real ρ := by
  simp [subtract, sub_eq_add_neg]

@[simp] theorem defined_subtract : (subtract a b).Defined ρ ↔ a.Defined ρ ∧ b.Defined ρ := by
  simp [subtract]

@[simp] theorem real_reciprocal (a : Expr) : (reciprocal a).real ρ = 1 / a.real ρ := by
  simp [reciprocal]

@[simp] theorem defined_reciprocal : (reciprocal a).Defined ρ ↔ a.Defined ρ ∧ a.real ρ ≠ 0 := by
  simp [reciprocal]

@[simp] theorem powerDomain_two (r : ℝ) : PowerDomain r 2 := by
  exact_mod_cast PowerDomain.intCast_iff (b := r) (k := 2) |>.mpr (.inr (by norm_num))

/-! ### Functions of one variable -/

/-- The value of an expression as a function of one variable. -/
noncomputable def along (ρ : String → ℝ) (x : String) (e : Expr) (t : ℝ) : ℝ :=
  e.real (Function.update ρ x t)

@[simp] theorem along_self (e : Expr) : along ρ x e (ρ x) = e.real ρ := by
  rw [along, Function.update_eq_self]

/-- Along a variable a sum is the sum of what its addends are. -/
theorem along_sum (es : List Expr) :
    along ρ x (.sum es) = fun t => (es.map fun e => along ρ x e t).sum :=
  funext fun _ => real_sum es

theorem along_prod (es : List Expr) :
    along ρ x (.prod es) = fun t => (es.map fun e => along ρ x e t).prod :=
  funext fun _ => real_prod es

theorem along_quot (a b : Expr) :
    along ρ x (.quot a b) = fun t => along ρ x a t / along ρ x b t :=
  funext fun _ => real_quot a b

theorem along_pow (a b : Expr) :
    along ρ x (.pow a b) = fun t => along ρ x a t ^ along ρ x b t :=
  funext fun _ => real_pow a b

theorem along_app (f : Func) (a : Expr) : along ρ x (.app f a) = f.real ∘ along ρ x a :=
  funext fun _ => real_app f a

/-! ### Derivatives of values -/

/-- Sums are differentiated addend by addend. -/
theorem hasDerivAt_sum {D : Expr → Expr}
    (h : ∀ e ∈ es, HasDerivAt (along ρ x e) ((D e).real ρ) (ρ x)) :
    HasDerivAt (along ρ x (.sum es)) ((Expr.sum (es.map D)).real ρ) (ρ x) := by
  rw [along_sum, real_sum, List.map_map]
  induction es with
  | nil => exact hasDerivAt_const _ _
  | cons e es ih =>
    rw [List.forall_mem_cons] at h
    simp only [List.map_cons, List.sum_cons]
    exact h.1.fun_add (ih h.2)

/-- The factors already passed are factors of every term. -/
theorem real_productTerms (before : List Expr) (factors : List (Expr × Expr)) :
    ((productTerms before factors).map (real ρ)).sum =
      (before.map (real ρ)).prod * ((productTerms [] factors).map (real ρ)).sum := by
  induction factors generalizing before with
  | nil => simp [productTerms]
  | cons p rest ih =>
    simp only [productTerms, List.map_cons, List.sum_cons, real_prod, List.map_append,
      List.prod_append, List.prod_cons, List.nil_append]
    rw [ih (before ++ [p.1]), ih [p.1]]
    simp only [List.map_append, List.prod_append, List.map_cons, List.map_nil, List.prod_cons,
      List.prod_nil, mul_one]
    ring

/-- The product rule: the derivative of a product is the sum of what becomes of it when one factor
after the other is replaced by its derivative. -/
theorem hasDerivAt_productRule {factors : List (Expr × Expr)}
    (h : ∀ p ∈ factors, HasDerivAt (along ρ x p.1) (p.2.real ρ) (ρ x)) :
    HasDerivAt (along ρ x (.prod (factors.map Prod.fst))) ((productRule factors).real ρ) (ρ x) := by
  rw [along_prod, productRule, real_sumOf]
  induction factors with
  | nil => exact hasDerivAt_const _ _
  | cons p rest ih =>
    rw [List.forall_mem_cons] at h
    have hmul := h.1.fun_mul (ih h.2)
    simp only [along_self] at hmul
    simp only [productTerms, List.map_cons, List.prod_cons, List.sum_cons, real_prod,
      List.nil_append, real_productTerms [p.1], List.map_nil, List.prod_nil, mul_one]
    exact hmul

/-- The quotient rule, where the denominator is not `0`. -/
theorem hasDerivAt_quotientRule (ha : HasDerivAt (along ρ x a) (a'.real ρ) (ρ x))
    (hb : HasDerivAt (along ρ x b) (b'.real ρ) (ρ x)) (h : b.real ρ ≠ 0) :
    HasDerivAt (along ρ x (.quot a b)) ((quotientRule a a' b b').real ρ) (ρ x) := by
  have hdiv := ha.fun_div hb (by rwa [along_self])
  simp only [along_self] at hdiv
  rw [along_quot]
  simpa [quotientRule] using hdiv

/-- A power whose exponent does not depend on the variable. -/
theorem hasDerivAt_pow_const {r : ℝ} (hb : HasDerivAt (along ρ x b) (b'.real ρ) (ρ x))
    (hc : ∀ t, along ρ x c t = r) (h : b.real ρ ≠ 0 ∨ 1 ≤ r) :
    HasDerivAt (along ρ x (.pow b c)) (r * b.real ρ ^ (r - 1) * b'.real ρ) (ρ x) := by
  have hpow := hb.rpow_const (p := r) (by rwa [along_self])
  rw [along_self] at hpow
  rw [along_pow, funext hc]
  exact hpow.congr_deriv (by ring)

/-- The exponent `n - 1`, which is left as a sum if it does not fit. -/
theorem reduced_exponent {n : Int64} (hdef : c.Defined ρ) (hreal : c.real ρ = n.toInt) :
    ((n.sub? 1).elim (Expr.sum [c, .num (-1)]) Expr.num).Defined ρ ∧
      ((n.sub? 1).elim (Expr.sum [c, .num (-1)]) Expr.num).real ρ = ((n.toInt - 1 : ℤ) : ℝ) := by
  cases h : n.sub? 1 with
  | none => simp [hdef, hreal, sub_eq_add_neg]
  | some m =>
    rw [Int64.sub?, Int64.ofInt?_eq_some_iff, Int64.toInt_one] at h
    simp [h]

/-- An exponent that is an integer `n`, or is written `n / 1`. -/
theorem integer_exponent {n : Int64} (hc : c = .num n ∨ c = .quot (.num n) 1) :
    c.fraction? = some ⟨n, 1⟩ ∧ (∀ ρ, c.Defined ρ) ∧ ∀ ρ, c.real ρ = n.toInt := by
  rcases hc with rfl | rfl
  · exact ⟨rfl, by simp, by simp⟩
  · exact ⟨rfl, by simp, by simp⟩

/-- The power rule for a whole exponent, which may be written as a fraction over `1`. A negative one
needs a base other than `0`. -/
theorem hasDerivAt_powerRule_of_integer {n : Int64}
    (hb : HasDerivAt (along ρ x b) (b'.real ρ) (ρ x)) (hc : c = .num n ∨ c = .quot (.num n) 1)
    (h : b.real ρ ≠ 0 ∨ 1 ≤ n.toInt) :
    HasDerivAt (along ρ x (.pow b c)) ((powerRule b b' c c').real ρ) (ρ x) := by
  obtain ⟨hfraction, hdef, hreal⟩ := integer_exponent hc
  have hreal' := (reduced_exponent (hdef ρ) (hreal ρ)).2
  have hpow := hasDerivAt_pow_const hb (fun t => hreal _) (h.imp_right fun h => by exact_mod_cast h)
  refine hpow.congr_deriv ?_
  simp only [powerRule, hfraction, if_true, real_prod, List.map_cons, List.map_nil, List.prod_cons,
    List.prod_nil, real_num, real_pow, hreal']
  push_cast
  ring

/-- As a function of the variable, the first expression is defined around the assignment, and its
derivative there is the value of the second one, which is defined as well. -/
structure IsDerivative (ρ : String → ℝ) (x : String) (e e' : Expr) : Prop where
  defined : e'.Defined ρ
  eventually : ∀ᶠ t in 𝓝 (ρ x), e.Defined (Function.update ρ x t)
  hasDerivAt : HasDerivAt (along ρ x e) (e'.real ρ) (ρ x)

namespace IsDerivative

/-- Only a defined expression has a derivative. -/
theorem defined_self (h : IsDerivative ρ x e e') : e.Defined ρ := by
  have hself := h.eventually.self_of_nhds
  rwa [Function.update_eq_self] at hself

/-- What holds of all numbers near the value holds of the values around the assignment. -/
theorem eventually_along (h : IsDerivative ρ x e e') {p : ℝ → Prop}
    (hp : ∀ᶠ v in 𝓝 (e.real ρ), p v) : ∀ᶠ t in 𝓝 (ρ x), p (along ρ x e t) := by
  have htendsto := h.hasDerivAt.continuousAt.tendsto
  rw [along_self] at htendsto
  exact htendsto.eventually hp

/-! ### Variables and numbers -/

/-- An expression whose value does not depend on the variable. -/
theorem of_const {r : ℝ} (hdef : ∀ σ, e.Defined σ) (hreal : ∀ t, along ρ x e t = r) :
    IsDerivative ρ x e 0 where
  defined := .zero
  eventually := .of_forall fun _ => hdef _
  hasDerivAt := by
    rw [real_zero, funext hreal]
    exact hasDerivAt_const _ _

theorem num (n : Int64) : IsDerivative ρ x (.num n) 0 :=
  of_const (fun _ => .num n) fun _ => real_num n

/-- A variable that names no constant changes with itself. -/
theorem var_self (hx : NamedConstant.isName x = false) : IsDerivative ρ x (.var x) 1 where
  defined := .one
  eventually := .of_forall fun _ => .var x
  hasDerivAt := by
    have hnone : NamedConstant.ofName? x = none := by simpa [NamedConstant.isName] using hx
    have hid : along ρ x (.var x) = id := by
      funext t
      rw [along, real_var, realVar, hnone, Option.elim_none, Function.update_self, id]
    rw [hid, real_one]
    exact hasDerivAt_id _

/-- Another variable is constant. -/
theorem var_ne {y : String} (hy : y ≠ x) : IsDerivative ρ x (.var y) 0 := by
  refine of_const (r := realVar ρ y) (fun _ => .var y) fun t => ?_
  rw [along, real_var, realVar, Function.update_of_ne hy, realVar]

/-! ### Sums and products -/

/-- Finitely many expressions that have derivatives are defined all around the point at once. -/
theorem eventually_all (h : ∀ e ∈ es, ∃ e', IsDerivative ρ x e e') :
    ∀ᶠ t in 𝓝 (ρ x), ∀ e ∈ es, e.Defined (Function.update ρ x t) := by
  refine (eventually_all_finite es.finite_toSet).2 fun e he => ?_
  obtain ⟨e', he'⟩ := h e he
  exact he'.eventually

/-- A sum has the derivative that the sum of the derivatives of its addends is, defined where those
are. -/
theorem sum {D : Expr → Expr} (h : ∀ e ∈ es, IsDerivative ρ x e (D e)) :
    IsDerivative ρ x (.sum es) (.sum (es.map D)) where
  defined := .sum (List.forall_mem_map.2 fun e he => (h e he).defined)
  eventually := by
    filter_upwards [eventually_all fun e he => ⟨D e, h e he⟩] with t ht
    exact .sum ht
  hasDerivAt := hasDerivAt_sum fun e he => (h e he).hasDerivAt

/-- A product has the derivative of the product rule. -/
theorem product {factors : List (Expr × Expr)} (h : ∀ p ∈ factors, IsDerivative ρ x p.1 p.2) :
    IsDerivative ρ x (.prod (factors.map Prod.fst)) (productRule factors) where
  defined := Defined.sumOf_iff.2 fun e he => by
    obtain ⟨es, rfl, -, hes⟩ := forall_mem_productTerms (p := Defined ρ) (by simp)
      (fun q hq => ⟨(h q hq).defined_self, (h q hq).defined⟩) e he
    exact .prod hes
  eventually := by
    have hops : ∀ e ∈ factors.map Prod.fst, ∃ e', IsDerivative ρ x e e' :=
      List.forall_mem_map.2 fun p hp => ⟨p.2, h p hp⟩
    filter_upwards [eventually_all hops] with t ht
    exact .prod ht
  hasDerivAt := hasDerivAt_productRule fun p hp => (h p hp).hasDerivAt

/-- A quotient with a denominator other than `0` has the derivative of the quotient rule. -/
theorem quot (ha : IsDerivative ρ x a a') (hb : IsDerivative ρ x b b') (h : b.real ρ ≠ 0) :
    IsDerivative ρ x (.quot a b) (quotientRule a a' b b') where
  defined := by
    simp [quotientRule, ha.defined, hb.defined, ha.defined_self, hb.defined_self, h]
  eventually := by
    filter_upwards [ha.eventually, hb.eventually, hb.eventually_along (eventually_ne_nhds h)] with
      t ha hb hne
    exact .quot ha hb hne
  hasDerivAt := hasDerivAt_quotientRule ha.hasDerivAt hb.hasDerivAt h

end IsDerivative

/-! ### Functions -/

/-- Where a function is defined around an argument and has a derivative there. -/
def Smooth : Func → ℝ → Prop
  | .tan, v => Real.cos v ≠ 0
  | .asin, v => -1 < v ∧ v < 1
  | .acos, v => -1 < v ∧ v < 1
  | .ln, v => 0 < v
  | .abs, v => v ≠ 0
  | .sqrt, v => 0 < v
  | _, _ => True

/-- Where a function has a derivative, it is defined all around. -/
theorem Smooth.eventually_domain {f : Func} {v : ℝ} (h : Smooth f v) :
    ∀ᶠ w in 𝓝 v, f.Domain w := by
  cases f with
  | tan => exact Real.continuous_cos.continuousAt.eventually_ne h
  | asin => exact mem_of_superset (Ioo_mem_nhds h.1 h.2) fun w hw => ⟨hw.1.le, hw.2.le⟩
  | acos => exact mem_of_superset (Ioo_mem_nhds h.1 h.2) fun w hw => ⟨hw.1.le, hw.2.le⟩
  | ln => exact eventually_gt_nhds h
  | sqrt => exact (eventually_gt_nhds h).mono fun w hw => hw.le
  | _ => exact .of_forall fun _ => trivial

/-- The denominator in the derivative of the arc sine is not `0` between `-1` and `1`. -/
theorem sqrt_one_sub_sq_ne_zero {v : ℝ} (h : -1 < v ∧ v < 1) : √(1 - v ^ 2) ≠ 0 :=
  (Real.sqrt_pos.2 (by nlinarith [h.1, h.2])).ne'

theorem defined_sqrt_oneMinusSquare (hu : u.Defined ρ) (h : -1 < u.real ρ ∧ u.real ρ < 1) :
    (Expr.app .sqrt (oneMinusSquare u)).Defined ρ := by
  have hnonneg : u.real ρ ^ 2 ≤ 1 := by nlinarith [h.1, h.2]
  simp [oneMinusSquare, hu, Func.Domain, hnonneg]

theorem real_sqrt_oneMinusSquare (u : Expr) :
    (Expr.app .sqrt (oneMinusSquare u)).real ρ = √(1 - u.real ρ ^ 2) := by
  simp [oneMinusSquare, Func.real]

/-- The derivative of a function is defined where the function has one. -/
theorem defined_outerDerivative {f : Func} (hu : u.Defined ρ) (h : Smooth f (u.real ρ)) :
    (outerDerivative f u).Defined ρ := by
  cases f with
  | sin => simp [outerDerivative, hu, Func.Domain]
  | cos => simp [outerDerivative, hu, Func.Domain]
  | tan =>
    have hcos : Real.cos (u.real ρ) ≠ 0 := h
    simp [outerDerivative, hu, Func.Domain, Func.real, hcos]
  | asin =>
    rw [outerDerivative, defined_reciprocal, real_sqrt_oneMinusSquare]
    exact ⟨defined_sqrt_oneMinusSquare hu h, sqrt_one_sub_sq_ne_zero h⟩
  | acos =>
    rw [outerDerivative, defined_negate, defined_reciprocal, real_sqrt_oneMinusSquare]
    exact ⟨defined_sqrt_oneMinusSquare hu h, sqrt_one_sub_sq_ne_zero h⟩
  | atan =>
    have hpos : 1 + u.real ρ ^ 2 ≠ 0 := by positivity
    simpa [outerDerivative, hu] using hpos
  | ln =>
    have hpos : 0 < u.real ρ := h
    simp [outerDerivative, hu, hpos.ne']
  | abs =>
    have hne : u.real ρ ≠ 0 := h
    simp [outerDerivative, hu, Func.Domain, hne]
  | sqrt =>
    have hpos : 0 < u.real ρ := h
    simp [outerDerivative, hu, Func.Domain, Func.real, hpos.le, (Real.sqrt_pos.2 hpos).ne']

/-- The table of derivatives is right. -/
theorem hasDerivAt_outerDerivative {f : Func} (h : Smooth f (u.real ρ)) :
    HasDerivAt f.real ((outerDerivative f u).real ρ) (u.real ρ) := by
  cases f with
  | sin => simpa [outerDerivative, Func.real] using Real.hasDerivAt_sin (u.real ρ)
  | cos => simpa [outerDerivative, Func.real] using Real.hasDerivAt_cos (u.real ρ)
  | tan => simpa [outerDerivative, Func.real] using Real.hasDerivAt_tan h
  | asin =>
    rw [outerDerivative, real_reciprocal, real_sqrt_oneMinusSquare]
    exact Real.hasDerivAt_arcsin h.1.ne' h.2.ne
  | acos =>
    rw [outerDerivative, real_negate, real_reciprocal, real_sqrt_oneMinusSquare]
    exact Real.hasDerivAt_arccos h.1.ne' h.2.ne
  | atan => simpa [outerDerivative, Func.real] using Real.hasDerivAt_arctan (u.real ρ)
  | ln =>
    have hpos : 0 < u.real ρ := h
    simpa [outerDerivative, Func.real] using Real.hasDerivAt_log hpos.ne'
  | abs =>
    have hne : u.real ρ ≠ 0 := h
    have habs : |u.real ρ| / u.real ρ = SignType.sign (u.real ρ) := by
      rw [div_eq_iff hne, mul_comm, self_mul_sign]
    simpa [outerDerivative, Func.real, habs] using hasDerivAt_abs hne
  | sqrt =>
    have hpos : 0 < u.real ρ := h
    simpa [outerDerivative, Func.real] using Real.hasDerivAt_sqrt hpos.ne'

/-- Leaving out a factor `1` does not change where a product is defined. -/
theorem defined_mulUnlessOne : (mulUnlessOne a b).Defined ρ ↔ a.Defined ρ ∧ b.Defined ρ := by
  unfold mulUnlessOne
  split_ifs with ha hb
  · simp [ha]
  · simp [hb]
  · simp

/-- Leaving out a factor `1` does not change the value of a product. -/
theorem real_mulUnlessOne (a b : Expr) : (mulUnlessOne a b).real ρ = a.real ρ * b.real ρ := by
  unfold mulUnlessOne
  split_ifs with ha hb
  · simp [ha]
  · simp [hb]
  · simp

/-- The chain rule, for every function and wherever it has a derivative. -/
theorem IsDerivative.app {f : Func} (hu : IsDerivative ρ x u u') (h : Smooth f (u.real ρ)) :
    IsDerivative ρ x (.app f u) (chainRule f u u') where
  defined := defined_mulUnlessOne.2 ⟨defined_outerDerivative hu.defined_self h, hu.defined⟩
  eventually := by
    filter_upwards [hu.eventually, hu.eventually_along h.eventually_domain] with t hu hdom
    exact .app hu hdom
  hasDerivAt := by
    have houter := hasDerivAt_outerDerivative h
    rw [← along_self (x := x) u] at houter
    rw [along_app, chainRule, real_mulUnlessOne]
    exact houter.comp _ hu.hasDerivAt

/-! ### Powers -/

/-- What is read as a fraction is a whole number or a quotient of two of them. -/
theorem fraction?_eq_some {n d : Int64} (h : c.fraction? = some ⟨n, d⟩) :
    c = .num n ∧ d = 1 ∨ c = .quot (.num n) (.num d) := by
  unfold fraction? at h
  split at h <;> cases h
  · exact .inl ⟨rfl, rfl⟩
  · exact .inr rfl

namespace IsDerivative

/-- A power with a whole exponent has the derivative of the power rule. -/
theorem pow_of_integer {n : Int64} (hb : IsDerivative ρ x b b')
    (hc : c = .num n ∨ c = .quot (.num n) 1) (h : b.real ρ ≠ 0 ∨ 1 ≤ n.toInt) :
    IsDerivative ρ x (.pow b c) (powerRule b b' c c') where
  defined := by
    obtain ⟨hfraction, hdef, hreal⟩ := integer_exponent hc
    obtain ⟨hdef', hreal'⟩ := reduced_exponent (hdef ρ) (hreal ρ)
    have hle : b.real ρ ≠ 0 ∨ 0 ≤ n.toInt - 1 := h.imp_right fun h => by omega
    simp only [powerRule, hfraction, if_true, Defined.prod_iff, List.forall_mem_cons,
      Defined.num_iff, Defined.pow_iff, hreal']
    exact ⟨trivial, ⟨hb.defined_self, hdef', PowerDomain.intCast_iff.mpr hle⟩, hb.defined, by simp⟩
  eventually := by
    obtain ⟨-, hdef, hreal⟩ := integer_exponent hc
    have hdom : ∀ᶠ t in 𝓝 (ρ x), along ρ x b t ≠ 0 ∨ 0 ≤ n.toInt := by
      rcases h with hne | hn
      · exact (hb.eventually_along (eventually_ne_nhds hne)).mono fun _ => .inl
      · exact .of_forall fun _ => .inr (by omega)
    filter_upwards [hb.eventually, hdom] with t hb hdom
    exact .pow hb (hdef _) (hreal _ ▸ PowerDomain.intCast_iff.mpr hdom)
  hasDerivAt := hasDerivAt_powerRule_of_integer hb.hasDerivAt hc h

/-- A power with a positive base has the derivative of the general power rule, whatever its exponent
is. -/
theorem pow_of_pos (hb : IsDerivative ρ x b b') (hc : IsDerivative ρ x c c')
    (h : 0 < b.real ρ) : IsDerivative ρ x (.pow b c) (powerRule b b' c c') := by
  -- near the point the base stays positive, so the power stays defined
  have heventually : ∀ᶠ t in 𝓝 (ρ x), (Expr.pow b c).Defined (Function.update ρ x t) := by
    filter_upwards [hb.eventually, hc.eventually, hb.eventually_along (eventually_gt_nhds h)] with
      t hb hc hpos
    exact .pow hb hc (.inl hpos)
  cases hfraction : c.fraction? with
  | some q =>
    obtain ⟨n, d⟩ := q
    by_cases hd : d = 1
    · subst hd
      exact hb.pow_of_integer (n := n) ((fraction?_eq_some hfraction).imp And.left id) (.inl h.ne')
    -- a fraction as exponent: the derivative of a power with a constant exponent
    · obtain rfl := (fraction?_eq_some hfraction).resolve_left fun hnum => hd hnum.2
      have hpow := hasDerivAt_pow_const hb.hasDerivAt (c := .quot (.num n) (.num d))
        (r := n.toInt / d.toInt) (fun t => by simp [along]) (.inl h.ne')
      simp only [powerRule, hfraction, if_neg hd]
      refine ⟨?_, heventually, hpow.congr_deriv ?_⟩
      · simp only [Defined.prod_iff, List.forall_mem_cons, Defined.pow_iff, Defined.sum_iff]
        exact ⟨hc.defined_self, ⟨hb.defined_self, ⟨hc.defined_self, .num _, by simp⟩, .inl h⟩,
          hb.defined, by simp⟩
      · simp [sub_eq_add_neg, mul_assoc]
  -- any other exponent: the derivative of `exp (c * ln b)`
  | none =>
    have hlog : IsDerivative ρ x (.app .ln b) (chainRule .ln b b') := hb.app h
    have hprod : ∀ p ∈ [(c, c'), (Expr.app .ln b, chainRule .ln b b')],
        IsDerivative ρ x p.1 p.2 := by
      simp [hc, hlog]
    simp only [powerRule, hfraction]
    refine ⟨?_, heventually, ?_⟩
    · simp only [Defined.prod_iff, List.forall_mem_cons, Defined.pow_iff]
      exact ⟨⟨hb.defined_self, hc.defined_self, .inl h⟩, (product hprod).defined, by simp⟩
    · have hpow := hb.hasDerivAt.rpow hc.hasDerivAt (by rwa [along_self])
      simp only [along_self] at hpow
      rw [along_pow]
      refine hpow.congr_deriv ?_
      have hlnb : (chainRule .ln b b').real ρ = 1 / b.real ρ * b'.real ρ := by
        rw [chainRule, real_mulUnlessOne, outerDerivative, real_reciprocal]
      simp only [productRule, productTerms, real_prod, real_sumOf, List.map_cons, List.map_nil,
        List.prod_cons, List.prod_nil, List.sum_cons, List.sum_nil, List.nil_append,
        List.cons_append, real_pow, real_app, hlnb, Real.rpow_sub_one h.ne']
      simp only [Func.real]
      field_simp
      ring

end IsDerivative

/-! ### Regular points -/

/-- An assignment at which every rule of the derivative applies. -/
inductive Regular (ρ : String → ℝ) : Expr → Prop where
  | var (x : String) : Regular ρ (.var x)
  | num (n : Int64) : Regular ρ (.num n)
  | sum {es : List Expr} (h : ∀ e ∈ es, Regular ρ e) : Regular ρ (.sum es)
  | prod {es : List Expr} (h : ∀ e ∈ es, Regular ρ e) : Regular ρ (.prod es)
  | quot {a b : Expr} (ha : Regular ρ a) (hb : Regular ρ b) (h : b.real ρ ≠ 0) :
      Regular ρ (.quot a b)
  /-- A power whose exponent is an integer `n`, or is written `n / 1`. -/
  | integerPow {b c : Expr} {n : Int64} (hb : Regular ρ b) (hc : c = .num n ∨ c = .quot (.num n) 1)
      (h : b.real ρ ≠ 0 ∨ 1 ≤ n.toInt) : Regular ρ (.pow b c)
  | pow {b c : Expr} (hb : Regular ρ b) (hc : Regular ρ c) (h : 0 < b.real ρ) : Regular ρ (.pow b c)
  | app {f : Func} {u : Expr} (hu : Regular ρ u) (h : Smooth f (u.real ρ)) : Regular ρ (.app f u)

/-- Wherever an expression is regular, its symbolic derivative is defined and has the derivative as
its value. -/
theorem isDerivative_derivative (hx : NamedConstant.isName x = false) (h : Regular ρ e) :
    IsDerivative ρ x e (derivative x e) := by
  induction h with
  | var y =>
    rw [derivative]
    split_ifs with hy
    · subst hy
      exact .var_self hx
    · exact .var_ne hy
  | num n => exact .num n
  | sum h ih =>
    rw [derivative, derivatives_eq_map]
    exact .sum ih
  | @prod es h ih =>
    rw [derivative, derivatives_eq_map, ← List.map_prod_left_eq_zip]
    have hpairs : ∀ p ∈ es.map fun e => (e, derivative x e), IsDerivative ρ x p.1 p.2 :=
      List.forall_mem_map.2 ih
    have hfst : (es.map fun e => (e, derivative x e)).map Prod.fst = es := by
      rw [List.map_map]
      exact List.map_id es
    have hprod := IsDerivative.product hpairs
    rwa [hfst] at hprod
  | quot ha hb h iha ihb => exact iha.quot ihb h
  | integerPow hb hc h ihb => exact ihb.pow_of_integer hc h
  | pow hb hc h ihb ihc => exact ihb.pow_of_pos ihc h
  | app hu h ihu => exact ihu.app h

/-- At `2` the derivative of `ln(x)` by `x` is `1 / x`. -/
theorem isDerivative_derivative_ln :
    IsDerivative (fun _ => 2) "x" (.app .ln (.var "x")) (.quot 1 (.var "x")) := by
  have hx : NamedConstant.isName "x" = false := by decide
  have hvalue : (Expr.var "x").real (fun _ => 2) = 2 := by
    rw [real_var, realVar, show NamedConstant.ofName? "x" = none by decide, Option.elim_none]
  have hsmooth : Smooth .ln ((Expr.var "x").real fun _ => 2) := by
    rw [hvalue]
    exact two_pos
  have heq : derivative "x" (.app .ln (.var "x")) = .quot 1 (.var "x") := by decide
  exact heq ▸ isDerivative_derivative hx (.app (.var "x") hsmooth)

end Calculus

end ComputerAlgebra
