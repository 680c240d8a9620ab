import ComputerAlgebra.Proofs.Calculus.Derivative
import ComputerAlgebra.Proofs.Calculus.Vocabulary
import ComputerAlgebra.Proofs.Polynomial.Rest
import ComputerAlgebra.Proofs.Real.Substitution
import ComputerAlgebra.Proofs.Vanishing.Absent

/-!
# Derivatives of polynomials

What the simplifier makes of the derivative of a polynomial at rest is a polynomial of at most the
same degree, and its values are the derivatives of the values (`Entire.differentiate`).

The rules of calculus give no such values where a constant is raised to an exponent that is not an
integer literal: they take its logarithm and divide by it, whatever its value. But these terms
vanish by their shape, so the simplified tree has none of them.
-/

namespace ComputerAlgebra

namespace Calculus

open ComputerAlgebra.Expr ComputerAlgebra.Simplification Magnitude

variable {X : Expr → Prop} {ρ : String → ℝ} {x : String} {a a' b b' c c' e e' : Expr} {n : Int64}
  {before : List Expr} {factors : List (Expr × Expr)}

/-- The power rule lowers a positive exponent by `1`. -/
theorem powerRule_num (hn : 0 < n.toInt) (b b' c' : Expr) :
    ∃ m : Int64, m.toInt = n.toInt - 1 ∧
      powerRule b b' (.num n) c' = .prod [.num n, .pow b (.num m), b'] := by
  obtain ⟨m, hm⟩ : ∃ m, n.sub? 1 = some m := by
    rw [← Option.ne_none_iff_exists', Int64.sub?, Ne, Int64.ofInt?_eq_none_iff, Int64.toInt_one]
    have := n.toInt_lt
    omega
  refine ⟨m, by rwa [Int64.sub?, Int64.ofInt?_eq_some_iff, Int64.toInt_one] at hm, ?_⟩
  simp [powerRule, fraction?, hm]

/-! ### Degrees -/

/-- Replacing one factor by something of no higher degree does not raise the degree. -/
theorem degree_productTerms_le (h : ∀ q ∈ factors, degree x X q.2 ≤ degree x X q.1) :
    ∀ e ∈ productTerms before factors,
      degree x X e ≤ degree x X (.prod (before ++ factors.map Prod.fst)) := by
  induction factors generalizing before with
  | nil => simp [productTerms]
  | cons q rest ih =>
    obtain ⟨hq, hrest⟩ := List.forall_mem_cons.1 h
    rw [productTerms, List.forall_mem_cons]
    constructor
    · simp only [degree_prod, List.map_append, List.map_cons, List.sum_append, List.sum_cons]
      gcongr
    · simpa using @ih (before ++ [q.1]) hrest

/-- The product rule does not raise the degree, if the derivatives of the factors have no higher
one. -/
theorem degree_productRule_le (h : ∀ q ∈ factors, degree x X q.2 ≤ degree x X q.1) :
    degree x X (productRule factors) ≤ degree x X (.prod (factors.map Prod.fst)) :=
  degree_sumOf_le_iff.2 (degree_productTerms_le h)

/-- A difference has no higher degree than the higher one of its parts. -/
theorem degree_subtract_le {d : ℕ∞} (ha : degree x X a ≤ d) (hb : degree x X b ≤ d) :
    degree x X (subtract a b) ≤ d :=
  degree_sum_le_iff.2 (by simp [negate, ha, hb])

/-- The quotient rule does not raise the degree: of finite degree, the denominator is constant. -/
theorem degree_quotientRule_le (h2 : X 2) (ha : degree x X a' ≤ degree x X a)
    (hb : degree x X b' ≤ degree x X b) :
    degree x X (quotientRule a a' b b') ≤ degree x X (.quot a b) := by
  by_cases htop : degree x X (.quot a b) = ⊤
  · exact htop ▸ le_top
  obtain ⟨hb0, heq⟩ := denominator_of_degree htop
  have hb0' : degree x X b' = 0 := nonpos_iff_eq_zero.1 (hb.trans hb0.le)
  rw [quotientRule, degree_quot (by simp [degree_pow h2, hb0]), heq]
  exact degree_subtract_le (by simpa [hb0] using ha) (by simp [hb0'])

/-- The power rule for a positive exponent does not raise the degree. -/
theorem degree_powerRule_num_le (hn : 0 < n.toInt) (hb : degree x Natural b' ≤ degree x Natural b) :
    degree x Natural (powerRule b b' (.num n) c') ≤ degree x Natural (.pow b (.num n)) := by
  obtain ⟨m, hm, heq⟩ := powerRule_num hn b b' c'
  obtain ⟨hnat, hcount⟩ := natural_num hn.le
  obtain ⟨hnat', hcount'⟩ := natural_num (n := m) (by omega)
  rw [heq, degree_pow hnat, hcount, show n.toInt.toNat = m.toInt.toNat + 1 by omega]
  calc degree x Natural (.prod [.num n, .pow b (.num m), b'])
      = degree x Natural b * m.toInt.toNat + degree x Natural b' := by
        rw [← hcount', ← degree_pow hnat']
        simp
    _ ≤ degree x Natural b * m.toInt.toNat + degree x Natural b := by gcongr
    _ = degree x Natural b * (m.toInt.toNat + 1 : ℕ) := by push_cast; ring

/-- The derivative of the logarithm of something of degree `0` has degree `0`. -/
theorem degree_chainRule_ln (hb : degree x X b = 0) (hb' : degree x X b' = 0) :
    degree x X (chainRule .ln b b') = 0 := by
  have hquot : degree x X (.quot 1 b) = 0 := by rw [degree_quot hb, degree_one]
  rw [chainRule, mulUnlessOne, outerDerivative, reciprocal]
  split_ifs <;> simp [hquot, hb']

/-- A power is a constant, or the power rule lowers its exponent. -/
theorem degree_powerRule_le (hg : Graded x (.pow b c))
    (hb : degree x Natural b' ≤ degree x Natural b)
    (hc : degree x Natural c' ≤ degree x Natural c) :
    degree x Natural (powerRule b b' c c') ≤ degree x Natural (.pow b c) := by
  rcases hg with ⟨n, hn, rfl⟩ | ⟨hconst, hwhole⟩
  · exact degree_powerRule_num_le hn hb
  by_cases hnum : ∃ n, c = .num n
  · obtain ⟨n, rfl⟩ := hnum
    exact degree_powerRule_num_le (Whole.num_iff.1 hwhole) hb
  have hb0 : degree x Natural b = 0 := nonpos_iff_eq_zero.1 ((degree_natural_le b).trans hconst.le)
  have hb0' : degree x Natural b' = 0 := nonpos_iff_eq_zero.1 (hb.trans hb0.le)
  have hc0 : degree x Natural c = 0 :=
    nonpos_iff_eq_zero.1 ((degree_natural_le c).trans hwhole.degree_eq_zero.le)
  have hfraction : c.fraction? = none := by
    cases hwhole with
    | num _ => exact absurd ⟨_, rfl⟩ hnum
    | _ => rfl
  have hproduct : degree x Natural (productRule [(c, c'), (.app .ln b, chainRule .ln b b')]) ≤ 0 :=
    (degree_productRule_le (by simp [hc, degree_chainRule_ln hb0 hb0'])).trans (by simp [hb0, hc0])
  have hpow : degree x Natural (.pow b c) = 0 := by rw [degree_pow (.inr hwhole), hb0, zero_mul]
  simp only [powerRule, hfraction]
  simpa [hpow] using hproduct

/-- Differentiation raises no degree. -/
theorem degree_derivative_le (x : String) (hfree : FunctionFree e) (hg : Everywhere (Graded x) e) :
    degree x Natural (derivative x e) ≤ degree x Natural e := by
  induction e using Expr.induct with
  | var y =>
    rw [derivative]
    split_ifs <;> simp
  | num n => simp [derivative]
  | sum es ih =>
    rw [derivative_sum]
    exact degree_sum_le_iff.2 <| List.forall_mem_map.2 fun e he =>
      (ih e he (hfree.operand he) (hg.operand he)).trans (degree_le_sum he)
  | prod es ih =>
    rw [derivative_prod]
    have hfactors : ∀ q ∈ es.map fun e => (e, derivative x e),
        degree x Natural q.2 ≤ degree x Natural q.1 :=
      List.forall_mem_map.2 fun e he => ih e he (hfree.operand he) (hg.operand he)
    simpa [Function.comp_def] using degree_productRule_le hfactors
  | quot a b iha ihb =>
    exact degree_quotientRule_le (.inr (.num (by decide)))
      (iha (hfree.operand (by simp [operands])) (hg.operand (by simp [operands])))
      (ihb (hfree.operand (by simp [operands])) (hg.operand (by simp [operands])))
  | pow b c ihb ihc =>
    exact degree_powerRule_le hg.root
      (ihb (hfree.operand (by simp [operands])) (hg.operand (by simp [operands])))
      (ihc (hfree.operand (by simp [operands])) (hg.operand (by simp [operands])))
  | app f u => exact absurd rfl (hfree.root f u)
  | eqn a b => simp

/-! ### Values -/

/-- Along a variable that does not occur, a tree is constant. -/
theorem along_eq_of_notMem (hx : x ∉ e.names) (t : ℝ) : along ρ x e t = e.real ρ :=
  real_congr fun y hy => Function.update_of_ne (fun h : y = x => hx (h ▸ hy)) t ρ

/-- A tree to which rounds can be applied as they keep its value, which is the derivative of the
value of another one. -/
structure Derived (ρ : String → ℝ) (x : String) (e e' : Expr) : Prop where
  tame : Tame .raw e'
  lawful : Lawful ρ e'
  hasDerivAt : HasDerivAt (along ρ x e) (e'.real ρ) (ρ x)

namespace Derived

/-- What vanishes by its shape is the derivative of a tree without the variable. -/
theorem of_void (h : Void e') (hx : x ∉ e.names) : Derived ρ x e e' where
  tame := h.tame
  lawful := .vanishing h.vanishing
  hasDerivAt := by
    rw [h.vanishing.real_eq_zero, funext (along_eq_of_notMem hx)]
    exact hasDerivAt_const _ _

/-- A sum of derivatives is one of the sum. -/
theorem sum {es : List Expr} {D : Expr → Expr} (hlen : 2 ≤ es.length)
    (h : ∀ e ∈ es, Derived ρ x e (D e)) : Derived ρ x (.sum es) (.sum (es.map D)) where
  tame := .sum (by simpa using hlen) (List.forall_mem_map.2 fun e he => (h e he).tame)
  lawful := .sum (List.forall_mem_map.2 fun e he => (h e he).lawful)
  hasDerivAt := hasDerivAt_sum fun e he => (h e he).hasDerivAt

/-- The product rule makes a derivative of derivatives. -/
theorem product {es : List Expr} {D : Expr → Expr} (htame : ∀ e ∈ es, Tame .raw e)
    (hlawful : ∀ e ∈ es, Lawful ρ e) (h : ∀ e ∈ es, Derived ρ x e (D e)) :
    Derived ρ x (.prod es) (productRule (es.map fun e => (e, D e))) where
  tame := .sumOf fun e he => by
    have hfactors : ∀ q ∈ es.map fun e => (e, D e), Tame .raw q.1 ∧ Tame .raw q.2 :=
      List.forall_mem_map.2 fun e he => ⟨htame e he, (h e he).tame⟩
    obtain ⟨us, rfl, ⟨q, -, hmem⟩, hus⟩ := forall_mem_productTerms (by simp) hfactors e he
    exact .prod (List.ne_nil_of_mem hmem) hus
  lawful := .sumOf fun e he => by
    have hfactors : ∀ q ∈ es.map fun e => (e, D e), Lawful ρ q.1 ∧ Lawful ρ q.2 :=
      List.forall_mem_map.2 fun e he => ⟨hlawful e he, (h e he).lawful⟩
    obtain ⟨us, rfl, ⟨q, -, hmem⟩, hus⟩ := forall_mem_productTerms (by simp) hfactors e he
    exact .prod (List.ne_nil_of_mem hmem) hus
  hasDerivAt := by
    have hfactors : ∀ q ∈ es.map fun e => (e, D e), HasDerivAt (along ρ x q.1) (q.2.real ρ) (ρ x) :=
      List.forall_mem_map.2 fun e he => (h e he).hasDerivAt
    simpa [Function.comp_def] using hasDerivAt_productRule hfactors

/-- The quotient rule makes a derivative of derivatives, with a solid denominator that is not
`0`. -/
theorem quot (ha : Derived ρ x a a') (hb : Derived ρ x b b') (htame : Tame .raw a)
    (hsolid : Solid b) (hla : Lawful ρ a) (hlb : Lawful ρ b) (h0 : b.real ρ ≠ 0) :
    Derived ρ x (.quot a b) (quotientRule a a' b b') where
  tame := by
    refine .quot (.sum (by simp) ?_) (.pow 2 hsolid)
    have hminus : Tame .raw (.prod [.num (-1), .prod [a, b']]) :=
      .prod (by simp) (by simpa [Tame.num] using .prod (by simp) (by simp [htame, hb.tame]))
    simpa [negate] using ⟨.prod (by simp) (by simp [ha.tame, Tame.solid hsolid]), hminus⟩
  lawful := by
    have hleft : Lawful ρ (.prod [a', b]) := .prod (by simp) (by simp [ha.lawful, hlb])
    have hright : Lawful ρ (.prod [a, b']) := .prod (by simp) (by simp [hla, hb.lawful])
    have hminus : Lawful ρ (negate (.prod [a, b'])) :=
      .prod (by simp) (by simpa using ⟨.num (-1), hright⟩)
    exact .quot (.sum (by simpa using ⟨hleft, hminus⟩)) (.pow hlb (.num (by decide)))
      (by simpa using h0)
  hasDerivAt := hasDerivAt_quotientRule ha.hasDerivAt hb.hasDerivAt h0

/-- The power rule makes a derivative of one, from the exponent `2` on. -/
theorem pow (hb : Derived ρ x b b') (hsolid : Solid b) (hlaw : Lawful ρ b) (hn : 1 < n.toInt) :
    Derived ρ x (.pow b (.num n)) (powerRule b b' (.num n) c') where
  tame := by
    obtain ⟨m, -, heq⟩ := powerRule_num (n := n) (by omega) b b' c'
    rw [heq]
    exact .prod (by simp) (by simp [Tame.num, hb.tame, Tame.solid (Solid.pow _ hsolid)])
  lawful := by
    obtain ⟨m, hm, heq⟩ := powerRule_num (n := n) (by omega) b b' c'
    have hpow : Lawful ρ (.pow b (.num m)) := .pow hlaw (.num (by omega))
    rw [heq]
    exact .prod (by simp) (by simp [Lawful.num, hpow, hb.lawful])
  hasDerivAt := hasDerivAt_powerRule_of_integer hb.hasDerivAt (.inl rfl) (.inr hn.le)

end Derived

/-- The rules of calculus, at an inert polynomial. -/
theorem derived_derivative {d : ℕ∞} (hd : d ≠ ⊤) (hx : NamedConstant.isName x = false)
    (hinert : Inert e) (hentire : Entire x d e) (hg : Everywhere (Graded x) e) :
    Derived ρ x e (derivative x e) := by
  induction e using operands_induct with
  | node e ih =>
    -- where the variable does not occur, the derivative vanishes by its shape
    by_cases hmem : x ∈ e.names
    swap
    · exact .of_void (void_derivative hinert hmem) hmem
    have hops e' (he' : e' ∈ e.operands) : Derived ρ x e' (derivative x e') :=
      ih e' he' (hinert.operand he') (hentire.operand hd he') (hg.operand he')
    have hlaw e' (he' : e' ∈ e.operands) : Lawful ρ e' :=
      (hentire.operand hd he').lawful hd (hinert.operand he').root.wellFormed
    cases e with
    | var y =>
      obtain rfl : x = y := by simpa [names] using hmem
      rw [derivative, if_pos rfl]
      exact ⟨.num 1, .num 1, (IsDerivative.var_self hx).hasDerivAt⟩
    | num n => cases hmem
    | sum es =>
      rw [derivative_sum]
      exact .sum hinert.two_le_length hops
    | prod es =>
      rw [derivative_prod]
      exact .product (fun e he => Inert.tame (hinert.operand he)) hlaw hops
    | quot a b =>
      obtain ⟨hb, hb0⟩ := hinert.denominator
      exact (hops a (by simp [operands])).quot (hops b (by simp [operands])) hinert.numerator.1.tame
        (.inert hb hb0) (hlaw a (by simp [operands])) (hlaw b (by simp [operands]))
        ((hentire.denominator hd).2 ρ)
    | pow a b =>
      -- a literal exponent, or a constant power, in which the variable does not occur
      rcases hg.root with ⟨n, hn, rfl⟩ | ⟨hconst, hwhole⟩
      -- at rest the exponent is neither `1` nor negative, so it is at least `2`
      · have hn1 : n ≠ 1 := fun h1 =>
          (noIdentity_of_rule hinert.root.identities).2.1 (congrArg Expr.num h1)
        have ha0 : a ≠ 0 := hinert.base.2.resolve_right (not_vast_num n)
        have hlt : 1 < n.toInt := by
          have : n.toInt ≠ 1 := fun h1 => hn1 (Int64.toInt_inj.1 (h1.trans Int64.toInt_one.symm))
          omega
        exact (hops a (by simp [operands])).pow (.inert hinert.base.1 ha0)
          (hlaw a (by simp [operands])) hlt
      · rw [names, hwhole.names_eq_nil, List.append_nil] at hmem
        exact absurd hmem (notMem_names_of_degree hconst)
    | app f u => exact absurd rfl (hentire.functionFree.root f u)
    | eqn a b => exact hinert.not_eqn.elim

/-! ### Literal exponents -/

/-- With literal exponents, an entire tree has the derivative that the program computes. -/
theorem isDerivative_of_literal {d : ℕ∞} (hd : d ≠ ⊤) (hx : NamedConstant.isName x = false)
    (hentire : Entire x d e) (hlit : Everywhere LiteralExponent e) :
    IsDerivative ρ x e (derivative x e) := by
  induction e using operands_induct with
  | node e ih =>
    have hops e' (he' : e' ∈ e.operands) : IsDerivative ρ x e' (derivative x e') :=
      ih e' he' (hentire.operand hd he') (hlit.operand he')
    cases e with
    | var y =>
      rw [derivative]
      split_ifs with hy
      · exact hy ▸ .var_self (hy ▸ hx)
      · exact .var_ne hy
    | num n => exact .num n
    | sum es =>
      rw [derivative_sum]
      exact .sum hops
    | prod es =>
      rw [derivative_prod]
      have hfactors : ∀ q ∈ es.map fun e => (e, derivative x e), IsDerivative ρ x q.1 q.2 :=
        List.forall_mem_map.2 hops
      simpa [Function.comp_def] using IsDerivative.product hfactors
    | quot a b =>
      exact (hops a (by simp [operands])).quot (hops b (by simp [operands]))
        ((hentire.denominator hd).2 ρ)
    | pow a b =>
      obtain ⟨n, rfl⟩ := hlit.root
      have hn : 0 < n.toInt := Whole.num_iff.1 (hentire.exponent hd)
      exact (hops a (by simp [operands])).pow_of_integer (.inl rfl) (.inr hn)
    | app f u => exact absurd rfl (hentire.functionFree.root f u)
    | eqn a b => exact absurd (hentire.defined ρ) Defined.not_eqn

/-- Differentiating with literal exponents brings in no function: only a general power has a
logarithm. -/
theorem functionFree_derivative (x : String) (hfree : FunctionFree e)
    (hlit : Everywhere LiteralExponent e) : FunctionFree (derivative x e) := by
  have hpair {a b : Expr} (ha : FunctionFree a) (hb : FunctionFree b) :=
    everywhere_pair FunctionFree.vocabulary ha hb
  induction e using operands_induct with
  | node e ih =>
    have hops e' (he' : e' ∈ e.operands) : FunctionFree e' ∧ FunctionFree (derivative x e') :=
      ⟨hfree.operand he', ih e' he' (hfree.operand he') (hlit.operand he')⟩
    cases e with
    | var y =>
      rw [derivative]
      split_ifs
      · exact .num 1
      · exact .num 0
    | num n => exact .num 0
    | sum es =>
      rw [derivative_sum]
      exact FunctionFree.vocabulary.everywhere_sum.2
        (List.forall_mem_map.2 fun e he => (hops e he).2)
    | prod es =>
      rw [derivative_prod]
      exact everywhere_productRule FunctionFree.vocabulary (List.forall_mem_map.2 hops)
    | quot a b =>
      obtain ⟨ha, ha'⟩ := hops a (by simp [operands])
      obtain ⟨hb, hb'⟩ := hops b (by simp [operands])
      exact FunctionFree.vocabulary.everywhere_quot.2
        ⟨everywhere_subtract FunctionFree.vocabulary (hpair ha' hb).1 (hpair ha hb').1,
          everywhere_square FunctionFree.vocabulary hb⟩
    | pow a b =>
      obtain ⟨n, rfl⟩ := hlit.root
      obtain ⟨ha, ha'⟩ := hops a (by simp [operands])
      have hexp : FunctionFree ((n.sub? 1).elim (.sum [.num n, .num (-1)]) .num) := by
        cases n.sub? 1 with
        | none => exact (hpair (.num n) (.num (-1))).2
        | some m => exact .num m
      have hpow : FunctionFree (.pow a ((n.sub? 1).elim (.sum [.num n, .num (-1)]) .num)) :=
        FunctionFree.vocabulary.everywhere_pow.2 ⟨ha, hexp⟩
      refine FunctionFree.vocabulary.everywhere_prod.2 ?_
      simp only [List.forall_mem_cons]
      exact ⟨FunctionFree.num n, hpow, ha', List.forall_mem_nil _⟩
    | app f u => exact absurd rfl (hfree.root f u)
    | eqn a b =>
      rw [derivative]
      refine .node (FunctionFree.vocabulary.eqn _ _ hfree.root) ?_
      simpa [operands] using ⟨(hops a (by simp [operands])).2, (hops b (by simp [operands])).2⟩

end Calculus

namespace Simplification

open ComputerAlgebra.Expr Calculus

variable {cap : Option ℕ} {d : ℕ∞} {e s : Expr} {x : String}

/-- What comes to rest of a polynomial, whose exponents may be `0` as well, is one of at most its
degree and has its values. -/
theorem entire_of_simplify (hdef : ∀ ρ, e.Defined ρ) (hfree : FunctionFree e) (hwf : e.WellFormed)
    (hdeg : degree x Natural e ≤ d) (hs : simplify cap e = .ok s) :
    Entire x d s ∧ ∀ ρ, s.real ρ = e.real ρ := by
  have hfix := step_eq_of_converge hs
  obtain ⟨k, rfl⟩ := converge_eq_iterate (.inl hs)
  have hrefines := refines_iterate_round hwf k
  exact ⟨⟨fun ρ => (hrefines ρ (hdef ρ)).1,
    everywhere_iterate_round FunctionFree.vocabulary hfree k,
    (degree_iterate_round_le hfix).trans hdeg⟩, fun ρ => (hrefines ρ (hdef ρ)).2⟩

/-- Differentiation of a polynomial at rest, by a variable that names no constant, gives a
polynomial of at most its degree, with the derivatives as its values. Unless all exponents are
literals, the derivative has to be a tree that can be stored. -/
theorem Entire.differentiate (h : Entire x d e) (hd : d < 2 ^ 63) (hfix : round e = e)
    (hx : NamedConstant.isName x = false)
    (hstored : Everywhere LiteralExponent e ∨ (derivative x e).nodeCount < 2 ^ 63)
    (hs : simplify cap (derivative x e) = .ok s) :
    Entire x d s ∧ ∀ ρ, HasDerivAt (along ρ x e) (s.real ρ) (ρ x) := by
  have hwf : e.WellFormed := hfix ▸ wellFormed_round e
  have hwf' : (derivative x e).WellFormed := (Checked.derivative_builds x hwf).wellFormed
  rcases hstored with hlit | hnodes
  · have hderiv ρ : IsDerivative ρ x e (derivative x e) :=
      isDerivative_of_literal hd.ne_top hx h hlit
    have hgraded := h.graded_of_literal hd.ne_top hlit
    have hdeg := (degree_derivative_le x h.functionFree hgraded).trans <|
      (degree_natural_le e).trans h.degree_le
    obtain ⟨hentire, hreal⟩ := entire_of_simplify (fun ρ => (hderiv ρ).defined)
      (functionFree_derivative x h.functionFree hlit) hwf' hdeg hs
    exact ⟨hentire, fun ρ => hreal ρ ▸ (hderiv ρ).hasDerivAt⟩
  · obtain ⟨hinert, hgraded⟩ := h.inert hd hfix ((nodeCount_le_derivative x e).trans_lt hnodes)
    have hdeg := (degree_derivative_le x h.functionFree hgraded).trans <|
      (degree_natural_le e).trans h.degree_le
    have hfix' := step_eq_of_converge hs
    obtain ⟨k, rfl⟩ := converge_eq_iterate (.inl hs)
    have hderived ρ : Derived ρ x e (derivative x e) :=
      derived_derivative hd.ne_top hx hinert h hgraded
    have hrest ρ := lawful_iterate_round (hderived ρ).tame hwf' hnodes (hderived ρ).lawful hfix'
    exact ⟨⟨fun ρ => (hrest ρ).1, (hrest fun _ => 0).2.1,
      (degree_iterate_round_le hfix').trans hdeg⟩,
      fun ρ => (hrest ρ).2.2 ▸ (hderived ρ).hasDerivAt⟩

end Simplification

end ComputerAlgebra
