import ComputerAlgebra.Calculus.Derivative
import ComputerAlgebra.Expr.Substitution
import ComputerAlgebra.Printing.Render
import ComputerAlgebra.Proofs.Checked.Basic

/-!
# Operations with checked construction

Derivatives, substitution and the opposites of addends, with every sum and product built by the
checked constructors. On well-formed trees no check fails.
-/

namespace ComputerAlgebra

namespace Checked

open ComputerAlgebra.Expr

variable {a a' b b' c c' e e' u u' : Expr} {es : List Expr} {x : String}

/-! ### Substitution -/

/-- Replace every variable that the substitution maps. -/
def substitute (e : Expr) (σ : Substitution) : Option Expr :=
  bottomUp (fun
    | .var x => some ((σ.lookup x).getD (.var x))
    | .sum es => sum es
    | .prod es => prod es
    | node => some node) e

/-- Substitution of well-formed trees is built. -/
theorem substitute_builds {σ : Substitution} (hσ : ∀ p ∈ σ, p.2.WellFormed) (h : e.WellFormed) :
    Builds (substitute e σ) (e.substitute σ) := by
  refine .bottomUp (fun e he => ?_) h
  cases he with
  | var x =>
    refine .of_wellFormed ?_
    cases hx : σ.lookup x with
    | none => exact .var x
    | some e =>
      obtain ⟨before, after, rfl, -⟩ := List.lookup_eq_some_iff.mp hx
      exact hσ (x, e) (by simp)
  | sum hlen h => exact .sum hlen h
  | prod hlen h => exact .prod hlen h
  | num n => exact .of_wellFormed (.num n)
  | quot ha hb => exact .of_wellFormed (.quot ha hb)
  | pow ha hb => exact .of_wellFormed (.pow ha hb)
  | app f ha => exact .of_wellFormed (.app f ha)
  | eqn ha hb => exact .of_wellFormed (.eqn ha hb)

/-! ### Opposites -/

/-- The opposite of an addend that carries its minus sign in front, if it has one. -/
def opposite : Expr → Option (Option Expr)
  | .num value => some (Expr.num value).opposite?
  | .prod (.num lead :: factors) =>
    if lead = -1 then (prodOf factors).map some
    else if lead < 0 then
      match lead.neg? with
      | some n => (prod (.num n :: factors)).map some
      | none => some none
    else some none
  | _ => some none

/-- The trees that printing builds to take a sign off are well formed. -/
theorem opposite_builds (h : e.WellFormed) :
    opposite e = some e.opposite? ∧ ∀ e' ∈ e.opposite?, e'.WellFormed := by
  have builds {made : Option Expr} {e : Expr} (he : Builds made e) :
      made.map some = some (some e) ∧ ∀ e' ∈ some e, e'.WellFormed := by
    rw [he.eq_some]
    exact ⟨rfl, fun e' he' => Option.some_inj.mp he' ▸ he.wellFormed⟩
  match e with
  | .num value =>
    refine ⟨rfl, fun e' he' => ?_⟩
    rw [opposite?] at he'
    split_ifs at he'
    · obtain ⟨n, -, rfl⟩ := Option.map_eq_some_iff.mp he'
      exact .num n
    · cases he'
  | .prod (.num lead :: factors) =>
    obtain ⟨hlen, h⟩ := WellFormed.prod_iff.mp h
    have hfactors : ∀ e ∈ factors, e.WellFormed := fun e he => h e (List.mem_cons_of_mem _ he)
    rw [opposite, opposite?]
    split_ifs
    · exact builds (.prodOf hfactors)
    · cases lead.neg? with
      | none => exact ⟨rfl, by simp⟩
      | some n => exact builds (.prod hlen (List.forall_mem_cons.mpr ⟨.num n, hfactors⟩))
    · exact ⟨rfl, by simp⟩
  | .prod [] | .prod (.var _ :: _) | .prod (.sum _ :: _) | .prod (.prod _ :: _)
  | .prod (.quot _ _ :: _) | .prod (.pow _ _ :: _) | .prod (.app _ _ :: _)
  | .prod (.eqn _ _ :: _) | .var _ | .sum _ | .quot _ _ | .pow _ _ | .app _ _ | .eqn _ _ =>
    exact ⟨rfl, by simp [opposite?]⟩

/-! ### Derivatives -/

/-- The derivative of a function at an argument. -/
def outerDerivative : Func → Expr → Option Expr
  | .cos, u => negate (.app .sin u)
  | .asin, u => do return .reciprocal (.app .sqrt (← subtract 1 (.pow u 2)))
  | .acos, u => do negate (.reciprocal (.app .sqrt (← subtract 1 (.pow u 2))))
  | .atan, u => do return .reciprocal (← sum [1, .pow u 2])
  | .sqrt, u => do return .reciprocal (← prod [2, .app .sqrt u])
  | f, u => some (Calculus.outerDerivative f u)

/-- The product of two expressions, where a factor `1` is dropped. -/
def mulUnlessOne (a b : Expr) : Option Expr :=
  if a = 1 then some b else if b = 1 then some a else prod [a, b]

/-- The chain rule. -/
def chainRule (f : Func) (u u' : Expr) : Option Expr := do
  mulUnlessOne (← outerDerivative f u) u'

/-- One product for each factor, in which that factor is replaced by its derivative. -/
def productTerms (before : List Expr) : List (Expr × Expr) → Option (List Expr)
  | [] => some []
  | (a, a') :: rest => do
    return (← prod (before ++ a' :: rest.map Prod.fst)) :: (← productTerms (before ++ [a]) rest)

/-- The product rule. -/
def productRule (factors : List (Expr × Expr)) : Option Expr := do
  sumOf (← productTerms [] factors)

/-- The quotient rule. -/
def quotientRule (a a' b b' : Expr) : Option Expr := do
  return .quot (← subtract (← prod [a', b]) (← prod [a, b'])) (.pow b 2)

/-- The power rule. In the last case the product `c * ln b` is built as well, to be derived. -/
def powerRule (b b' c c' : Expr) : Option Expr :=
  match c.fraction? with
  | some ⟨n, d⟩ =>
    if d = 1 then do
      prod [.num n, .pow b (← (n.sub? 1).elim (sum [c, .num (-1)]) fun m => some (.num m)), b']
    else do prod [c, .pow b (← sum [c, .num (-1)]), b']
  | none => do
    let _ ← prod [c, .app .ln b]
    prod [.pow b c, ← productRule [(c, c'), (.app .ln b, ← chainRule .ln b b')]]

mutual

/-- The derivative by a variable. -/
def derivative (x : String) : Expr → Option Expr
  | .var y => some (if y = x then 1 else 0)
  | .num _ => some 0
  | .sum es => do sum (← derivatives x es)
  | .prod es => do productRule (es.zip (← derivatives x es))
  | .quot a b => do quotientRule a (← derivative x a) b (← derivative x b)
  | .pow b c => do powerRule b (← derivative x b) c (← derivative x c)
  | .app f u => do chainRule f u (← derivative x u)
  | .eqn a b => do return .eqn (← derivative x a) (← derivative x b)

/-- The derivatives of several expressions by a variable. -/
def derivatives (x : String) : List Expr → Option (List Expr)
  | [] => some []
  | e :: es => do return (← derivative x e) :: (← derivatives x es)

end

/-- The derivative of a function is built, function by function. -/
theorem outerDerivative_builds (f : Func) (h : u.WellFormed) :
    Builds (outerDerivative f u) (Calculus.outerDerivative f u) := by
  have htwo : (2 : Expr).WellFormed := .num 2
  have hsquare : (Expr.pow u 2).WellFormed := .pow h htwo
  have reciprocal {e : Expr} (he : e.WellFormed) : e.reciprocal.WellFormed := .quot .one he
  have hminus := Builds.subtract .one hsquare
  cases f with
  | sin => exact .of_wellFormed (.app .cos h)
  | cos => exact .negate (.app .sin h)
  | tan => exact .of_wellFormed (reciprocal (.pow (.app .cos h) htwo))
  | asin => exact hminus.bind (.of_wellFormed (reciprocal (.app .sqrt hminus.wellFormed)))
  | acos => exact hminus.bind (.negate (reciprocal (.app .sqrt hminus.wellFormed)))
  | atan =>
    have hplus := Builds.sum_pair .one hsquare
    exact hplus.bind (.of_wellFormed (reciprocal hplus.wellFormed))
  | ln => exact .of_wellFormed (reciprocal h)
  | abs => exact .of_wellFormed (.quot (.app .abs h) h)
  | sqrt =>
    have hdouble := Builds.prod_pair htwo (.app .sqrt h)
    exact hdouble.bind (.of_wellFormed (reciprocal hdouble.wellFormed))

/-- A product without a factor `1` is built. -/
theorem mulUnlessOne_builds (ha : a.WellFormed) (hb : b.WellFormed) :
    Builds (mulUnlessOne a b) (Calculus.mulUnlessOne a b) := by
  rw [mulUnlessOne, Calculus.mulUnlessOne]
  split_ifs
  · exact .of_wellFormed hb
  · exact .of_wellFormed ha
  · exact .prod_pair ha hb

theorem chainRule_builds (f : Func) (hu : u.WellFormed) (hu' : u'.WellFormed) :
    Builds (chainRule f u u') (Calculus.chainRule f u u') :=
  have houter := outerDerivative_builds f hu
  houter.bind (mulUnlessOne_builds houter.wellFormed hu')

/-- Each term has as many factors as the product. -/
theorem productTerms_eq_some (before : List Expr) {factors : List (Expr × Expr)}
    (hlen : 2 ≤ before.length + factors.length) (hbefore : ∀ e ∈ before, e.WellFormed)
    (h : ∀ p ∈ factors, p.1.WellFormed ∧ p.2.WellFormed) :
    productTerms before factors = some (Calculus.productTerms before factors) ∧
      ∀ e ∈ Calculus.productTerms before factors, e.WellFormed := by
  induction factors generalizing before with
  | nil => exact ⟨rfl, by simp [Calculus.productTerms]⟩
  | cons p rest ih =>
    obtain ⟨a, a'⟩ := p
    rw [List.forall_mem_cons] at h
    obtain ⟨⟨ha, ha'⟩, h⟩ := h
    have hterm : Builds (prod (before ++ a' :: rest.map Prod.fst))
        (.prod (before ++ a' :: rest.map Prod.fst)) := by
      refine .prod (by simpa using hlen) ?_
      rw [List.forall_mem_append, List.forall_mem_cons, List.forall_mem_map]
      exact ⟨hbefore, ha', fun p hp => (h p hp).1⟩
    obtain ⟨hrest, hwf⟩ := ih (before ++ [a])
      (by simpa [Nat.add_right_comm, Nat.add_assoc] using hlen)
      (by simpa [or_imp, forall_and, ha] using hbefore) h
    rw [productTerms, Calculus.productTerms, hterm.eq_some, hrest]
    exact ⟨rfl, List.forall_mem_cons.mpr ⟨hterm.wellFormed, hwf⟩⟩

/-- The product rule is built: it has as many addends as the product has factors. -/
theorem productRule_builds {factors : List (Expr × Expr)} (hlen : 2 ≤ factors.length)
    (h : ∀ p ∈ factors, p.1.WellFormed ∧ p.2.WellFormed) :
    Builds (productRule factors) (Calculus.productRule factors) := by
  obtain ⟨hterms, hwf⟩ := productTerms_eq_some [] (by simpa using hlen) (by simp) h
  rw [productRule, Calculus.productRule, hterms]
  exact .sumOf hwf

theorem quotientRule_builds (ha : a.WellFormed) (ha' : a'.WellFormed) (hb : b.WellFormed)
    (hb' : b'.WellFormed) : Builds (quotientRule a a' b b') (Calculus.quotientRule a a' b b') :=
  have hleft := Builds.prod_pair ha' hb
  have hright := Builds.prod_pair ha hb'
  have hdifference := Builds.subtract hleft.wellFormed hright.wellFormed
  hleft.bind <| hright.bind <| hdifference.bind <|
    .of_wellFormed (.quot hdifference.wellFormed (.pow hb (.num 2)))

/-- The power rule is built in all of its cases. -/
theorem powerRule_builds (hb : b.WellFormed) (hb' : b'.WellFormed) (hc : c.WellFormed)
    (hc' : c'.WellFormed) : Builds (powerRule b b' c c') (Calculus.powerRule b b' c c') := by
  have hreduced := Builds.sum_pair hc (.num (-1))
  have triple {r : Expr} (hr : r.WellFormed) {k : Expr} (hk : k.WellFormed) :
      Builds (prod [k, .pow b r, b']) (.prod [k, .pow b r, b']) :=
    .prod (by simp) (by simp [hk, hb, hr, hb'])
  unfold powerRule Calculus.powerRule
  cases c.fraction? with
  | none =>
    have hlog : (app .ln b).WellFormed := .app .ln hb
    have hchain := chainRule_builds .ln hb hb'
    have hproduct :
        Builds (productRule [(c, c'), (.app .ln b, Calculus.chainRule .ln b b')])
          (Calculus.productRule [(c, c'), (.app .ln b, Calculus.chainRule .ln b b')]) :=
      productRule_builds le_rfl (by simp [hc, hc', hb, hchain.wellFormed])
    exact (Builds.prod_pair hc hlog).bind <| hchain.bind <| hproduct.bind <|
      .prod_pair (.pow hb hc) hproduct.wellFormed
  | some q =>
    obtain ⟨n, d⟩ := q
    dsimp only
    split_ifs
    · cases n.sub? 1 with
      | none => exact hreduced.bind (triple hreduced.wellFormed (.num n))
      | some m => exact triple (.num m) (.num n)
    · exact hreduced.bind (triple hreduced.wellFormed hc)

/-- If each of several trees is differentiated, all of them are. -/
theorem derivatives_eq_some
    (h : ∀ e ∈ es, derivative x e = some (Calculus.derivative x e)) :
    derivatives x es = some (es.map (Calculus.derivative x)) := by
  induction es with
  | nil => rfl
  | cons e es ih =>
    rw [List.forall_mem_cons] at h
    rw [derivatives, h.1, ih h.2]
    rfl

/-- The derivative of a well-formed tree is built. -/
theorem derivative_builds (x : String) (h : e.WellFormed) :
    Builds (derivative x e) (Calculus.derivative x e) := by
  induction h with
  | var y =>
    refine .of_wellFormed ?_
    split_ifs
    exacts [.one, .zero]
  | num n => exact .of_wellFormed .zero
  | sum hlen h ih =>
    rw [derivative, Calculus.derivative, Calculus.derivatives_eq_map,
      derivatives_eq_some fun e he => (ih e he).eq_some]
    exact .sum (by simpa using hlen) (List.forall_mem_map.mpr fun e he => (ih e he).wellFormed)
  | prod hlen h ih =>
    rw [derivative, Calculus.derivative, Calculus.derivatives_eq_map,
      derivatives_eq_some fun e he => (ih e he).eq_some]
    refine productRule_builds (by simpa using hlen) ?_
    rw [← List.map_prod_left_eq_zip]
    exact List.forall_mem_map.mpr fun e he => ⟨h e he, (ih e he).wellFormed⟩
  | quot ha hb iha ihb =>
    rw [derivative, Calculus.derivative]
    exact iha.bind (ihb.bind (quotientRule_builds ha iha.wellFormed hb ihb.wellFormed))
  | pow hb hc ihb ihc =>
    rw [derivative, Calculus.derivative]
    exact ihb.bind (ihc.bind (powerRule_builds hb ihb.wellFormed hc ihc.wellFormed))
  | app f hu ihu =>
    rw [derivative, Calculus.derivative]
    exact ihu.bind (chainRule_builds f hu ihu.wellFormed)
  | eqn ha hb iha ihb =>
    rw [derivative, Calculus.derivative]
    exact iha.bind (ihb.bind (.of_wellFormed (.eqn iha.wellFormed ihb.wellFormed)))

end Checked

end ComputerAlgebra
