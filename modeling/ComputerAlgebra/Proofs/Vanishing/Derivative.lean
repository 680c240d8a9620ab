import ComputerAlgebra.Calculus.Derivative
import ComputerAlgebra.Expr.Visit
import ComputerAlgebra.Proofs.Vanishing.Passes

/-!
# Derivatives by a variable that does not occur

By the rules of calculus, the derivative of an inert tree by a variable that is not in it is a tree
that vanishes, and rounds can be applied to it (`void_derivative`). The derivative of a function at
a number or a variable may have no value, but it is a factor of a product with a factor `0`.
-/

namespace ComputerAlgebra

namespace Simplification

open ComputerAlgebra.Expr Calculus

variable {a b e p u u' : Expr} {es : List Expr} {f : Func} {x : String}

/-! ### Inert trees in derivatives of functions -/

/-- Special points are numbers and variables. -/
theorem Identities.valueAt?_eq_none (hnum : ∀ n, u ≠ .num n) (hvar : ∀ y, u ≠ .var y) :
    valueAt? f u = none := by
  cases u with
  | num n => exact absurd rfl (hnum n)
  | var y => exact absurd rfl (hvar y)
  | _ => cases f <;> rfl

/-- The square of an inert tree is inert, unless that is a number, whose square would be
evaluated. -/
theorem Inert.square (hu : Inert u) (hnum : ∀ n, u ≠ .num n) : Inert (.pow u 2) := by
  have hrule : Identities.rule (.pow u 2) = .pow u 2 := by
    cases u with
    | num n => exact absurd rfl (hnum n)
    | _ => rfl
  refine .node
    ⟨.pow hu.root.wellFormed (.num 2), .inl (hnum 0), rfl, rfl, hrule, rfl, rfl, trivial, rfl⟩ ?_
  simpa [operands] using ⟨hu, inert_num 2⟩

theorem sort_pair (h : le a b = true) : Sorted.sort Expr.le [b, a] = [a, b] := by
  rw [sort_eq_of_perm (.swap a b [])]
  exact Expr.sum.inj (sortingRule_of_ascending (e := .sum [a, b]) (by simpa [Ascending] using h))

theorem Inert.negate_square (hu : Inert u) (hnum : ∀ n, u ≠ .num n) :
    Inert (.negate (.pow u 2)) := by
  have hpow := hu.square hnum
  have hne : (.num (-1) : Expr) ≠ u := (hnum (-1)).symm
  have hkeys : (([.num (-1), .pow u 2].map Collect.baseAndExponent).map Prod.fst).Nodup := by
    simpa [Collect.baseAndExponent] using hne
  have hcollect : Collect.rule (.negate (.pow u 2)) = .negate (.pow u 2) := by
    rw [negate, Collect.rule, Collect.group_eq_map hkeys]
    rfl
  have hidentities : Identities.rule (.negate (.pow u 2)) = .negate (.pow u 2) := by
    have hzero : (0 : Expr) ∉ [.num (-1), .pow u 2] := by
      have hpow : (0 : Expr) ≠ .pow u 2 := fun h => by cases h
      simp [hpow, show (0 : Expr) ≠ .num (-1) by decide]
    rw [negate, Identities.rule, if_neg hzero]
  have hfold : Fold.sorted (.negate (.pow u 2)) = .negate (.pow u 2) :=
    congrArg Expr.prod (sort_pair (a := .num (-1)) (b := .pow u 2) rfl)
  refine .node ⟨.prod (by simp) (by simp [hpow.root.wellFormed]), trivial, rfl, rfl, hidentities,
    rfl, hcollect, hkeys, hfold⟩ ?_
  simpa [operands, negate] using ⟨inert_num (-1), hpow⟩

/-- One more than an inert tree is inert, if it is no sum and neither a multiple of `1` nor a
fraction. -/
theorem Inert.one_add (hp : Inert p) (haddends : Flatten.addends p = [p])
    (hterm : (Collect.termAndCoefficient p).1 ≠ 1)
    (hregroup : Collect.regroup (fun t c => .prod [c, t])
      ((Collect.termAndCoefficient p).1, [(Collect.termAndCoefficient p).2]) = p)
    (hfraction : p.fraction? = none) (hle : le 1 p = true) : Inert (.sum [1, p]) := by
  have hkeys : (([1, p].map Collect.termAndCoefficient).map Prod.fst).Nodup := by
    simpa [Collect.termAndCoefficient] using hterm.symm
  have hcollect : Collect.rule (.sum [1, p]) = .sum [1, p] := by
    rw [Collect.rule, Collect.group_eq_map hkeys]
    simp only [List.map_cons, List.map_nil, hregroup]
    rfl
  have hfold : Fold.sorted (.sum [1, p]) = .sum [1, p] := by
    have hfractions : [1, p].filterMap fraction? = [⟨1, 1⟩] := by
      rw [List.filterMap_cons_some (show fraction? 1 = some ⟨1, 1⟩ from rfl),
        List.filterMap_cons_none hfraction, List.filterMap_nil]
    have hothers : [1, p].filter (fun e => e.fraction?.isNone) = [p] := by
      rw [List.filter_cons_of_neg (by decide), List.filter_cons_of_pos (by rw [hfraction]; rfl),
        List.filter_nil]
    have hsum : Fraction.sum? [⟨1, 1⟩] = some ⟨1, 1⟩ := by decide
    have haddends : Fold.addends [1, p] = .sum [p, 1] := by
      rw [Fold.addends_eq (q := ⟨1, 1⟩) (by simp [hfractions]) (by simp [hfractions])
        (by rw [hfractions, hsum]), hothers]
      rfl
    show Sorting.rule (Fold.addends [1, p]) = _
    rw [haddends]
    exact congrArg Expr.sum (sort_pair hle)
  have hsplice : Flatten.splice (.sum [1, p]) = .sum [1, p] := by
    rw [Flatten.splice, List.flatMap_cons, List.flatMap_cons, haddends]
    rfl
  refine .node ⟨by simp [hp.root.wellFormed, WellFormed.one], trivial, rfl, hsplice, rfl, rfl,
    hcollect, hkeys, hfold⟩ ?_
  simpa [operands] using ⟨inert_num 1, hp⟩

/-- One more than such a square is inert: the denominator in the derivative of the arc tangent. -/
theorem Inert.one_add_square (hu : Inert u) (hnum : ∀ n, u ≠ .num n) :
    Inert (.sum [1, .pow u 2]) :=
  (hu.square hnum).one_add rfl nofun rfl rfl rfl

/-- One minus such a square is inert: what is under the root in the derivative of the arc sine. -/
theorem Inert.oneMinusSquare (hu : Inert u) (hnum : ∀ n, u ≠ .num n) :
    Inert (oneMinusSquare u) :=
  (hu.negate_square hnum).one_add rfl nofun rfl rfl rfl

/-- Away from numbers and variables, derivatives of functions are solid. -/
theorem solid_outerDerivative (f : Func) (hu : Inert u) (hnum : ∀ n, u ≠ .num n)
    (hvar : ∀ y, u ≠ .var y) : Solid (outerDerivative f u) := by
  have hsolid : Solid u := .inert hu (hnum 0)
  have hminus : Solid (.num (-1)) := .num (by decide)
  have happ (g : Func) : Solid (.app g u) := .app hu (by
    rw [Identities.valueAt?_eq_none hnum hvar]
    nofun)
  have hroot : Solid (.app .sqrt (oneMinusSquare u)) := .app (hu.oneMinusSquare hnum) nofun
  have hnegate {e : Expr} (h : Solid e) : Solid (negate e) := .prod (by simp) (by simp [hminus, h])
  have hreciprocal {e : Expr} (h : Solid e) : Solid (reciprocal e) := .quot .one h
  cases f with
  | sin => exact happ .cos
  | cos => exact hnegate (happ .sin)
  | tan => exact hreciprocal (.pow 2 (happ .cos))
  | asin => exact hreciprocal hroot
  | acos => exact hnegate (hreciprocal hroot)
  | atan => exact hreciprocal (.inert (hu.one_add_square hnum) nofun)
  | ln => exact hreciprocal hsolid
  | abs => exact .quot (happ .abs) hsolid
  | sqrt =>
    have htwo : Solid 2 := .num (by decide)
    exact hreciprocal (.prod (by simp) (by simp [happ, htwo]))

/-! ### Void trees -/

/-- A tree, not simplified yet, of which rounds leave `0`. -/
structure Void (e : Expr) : Prop where
  tame : Tame .raw e
  vanishing : Vanishing e

namespace Void

theorem zero : Void 0 := ⟨.zero, .zero⟩

theorem ne_one (h : Void e) : e ≠ 1 := by
  rintro rfl
  exact Solid.one.not_vanishing h.vanishing

theorem sum (hlen : 2 ≤ es.length) (h : ∀ e ∈ es, Void e) : Void (.sum es) :=
  ⟨.sum hlen fun e he => (h e he).tame,
    .sum (List.ne_nil_of_length_pos (by omega)) fun e he => (h e he).vanishing⟩

theorem sumOf (h : ∀ e ∈ es, Void e) : Void (.sumOf es) :=
  ⟨.sumOf fun e he => (h e he).tame, .sumOf fun e he => (h e he).vanishing⟩

/-- A product with a vanishing factor is void, if all factors are tame. -/
theorem prod (h : ∀ e ∈ es, Tame .raw e) (he : e ∈ es) (hv : Vanishing e) : Void (.prod es) :=
  ⟨.prod (List.ne_nil_of_mem he) h, .prod he hv⟩

/-- A product with a factor `0` is void, whatever its other factors are. -/
theorem dead (h : 0 ∈ es) : Void (.prod es) := ⟨.dead h, .prod h .zero⟩

theorem negate (h : Void e) : Void (.negate e) :=
  prod (by simp [Tame.num, h.tame]) (by simp) h.vanishing

theorem subtract (ha : Void a) (hb : Void b) : Void (.subtract a b) :=
  sum (by simp) (by simp [ha, hb.negate])

end Void

/-! ### Rules of calculus -/

/-- The product rule makes a void tree, if the derivatives of the factors are void. -/
theorem void_productRule {factors : List (Expr × Expr)}
    (h : ∀ q ∈ factors, Tame .raw q.1 ∧ Void q.2) : Void (productRule factors) :=
  .sumOf fun e he => by
    obtain ⟨es, rfl, ⟨q, hq, hmem⟩, hes⟩ := forall_mem_productTerms (p := Tame .raw) (by simp)
      (fun q hq => ⟨(h q hq).1, (h q hq).2.tame⟩) e he
    exact .prod hes hmem (h q hq).2.vanishing

/-- The quotient rule makes a void tree over a solid denominator. -/
theorem void_quotientRule {a' b' : Expr} (ha : Tame .raw a) (ha' : Void a') (hb : Solid b)
    (hb' : Void b') : Void (quotientRule a a' b b') := by
  have hnum : Void (.subtract (.prod [a', b]) (.prod [a, b'])) :=
    .subtract (.prod (by simp [ha'.tame, Tame.solid hb]) (by simp) ha'.vanishing)
      (.prod (by simp [ha, hb'.tame]) (by simp) hb'.vanishing)
  exact ⟨.quot hnum.tame (.pow 2 hb), .quot _ hnum.vanishing⟩

theorem outerDerivative_ne_one (f : Func) (u : Expr) : outerDerivative f u ≠ 1 := by
  cases f <;> nofun

/-- The chain rule has the derivative of the argument as a factor. -/
theorem chainRule_of_void (h : Void u') : chainRule f u u' = .prod [outerDerivative f u, u'] := by
  rw [chainRule, mulUnlessOne, if_neg (outerDerivative_ne_one f u), if_neg h.ne_one]

/-- The derivative of a logarithm is a factor of a product that will be `0`, be it `1 / 0`. -/
theorem void_chainRule_ln {b b' : Expr} (hb : Inert b) (hb' : Void b') (hzero : b = 0 → b' = 0) :
    Void (chainRule .ln b b') := by
  rw [chainRule_of_void hb']
  by_cases hb0 : b = 0
  · exact .dead (by simp [hzero hb0])
  · refine .prod (e := b') ?_ (by simp) hb'.vanishing
    simp [outerDerivative, reciprocal, hb'.tame, Tame.solid (Solid.quot .one (.inert hb hb0))]

/-- The power rule makes a void tree in all of its cases. The logarithm of the base may have no
value, but it is a factor next to a vanishing one. -/
theorem void_powerRule {b b' c c' : Expr} (hb : Inert b) (hground : b ≠ 0 ∨ Vast c) (hb1 : b ≠ 1)
    (hb' : Void b') (hzero : b = 0 → b' = 0) (hc : Inert c) (hc' : Void c') :
    Void (powerRule b b' c c') := by
  have hpow (c : Expr) (h : b ≠ 0 ∨ Vast c) : Tame .raw (.pow b c) := by
    by_cases hb0 : b = 0
    · exact hb0 ▸ .solid (.vast (h.resolve_left (absurd hb0)))
    · exact .solid (.pow c (.inert hb hb0))
  rw [powerRule]
  split
  · next n d hq =>
    -- a vast exponent is no number, so here the base is not `0`
    have hb0 : b ≠ 0 := hground.resolve_right fun hvast => by simp [hvast.fraction?_eq_none] at hq
    split_ifs
    · exact .prod (e := b')
        (by simp [Tame.num, hpow _ (.inl hb0), hb'.tame]) (by simp) hb'.vanishing
    · exact .prod (e := b') (by simp [hc.tame, hpow _ (.inl hb0), hb'.tame]) (by simp) hb'.vanishing
  -- the logarithm of a base other than `1` counts as different from `0`
  · have hln : Tame .raw (.app .ln b) := by
      refine .solid (.app hb ?_)
      cases b with
      | num n => simp [Identities.valueAt?, show n ≠ 1 from fun h => hb1 (congrArg Expr.num h)]
      | var y =>
        rw [Identities.valueAt?]
        split_ifs <;> decide
      | _ => nofun
    have hproduct : Void (productRule [(c, c'), (.app .ln b, chainRule .ln b b')]) :=
      void_productRule (by simp [hc.tame, hc', hln, void_chainRule_ln hb hb' hzero])
    exact .prod (e := productRule _) (by simp [hpow c hground, hproduct.tame]) (by simp)
      hproduct.vanishing

/-- The derivative of an inert tree by a variable that does not occur in it will be `0`. -/
theorem void_derivative (h : Inert e) (hx : x ∉ e.names) : Void (derivative x e) := by
  induction e using Expr.induct with
  | var y =>
    rw [derivative, if_neg fun hy => hx (by simp [names, hy])]
    exact .zero
  | num n => exact .zero
  | sum es ih =>
    rw [names, namesAll_eq_flatMap, List.mem_flatMap] at hx
    rw [derivative_sum]
    exact .sum (by simpa using h.two_le_length) (List.forall_mem_map.2 fun e he =>
      ih e he (h.operand he) fun hmem => hx ⟨e, he, hmem⟩)
  | prod es ih =>
    rw [names, namesAll_eq_flatMap, List.mem_flatMap] at hx
    rw [derivative_prod]
    exact void_productRule (List.forall_mem_map.2 fun e he =>
      ⟨Inert.tame (h.operand he), ih e he (h.operand he) fun hmem => hx ⟨e, he, hmem⟩⟩)
  | quot a b iha ihb =>
    rw [names, List.mem_append, not_or] at hx
    obtain ⟨hb, hb0⟩ := h.denominator
    exact void_quotientRule h.numerator.1.tame (iha h.numerator.1 hx.1) (.inert hb hb0)
      (ihb hb hx.2)
  | pow a b iha ihb =>
    rw [names, List.mem_append, not_or] at hx
    have hb : Inert b := h.operand (by simp [operands])
    exact void_powerRule h.base.1 h.base.2 (noIdentity_of_rule h.root.identities).2.2
      (iha h.base.1 hx.1) (by rintro rfl; rfl) hb (ihb hb hx.2)
  | app f u ihu =>
    have hu : Inert u := h.operand (by simp [operands])
    have hvoid := ihu hu hx
    rw [derivative, chainRule_of_void hvoid]
    -- a number or another variable has derivative `0`; other arguments have a solid outer one
    by_cases hleaf : (∃ n, u = .num n) ∨ ∃ y, u = .var y
    · have hzero : derivative x u = 0 := by
        rcases hleaf with ⟨n, rfl⟩ | ⟨y, rfl⟩
        · rfl
        · exact if_neg fun hy => hx (by simp [names, hy])
      exact .dead (by simp [hzero])
    · rw [not_or, not_exists, not_exists] at hleaf
      have hsolid := solid_outerDerivative f hu hleaf.1 hleaf.2
      exact .prod (by simp [Tame.solid hsolid, hvoid.tame]) (by simp) hvoid.vanishing
  | eqn a b => exact h.not_eqn.elim

end Simplification

end ComputerAlgebra
