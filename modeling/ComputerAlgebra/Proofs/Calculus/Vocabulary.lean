import ComputerAlgebra.Calculus.Derivative
import ComputerAlgebra.Proofs.Simplification.Vocabulary

/-!
# What a derivative is written with

The rules of calculus bring in functions, but neither variables nor equations. So a derivative has
any property of all nodes that the expression has and that only variables and equations can fail to
have.
-/

namespace ComputerAlgebra

namespace Calculus

open ComputerAlgebra.Expr

variable {p : Expr → Prop} {a b u u' : Expr} {es : List Expr}

section

variable (hp : Vocabulary p) (happ : ∀ f a, p (.app f a))
include hp

/-- A vocabulary has the sums and products of two of its members. -/
theorem everywhere_pair (ha : Everywhere p a) (hb : Everywhere p b) :
    Everywhere p (.prod [a, b]) ∧ Everywhere p (.sum [a, b]) := by
  constructor
  · exact hp.everywhere_prod.mpr (by simp [ha, hb])
  · exact hp.everywhere_sum.mpr (by simp [ha, hb])

/-- A vocabulary has the opposites of its members. -/
theorem everywhere_negate (ha : Everywhere p a) : Everywhere p (negate a) :=
  (everywhere_pair hp (hp.everywhere_num (-1)) ha).1

theorem everywhere_subtract (ha : Everywhere p a) (hb : Everywhere p b) :
    Everywhere p (subtract a b) :=
  (everywhere_pair hp ha (everywhere_negate hp hb)).2

theorem everywhere_reciprocal (ha : Everywhere p a) : Everywhere p (reciprocal a) :=
  hp.everywhere_quot.mpr ⟨hp.everywhere_num 1, ha⟩

theorem everywhere_square (ha : Everywhere p a) : Everywhere p (.pow a 2) :=
  hp.everywhere_pow.mpr ⟨ha, hp.everywhere_num 2⟩

/-- A vocabulary has the products of two of its members, with or without a factor `1`. -/
theorem everywhere_mulUnlessOne (ha : Everywhere p a) (hb : Everywhere p b) :
    Everywhere p (mulUnlessOne a b) := by
  rw [mulUnlessOne]
  split_ifs
  · exact hb
  · exact ha
  · exact (everywhere_pair hp ha hb).1

/-- The product rule stays in the vocabulary of the factors and their derivatives. -/
theorem everywhere_productRule {factors : List (Expr × Expr)}
    (h : ∀ q ∈ factors, Everywhere p q.1 ∧ Everywhere p q.2) :
    Everywhere p (productRule factors) := by
  refine hp.everywhere_sumOf fun e he => ?_
  obtain ⟨es, rfl, -, hes⟩ := forall_mem_productTerms (by simp) h e he
  exact hp.everywhere_prod.mpr hes

include happ

omit hp in
theorem everywhere_app (f : Func) (hu : Everywhere p u) : Everywhere p (.app f u) :=
  .node (happ f u) (List.forall_mem_singleton.mpr hu)

/-- The derivative of a function applies functions to the argument, but uses no other name and no
equation. -/
theorem everywhere_outerDerivative (f : Func) (hu : Everywhere p u) :
    Everywhere p (outerDerivative f u) := by
  have hfunc (g : Func) : Everywhere p (.app g u) := everywhere_app happ g hu
  have hsquare : Everywhere p (.pow u 2) := everywhere_square hp hu
  have hroot : Everywhere p (.app .sqrt (oneMinusSquare u)) :=
    everywhere_app happ .sqrt (everywhere_subtract hp (hp.everywhere_num 1) hsquare)
  cases f with
  | sin => exact hfunc .cos
  | cos => exact everywhere_negate hp (hfunc .sin)
  | tan => exact everywhere_reciprocal hp (everywhere_square hp (hfunc .cos))
  | asin => exact everywhere_reciprocal hp hroot
  | acos => exact everywhere_negate hp (everywhere_reciprocal hp hroot)
  | atan =>
    exact everywhere_reciprocal hp (everywhere_pair hp (hp.everywhere_num 1) hsquare).2
  | ln => exact everywhere_reciprocal hp hu
  | abs => exact hp.everywhere_quot.mpr ⟨hfunc .abs, hu⟩
  | sqrt =>
    exact everywhere_reciprocal hp (everywhere_pair hp (hp.everywhere_num 2) (hfunc .sqrt)).1

/-- The power rule stays in the vocabulary of base, exponent and their derivatives. -/
theorem everywhere_powerRule {b b' c c' : Expr} (hb : Everywhere p b) (hb' : Everywhere p b')
    (hc : Everywhere p c) (hc' : Everywhere p c') : Everywhere p (powerRule b b' c c') := by
  have hreduced : Everywhere p (.sum [c, .num (-1)]) :=
    (everywhere_pair hp hc (hp.everywhere_num (-1))).2
  rw [powerRule]
  split
  · next n d _ =>
    split_ifs
    · have hexponent : Everywhere p ((n.sub? 1).elim (.sum [c, .num (-1)]) .num) := by
        cases n.sub? 1 with
        | none => exact hreduced
        | some m => exact hp.everywhere_num m
      have hpow := hp.everywhere_pow.mpr ⟨hb, hexponent⟩
      exact hp.everywhere_prod.mpr (by simp [hp.everywhere_num, hpow, hb'])
    · have hpow := hp.everywhere_pow.mpr ⟨hb, hreduced⟩
      exact hp.everywhere_prod.mpr (by simp [hc, hpow, hb'])
  · have hln : Everywhere p (chainRule .ln b b') :=
      everywhere_mulUnlessOne hp (everywhere_outerDerivative hp happ .ln hb) hb'
    have hlog := everywhere_app happ .ln hb
    refine (everywhere_pair hp (hp.everywhere_pow.mpr ⟨hb, hc⟩) ?_).1
    exact everywhere_productRule hp (by simp [hc, hc', hlog, hln])

/-- A derivative stays in the vocabulary of the tree. -/
theorem everywhere_derivative (x : String) {e : Expr} (h : Everywhere p e) :
    Everywhere p (derivative x e) := by
  induction e using Expr.induct with
  | var y =>
    rw [derivative]
    split_ifs
    · exact hp.everywhere_num 1
    · exact hp.everywhere_num 0
  | num n => exact hp.everywhere_num 0
  | sum es ih =>
    rw [derivative_sum]
    exact hp.everywhere_sum.mpr (List.forall_mem_map.mpr fun e he => ih e he (h.operand he))
  | prod es ih =>
    rw [derivative_prod]
    refine everywhere_productRule hp (List.forall_mem_map.mpr fun e he => ?_)
    exact ⟨h.operand he, ih e he (h.operand he)⟩
  | quot a b iha ihb =>
    obtain ⟨ha, hb⟩ := hp.everywhere_quot.mp h
    rw [derivative, quotientRule]
    refine hp.everywhere_quot.mpr ⟨everywhere_subtract hp ?_ ?_, everywhere_square hp hb⟩
    · exact (everywhere_pair hp (iha ha) hb).1
    · exact (everywhere_pair hp ha (ihb hb)).1
  | pow a b iha ihb =>
    obtain ⟨ha, hb⟩ := hp.everywhere_pow.mp h
    exact everywhere_powerRule hp happ ha (iha ha) hb (ihb hb)
  | app f a iha =>
    have ha : Everywhere p a := h.operand List.mem_cons_self
    exact everywhere_mulUnlessOne hp (everywhere_outerDerivative hp happ f ha) (iha ha)
  | eqn a b iha ihb =>
    have ha : Everywhere p a := h.operand List.mem_cons_self
    have hb : Everywhere p b := h.operand (List.mem_cons_of_mem a List.mem_cons_self)
    rw [derivative, everywhere_iff]
    exact ⟨hp.eqn _ _ h.root, by simp [operands, iha ha, ihb hb]⟩

end

end Calculus

end ComputerAlgebra
