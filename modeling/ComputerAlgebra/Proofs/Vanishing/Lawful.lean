import ComputerAlgebra.Proofs.Simplification.Vocabulary
import ComputerAlgebra.Proofs.Vanishing.Passes

/-!
# Lawful trees

The derivative of a constant power divides by its base, which may have the value `0`. The quotient
is a factor of a product that vanishes by its shape, so the value of the whole does not depend on
it. Such trees are `Lawful`: vanishing trees apart, they divide by nothing that has the value `0`,
and their exponents are positive integers. With `x / 0 = 0`, as in `Expr.real`, rounds keep the
value of lawful trees that are tame, and what they come to rest at is defined
(`lawful_iterate_round`).
-/

namespace ComputerAlgebra

namespace Expr

/-- The tree applies no functions. -/
def FunctionFree (e : Expr) : Prop := Everywhere (fun e => ∀ f u, e ≠ .app f u) e

namespace FunctionFree

theorem vocabulary : Vocabulary fun e => ∀ f u, e ≠ .app f u where
  num _ := nofun
  sum _ := nofun
  prod _ := nofun
  quot _ _ := nofun
  pow _ _ := nofun
  app _ h := absurd rfl (h _ _)
  eqn _ _ _ := nofun

theorem num (n : Int64) : FunctionFree (.num n) := vocabulary.everywhere_num n

theorem var (x : String) : FunctionFree (.var x) := .node (by simp) (by simp [operands])

end FunctionFree

/-- A whole number applies no function. -/
theorem Whole.functionFree {e : Expr} (h : Whole e) : e.FunctionFree := by
  induction h with
  | num _ => exact .num _
  | sum _ _ ih => exact FunctionFree.vocabulary.everywhere_sum.2 ih
  | prod _ _ ih => exact FunctionFree.vocabulary.everywhere_prod.2 ih
  | pow _ _ iha ihb => exact FunctionFree.vocabulary.everywhere_pow.2 ⟨iha, ihb⟩

end Expr

namespace Simplification

open ComputerAlgebra.Expr Magnitude

variable {ρ : String → ℝ} {σ τ : Stage} {a b c e e' e'' t u : Expr} {es : List Expr} {q : Fraction}

/-- What vanishes by its shape has the value `0` everywhere, if quotients by `0` are `0`. -/
theorem Vanishing.real_eq_zero (h : Vanishing e) (ρ : String → ℝ) : e.real ρ = 0 := by
  induction h with
  | zero => exact real_zero
  | sum _ _ ih => simp [List.map_congr_left ih]
  | prod he _ ih =>
    rw [real_prod]
    exact List.prod_eq_zero (List.mem_map.2 ⟨_, he, ih⟩)
  | quot b _ ih => simp [ih]
  | pow _ hb _ ih =>
    rw [real_pow, ih, hb.whole.real, Real.zero_rpow]
    exact Nat.cast_ne_zero.2 (Nat.one_le_iff_ne_zero.1 hb.one_le)

/-- Vanishing trees apart, nothing is divided by `0` and exponents are positive integers. -/
inductive Lawful (ρ : String → ℝ) : Expr → Prop where
  | vanishing {e : Expr} (h : Vanishing e) : Lawful ρ e
  | var (x : String) : Lawful ρ (.var x)
  | num (n : Int64) : Lawful ρ (.num n)
  | sum {es : List Expr} (h : ∀ e ∈ es, Lawful ρ e) : Lawful ρ (.sum es)
  | prod {es : List Expr} (hne : es ≠ []) (h : ∀ e ∈ es, Lawful ρ e) : Lawful ρ (.prod es)
  | quot {a b : Expr} (ha : Lawful ρ a) (hb : Lawful ρ b) (h0 : b.real ρ ≠ 0) : Lawful ρ (.quot a b)
  | pow {a b : Expr} (ha : Lawful ρ a) (hb : Whole b) : Lawful ρ (.pow a b)

namespace Lawful

theorem addends (h : Lawful ρ (.sum es)) : ∀ e ∈ es, Lawful ρ e := by
  cases h with
  | vanishing h => exact fun e he => .vanishing ((Vanishing.sum_iff.1 h).2 e he)
  | sum h => exact h

theorem factors_ne_nil (h : Lawful ρ (.prod es)) : es ≠ [] := by
  cases h with
  | vanishing h =>
    obtain ⟨e, he, -⟩ := Vanishing.prod_iff.1 h
    exact List.ne_nil_of_mem he
  | prod hne _ => exact hne

/-- The factors of a lawful product that does not vanish are lawful, and none vanishes. -/
theorem factors (h : Lawful ρ (.prod es)) (hv : ¬Vanishing (.prod es)) :
    ∀ e ∈ es, Lawful ρ e ∧ ¬Vanishing e := by
  cases h with
  | vanishing h => exact absurd h hv
  | prod _ h => exact fun e he => ⟨h e he, fun hve => hv (.prod he hve)⟩

/-- The parts of a lawful quotient that does not vanish are lawful, and its denominator is not
`0`. -/
theorem sides (h : Lawful ρ (.quot a b)) (hv : ¬Vanishing (.quot a b)) :
    (Lawful ρ a ∧ ¬Vanishing a) ∧ (Lawful ρ b ∧ ¬Vanishing b) ∧ b.real ρ ≠ 0 := by
  cases h with
  | vanishing h => exact absurd h hv
  | quot ha hb h0 =>
    exact ⟨⟨ha, fun hva => hv (.quot b hva)⟩, ⟨hb, fun hvb => h0 (hvb.real_eq_zero ρ)⟩, h0⟩

/-- The base of a lawful power that does not vanish is lawful, and its exponent is whole. -/
theorem base (h : Lawful ρ (.pow a b)) (hv : ¬Vanishing (.pow a b)) : Lawful ρ a ∧ Whole b := by
  cases h with
  | vanishing h => exact absurd h hv
  | pow ha hb => exact ⟨ha, hb⟩

/-- A function is lawful only if it vanishes. -/
theorem vanishing_of_app {f : Func} (h : Lawful ρ (.app f u)) : Vanishing (.app f u) := by
  cases h with
  | vanishing h => exact h

theorem vanishing_of_eqn (h : Lawful ρ (.eqn a b)) : Vanishing (.eqn a b) := by
  cases h with
  | vanishing h => exact h

theorem sumOf (h : ∀ e ∈ es, Lawful ρ e) : Lawful ρ (.sumOf es) := by
  match es with
  | [] => exact .num 0
  | [e] => exact h e List.mem_cons_self
  | e :: e' :: es => exact .sum h

theorem prodOf (h : ∀ e ∈ es, Lawful ρ e) : Lawful ρ (.prodOf es) := by
  match es with
  | [] => exact .num 0
  | [e] => exact h e List.mem_cons_self
  | e :: e' :: es => exact .prod (by simp) h

end Lawful

/-- The second tree is lawful and has the value of the first one. -/
structure Retains (ρ : String → ℝ) (e e' : Expr) : Prop where
  lawful : Lawful ρ e'
  real : e'.real ρ = e.real ρ

namespace Retains

theorem refl (h : Lawful ρ e) : Retains ρ e e := ⟨h, rfl⟩

theorem trans (h : Retains ρ e e') (h' : Retains ρ e' e'') : Retains ρ e e'' :=
  ⟨h'.lawful, h'.real.trans h.real⟩

/-- What vanishes retains what vanishes, since both have the value `0`. -/
theorem of_vanishing (h : Vanishing e) (h' : Vanishing e') : Retains ρ e e' :=
  ⟨.vanishing h', by rw [h.real_eq_zero, h'.real_eq_zero]⟩

end Retains

/-! ### Rules

Each rule is taken on a lawful node that does not vanish; what becomes of one that does is known
already. -/

theorem Flatten.retains_splice (h : Lawful ρ e) (hv : ¬Vanishing e) : Retains ρ e (splice e) := by
  cases e with
  | sum es =>
    refine ⟨.sum fun e' he' => ?_, by simp [splice, sum_flatMap_addends real_sum]⟩
    obtain ⟨e, he, he'⟩ := List.mem_flatMap.1 he'
    cases e with
    | sum gs => exact (h.addends _ he).addends e' he'
    | _ => exact List.mem_singleton.1 he' ▸ h.addends _ he
  | prod es =>
    have hfactors : ∀ e ∈ es, factors e ≠ [] ∧ ∀ e' ∈ factors e, Lawful ρ e' := fun e he => by
      obtain ⟨hl, hve⟩ := h.factors hv e he
      cases e with
      | prod gs => exact ⟨hl.factors_ne_nil, fun e' he' => (hl.factors hve e' he').1⟩
      | _ => simpa [factors] using hl
    refine ⟨.prod ?_ fun e' he' => ?_, by simp [splice, prod_flatMap_factors real_prod]⟩
    · have hlen := length_le_of_two_le fun e he => (hfactors e he).1
      have := List.length_pos_of_ne_nil h.factors_ne_nil
      exact List.ne_nil_of_length_pos (by omega)
    · obtain ⟨e, he, he'⟩ := List.mem_flatMap.1 he'
      exact (hfactors e he).2 e' he'
  | _ => exact .refl h

theorem Identities.retains_power (h : Lawful ρ (.pow a b)) (hv : ¬Vanishing (.pow a b)) :
    Retains ρ (.pow a b) (power a b) := by
  obtain ⟨ha, hb⟩ := h.base hv
  have hreal := hb.real ρ
  obtain ⟨htriv, heq⟩ | ⟨rfl, heq⟩ | ⟨n, m, rfl, rfl, heq⟩ | ⟨-, heq⟩ := power_cases a b
  · rw [heq]
    refine ⟨.num 1, ?_⟩
    rcases htriv with rfl | rfl <;> simp
  · rw [heq]
    exact ⟨ha, by simp⟩
  · have hm := Whole.num_iff.1 hb
    obtain ⟨-, v, hpow, heq⟩ | ⟨hneg, -⟩ := integerPower?_eq_some heq
    · rw [heq]
      refine ⟨.num v, ?_⟩
      rw [real_num, Int64.pow?_eq_some hpow, real_pow, real_num, hreal, magnitude_num, num_ofInt hm,
        Real.rpow_natCast, Int.cast_pow]
    · omega
  · rw [heq]
    exact .refl h

theorem Identities.retains_rule (h : Lawful ρ e) (hv : ¬Vanishing e) : Retains ρ e (rule e) := by
  cases e with
  | quot a b =>
    obtain ⟨⟨ha, -⟩, -, h0⟩ := h.sides hv
    rw [rule, quotient]
    split_ifs with h1 hzero heq
    · exact ⟨ha, by simp [h1]⟩
    · exact absurd (.quot b (hzero.1 ▸ .zero)) hv
    · exact ⟨.num 1, by rw [real_quot, heq.1, div_self h0, real_one]⟩
    · exact .refl h
  | pow a b => exact retains_power h hv
  | prod es =>
    rw [rule, if_neg fun h0 => hv (.prod h0 .zero)]
    exact .refl h
  | app f u => exact absurd h.vanishing_of_app hv
  | _ => exact .refl h

theorem Fractions.retains_quotient (h : Lawful ρ (.quot a b)) (hv : ¬Vanishing (.quot a b)) :
    Retains ρ (.quot a b) (quotient a b) := by
  obtain ⟨⟨ha, hva⟩, ⟨hb, hvb⟩, h0⟩ := h.sides hv
  unfold quotient
  split
  · next c d =>
    obtain ⟨⟨hc, -⟩, ⟨hd, -⟩, hd0⟩ := ha.sides hva
    exact ⟨.quot hc (.prod (by simp) (by simp [hd, hb])) (by simp [hd0, h0]), by simp [div_div]⟩
  · next c d _ =>
    obtain ⟨⟨hc, -⟩, ⟨hd, -⟩, -⟩ := hb.sides hvb
    have hc0 : c.real ρ ≠ 0 := fun hc0 => h0 (by simp [hc0])
    exact ⟨.quot (.prod (by simp) (by simp [ha, hd])) hc hc0, by simp [div_div_eq_mul_div]⟩
  · exact .refl h

/-- A product has the value of its numerators over its denominators, also where one of these is
`0`. -/
theorem Fractions.real_parts (ρ : String → ℝ) (es : List Expr) :
    (es.map (real ρ)).prod =
      ((es.map numerator).map (real ρ)).prod / ((es.filterMap denominator?).map (real ρ)).prod := by
  induction es with
  | nil => simp
  | cons e es ih =>
    rcases eq_quot_or e with ⟨a, b, rfl⟩ | ⟨heq, hnone⟩
    · have hb : denominator? (.quot a b) = some b := rfl
      simp only [List.map_cons, List.prod_cons, List.filterMap_cons_some hb, numerator, real_quot,
        ih, div_mul_div_comm]
    · simp only [List.map_cons, List.prod_cons, List.filterMap_cons_none hnone, heq, ih,
        mul_div_assoc]

theorem Fractions.retains_product (h : Lawful ρ (.prod es)) (hv : ¬Vanishing (.prod es)) :
    Retains ρ (.prod es) (product es) := by
  have hes := h.factors hv
  have hnums : ∀ e ∈ es, Lawful ρ (numerator e) := fun e he => by
    obtain ⟨hl, hve⟩ := hes e he
    cases e with
    | quot a b => exact (hl.sides hve).1.1
    | _ => exact hl
  have hdens : ∀ b ∈ es.filterMap denominator?, Lawful ρ b ∧ b.real ρ ≠ 0 := fun b hb => by
    obtain ⟨e, he, hb⟩ := List.mem_filterMap.1 hb
    obtain ⟨hl, hve⟩ := hes e he
    cases e with
    | quot a c =>
      cases hb
      exact ⟨(hl.sides hve).2.1.1, (hl.sides hve).2.2⟩
    | _ => cases hb
  rw [product]
  split
  · exact .refl h
  · next hne =>
    have hnil : es.map numerator ≠ [] := by simpa using h.factors_ne_nil
    refine
      ⟨.quot (.prodOf (List.forall_mem_map.2 hnums)) (.prodOf fun b hb => (hdens b hb).1) ?_, ?_⟩
    · rw [real_prodOf hne, Ne, List.prod_eq_zero_iff]
      rintro hmem
      obtain ⟨b, hb, h0⟩ := List.mem_map.1 hmem
      exact (hdens b hb).2 h0
    · rw [real_quot, real_prodOf hnil, real_prodOf hne, real_prod, real_parts ρ es]

theorem Fractions.retains_rule (h : Lawful ρ e) (hv : ¬Vanishing e) : Retains ρ e (rule e) := by
  cases e with
  | quot a b => exact retains_quotient h hv
  | prod es => exact retains_product h hv
  | _ => exact .refl h

/-- Exponents that are positive integers add up, whatever the base. -/
theorem Collect.retains_regroup {g : Expr × List Expr} (hne : g.2 ≠ []) (hkey : Lawful ρ g.1)
    (hexp : ∀ v ∈ g.2, Whole v) :
    Lawful ρ (regroup .pow g) ∧
      (regroup .pow g).real ρ = (g.2.map fun v => (Expr.pow g.1 v).real ρ).prod := by
  rcases regroup_eq .pow hne with ⟨heq, hone⟩ | heq
  · rw [heq, hone]
    exact ⟨hkey, by simp⟩
  · have hdom : ∀ v ∈ g.2, ExactNumbers.PowerDomain (g.1.real ρ) (v.real ρ) := fun v hv =>
      (hexp v hv).powerDomain ρ _
    obtain ⟨-, hpow⟩ := ExactNumbers.power_sum (List.forall_mem_map.2 hdom)
    rw [heq]
    refine ⟨.pow hkey (.sumOf hne hexp), ?_⟩
    rw [real_pow, real_sumOf]
    refine Eq.trans hpow ?_
    rw [List.map_map]
    exact congrArg _ (List.map_congr_left fun v _ => (real_pow g.1 v).symm)

/-- Collecting equal factors retains lawful products: all exponents are positive, so they can be
added whatever the base is. -/
theorem Collect.retains_prod (h : Lawful ρ (.prod es)) (hv : ¬Vanishing (.prod es)) :
    Retains ρ (.prod es) (rule (.prod es)) := by
  -- only a power has an exponent other than `1`, and a base that need not be the factor
  have hpairs : ∀ p ∈ es.map baseAndExponent, Lawful ρ p.1 ∧ Whole p.2 :=
    List.forall_mem_map.2 fun e he => by
      obtain ⟨hl, hve⟩ := h.factors hv e he
      cases e with
      | pow a b => exact hl.base hve
      | _ => exact ⟨hl, .one⟩
  have hgroups g (hg : g ∈ group (es.map baseAndExponent)) :=
    retains_regroup (group_ne_nil _ g hg) (forall_group_key _ (fun p hp => (hpairs p hp).1) g hg)
      (forall_group_value _ (fun p hp => (hpairs p hp).2) g hg)
  have hpair (e : Expr) :
      (Expr.pow (baseAndExponent e).1 (baseAndExponent e).2).real ρ = e.real ρ := by
    cases e with
    | pow a b => rfl
    | _ => simp [baseAndExponent]
  have hne : (group (es.map baseAndExponent)).map (regroup .pow) ≠ [] := by
    simpa using group_ne_nil_of_ne_nil (by simpa using h.factors_ne_nil)
  refine ⟨.prodOf (List.forall_mem_map.2 fun g hg => (hgroups g hg).1), ?_⟩
  -- the groups are taken apart, and each pair is one of the factors
  calc (rule (.prod es)).real ρ
      = ((group (es.map baseAndExponent)).map fun g =>
          (g.2.map fun v => (Expr.pow g.1 v).real ρ).prod).prod := by
        rw [rule, real_prodOf hne, List.map_map]
        exact congrArg _ (List.map_congr_left fun g hg => (hgroups g hg).2)
    _ = ((es.map baseAndExponent).map fun p => (Expr.pow p.1 p.2).real ρ).prod := by
        rw [← Groups.prod_map_pairs fun k v => (Expr.pow k v).real ρ]
        exact ((group_pairs_perm _).map _).prod_eq
    _ = (Expr.prod es).real ρ := by
        rw [List.map_map, real_prod]
        exact congrArg _ (List.map_congr_left fun e _ => hpair e)

/-- Terms that are not lawful are multiplied by vanishing coefficients only. -/
theorem Collect.retains_multiple {g : Expr × List Expr} (hne : g.2 ≠ [])
    (h : ∀ c ∈ g.2, Vanishing g.1 ∨ Vanishing c ∨ Lawful ρ g.1 ∧ Lawful ρ c) :
    Lawful ρ (regroup (fun t c => .prod [c, t]) g) ∧
      (regroup (fun t c => .prod [c, t]) g).real ρ =
        (g.2.map fun c => (Expr.prod [c, g.1]).real ρ).sum := by
  have hreal : (regroup (fun t c => .prod [c, t]) g).real ρ =
      (g.2.map fun c => (Expr.prod [c, g.1]).real ρ).sum := by
    rcases regroup_eq (fun t c => .prod [c, t]) hne with ⟨heq, hone⟩ | heq
    · simp [heq, hone]
    · simp [heq, List.sum_map_mul_right]
  refine ⟨?_, hreal⟩
  by_cases ht : Lawful ρ g.1
  · have hcs : ∀ c ∈ g.2, Vanishing g.1 ∨ Lawful ρ c := fun c hc => (h c hc).imp_right fun hc =>
      hc.elim .vanishing And.right
    rcases regroup_eq (fun t c => .prod [c, t]) hne with ⟨heq, -⟩ | heq
    · exact heq ▸ ht
    · rw [heq]
      by_cases hv : Vanishing g.1
      · exact .vanishing (.prod (by simp) hv)
      · exact .prod (by simp) (by simpa using ⟨.sumOf fun c hc => (hcs c hc).resolve_left hv, ht⟩)
  -- a term that is not lawful has vanishing coefficients only
  · have hcs : ∀ c ∈ g.2, Vanishing c := fun c hc =>
      ((h c hc).resolve_left fun hv => ht (.vanishing hv)).resolve_right fun hl => ht hl.1
    rcases regroup_eq (fun t c => .prod [c, t]) hne with ⟨-, hone⟩ | heq
    · exact absurd (hcs 1 (by simp [hone])) Solid.one.not_vanishing
    · exact heq ▸ .vanishing (.prod List.mem_cons_self (.sumOf hcs))

theorem Collect.retains_sum (h : Lawful ρ (.sum es)) : Retains ρ (.sum es) (rule (.sum es)) := by
  have hpairs : ∀ p ∈ es.map termAndCoefficient, Vanishing p.1 ∨ Vanishing p.2 ∨
      Lawful ρ p.1 ∧ Lawful ρ p.2 :=
    List.forall_mem_map.2 fun e he => by
      have hl := h.addends e he
      unfold termAndCoefficient
      split
      · next c t =>
        by_cases hv : Vanishing (.prod [c, t])
        · obtain ⟨e', he', hv'⟩ := Vanishing.prod_iff.1 hv
          rcases List.mem_pair.1 he' with rfl | rfl
          · exact .inr (.inl hv')
          · exact .inl hv'
        · have hfactors := hl.factors hv
          exact .inr (.inr ⟨(hfactors t (by simp)).1, (hfactors c (by simp)).1⟩)
      · exact .inr (.inr ⟨hl, .num 1⟩)
  have hgroups g (hg : g ∈ group (es.map termAndCoefficient)) :=
    retains_multiple (group_ne_nil _ g hg) (forall_group _
      (p := fun t c => Vanishing t ∨ Vanishing c ∨ Lawful ρ t ∧ Lawful ρ c) hpairs g hg)
  have hpair (e : Expr) :
      (Expr.prod [(termAndCoefficient e).2, (termAndCoefficient e).1]).real ρ = e.real ρ := by
    unfold termAndCoefficient
    split <;> simp
  refine ⟨.sumOf (List.forall_mem_map.2 fun g hg => (hgroups g hg).1), ?_⟩
  calc (rule (.sum es)).real ρ
      = ((group (es.map termAndCoefficient)).map fun g =>
          (g.2.map fun c => (Expr.prod [c, g.1]).real ρ).sum).sum := by
        rw [rule, real_sumOf, List.map_map]
        exact congrArg _ (List.map_congr_left fun g hg => (hgroups g hg).2)
    _ = ((es.map termAndCoefficient).map fun p => (Expr.prod [p.2, p.1]).real ρ).sum := by
        rw [← Groups.sum_map_pairs fun t c => (Expr.prod [c, t]).real ρ]
        exact ((group_pairs_perm _).map _).sum_eq
    _ = (Expr.sum es).real ρ := by
        rw [List.map_map, real_sum]
        exact congrArg _ (List.map_congr_left fun e _ => hpair e)

theorem Collect.retains_rule (h : Lawful ρ e) (hv : ¬Vanishing e) : Retains ρ e (rule e) := by
  cases e with
  | sum es => exact retains_sum h
  | prod es => exact retains_prod h hv
  | _ => exact .refl h

theorem real_ofFraction (ρ : String → ℝ) (q : Fraction) :
    (ofFraction q).real ρ = (q.toRat : ℝ) := by
  rw [← value_eq_real, value_ofFraction]

theorem lawful_ofFraction (hq : q.IsLowest) : Lawful ρ (ofFraction q) := by
  have hden := hq.den_pos.ne'
  rcases ofFraction_cases q with ⟨-, h⟩ | ⟨-, h⟩ <;> rw [h]
  · exact .num _
  · exact .quot (.num _) (.num _) (by rw [real_num]; exact_mod_cast hden)

theorem Fold.retains_quotient (h : Lawful ρ (.quot a b)) (hv : ¬Vanishing (.quot a b)) :
    Retains ρ (.quot a b) (quotient a b) := by
  have h0 := (h.sides hv).2.2
  unfold quotient
  split
  · next n d =>
    have hd : d ≠ 0 := by
      rintro rfl
      simp at h0
    obtain heq | ⟨q, hlow, hval, heq⟩ := quotient_cases (n := n) hd <;>
      rw [quotient] at heq <;> rw [heq]
    · exact .refl h
    · refine ⟨lawful_ofFraction hlow, ?_⟩
      rw [real_ofFraction, hval]
      simp
  · exact .refl h

theorem Fold.retains_product (h : Lawful ρ (.prod es)) (hv : ¬Vanishing (.prod es)) :
    Retains ρ (.prod es) (product es) := by
  have hothers : ∀ e ∈ es.filter fun e => e.num?.isNone, Lawful ρ e := fun e he =>
    (h.factors hv e (List.mem_of_mem_filter he)).1
  have hsplit := prod_split (fun e n (hn : e.num? = some n) =>
    (value_eq_real ρ e).symm.trans (value_of_num? hn)) es
  obtain heq | ⟨c, hc, hcases⟩ := product_cases es
  · rw [heq]
    exact .refl h
  have hprod : ((es.filterMap num?).map fun n => (n.toInt : ℝ)).prod = c.toInt := by
    rw [hc, Int.cast_list_prod, List.map_map]
    rfl
  rw [hprod] at hsplit
  obtain ⟨h0, heq⟩ | ⟨h1, hne, heq⟩ | ⟨-, heq⟩ := hcases <;> rw [heq]
  · exact ⟨.num 0, by rw [real_prod, ← hsplit, h0]; simp⟩
  · exact ⟨.prodOf hothers, by rw [real_prodOf hne, real_prod, ← hsplit, h1]; simp⟩
  · refine ⟨.prodOf (List.forall_mem_append.2 ⟨hothers, by simpa using Lawful.num c⟩), ?_⟩
    rw [real_prodOf (by simp), real_prod, ← hsplit, List.map_append, List.prod_append, mul_comm]
    simp

theorem Fold.retains_addends (h : Lawful ρ (.sum es)) : Retains ρ (.sum es) (addends es) := by
  have hothers : ∀ e ∈ es.filter fun e => e.fraction?.isNone, Lawful ρ e := fun e he =>
    h.addends e (List.mem_of_mem_filter he)
  have hsplit := sum_split (fun e q (hq : e.fraction? = some q) =>
    (value_eq_real ρ e).symm.trans (value_of_fraction? hq)) es
  by_cases hkeep : es.filterMap fraction? = [] ∨ (es.filterMap fraction?).any fun q => q.den = 0
  · rw [addends, if_pos hkeep]
    exact .refl h
  rw [not_or] at hkeep
  have hdens : ∀ q ∈ es.filterMap fraction?, q.den ≠ 0 := fun q hq h0 =>
    hkeep.2 (List.any_eq_true.2 ⟨q, hq, by simpa using h0⟩)
  cases hsum : Fraction.sum? (es.filterMap fraction?) with
  | none =>
    rw [addends, if_neg (not_or.2 hkeep), hsum]
    exact .refl h
  | some q =>
    obtain ⟨hlow, hval⟩ := Fraction.sum?_eq_some hdens hsum
    have hq : ((es.filterMap fraction?).map fun q => (q.toRat : ℝ)).sum = (q.toRat : ℝ) := by
      rw [hval, Rat.cast_list_sum, List.map_map]
      rfl
    rw [hq] at hsplit
    rw [addends_eq hkeep.1 hdens hsum]
    split_ifs with h0
    · refine ⟨.sumOf hothers, ?_⟩
      rw [real_sumOf, real_sum, ← hsplit, Fraction.toRat, h0]
      simp
    · refine
        ⟨.sumOf (List.forall_mem_append.2 ⟨hothers, by simpa using lawful_ofFraction hlow⟩), ?_⟩
      rw [real_sumOf, real_sum, ← hsplit, List.map_append, List.sum_append, add_comm]
      simp [real_ofFraction]

theorem Fold.retains_rule (h : Lawful ρ e) (hv : ¬Vanishing e) : Retains ρ e (rule e) := by
  cases e with
  | quot a b => exact retains_quotient h hv
  | prod es => exact retains_product h hv
  | sum es => exact retains_addends h
  | _ => exact .refl h

theorem Sorting.retains_rule (h : Lawful ρ e) : Retains ρ e (rule e) := by
  cases e with
  | sum es =>
    have hperm := Sorted.sort_perm Expr.le es
    exact ⟨.sum fun e he => h.addends e (hperm.mem_iff.1 he), by
      rw [rule, real_sum, real_sum, (hperm.map _).sum_eq]⟩
  | prod es =>
    have hperm := Sorted.sort_perm Expr.le es
    refine ⟨?_, by rw [rule, real_prod, real_prod, (hperm.map _).prod_eq]⟩
    cases h with
    | vanishing h =>
      obtain ⟨e, he, hv⟩ := Vanishing.prod_iff.1 h
      exact .vanishing (.prod (hperm.mem_iff.2 he) hv)
    | prod hne h =>
      exact .prod (fun hnil => hne (List.nil_perm.1 (hnil ▸ hperm))) fun e he =>
        h e (hperm.mem_iff.1 he)
  | _ => exact .refl h

theorem Fold.retains_sorted (h : Lawful ρ e) (hv : ¬Vanishing e) : Retains ρ e (sorted e) := by
  have hfold := retains_rule h hv
  exact hfold.trans (Sorting.retains_rule hfold.lawful)

/-! ### Passes -/

variable {P : Expr → Prop} {rule : Expr → Expr}

/-- A function that retains the operands of a lawful node, and keeps exponents, retains the node. -/
theorem Lawful.retains_mapOperands {g : Expr → Expr} (h : Lawful ρ e) (hv : ¬Vanishing e)
    (hops : ∀ e' ∈ parts e, Lawful ρ e' → Retains ρ e' (g e'))
    (hexp : ∀ b, Whole b → Whole (g b) ∧ (g b).magnitude.num = b.magnitude.num) :
    Retains ρ e (e.mapOperands g) := by
  have hmap {es : List Expr} (hes : ∀ e ∈ es, Retains ρ e (g e)) :
      (es.map g).map (real ρ) = es.map (real ρ) := by
    rw [List.map_map]
    exact List.map_congr_left fun e he => (hes e he).real
  cases e with
  | sum es =>
    have hes : ∀ e ∈ es, Retains ρ e (g e) := fun e he => hops e he (h.addends e he)
    exact ⟨.sum (List.forall_mem_map.2 fun e he => (hes e he).lawful), by
      rw [mapOperands, real_sum, real_sum, hmap hes]⟩
  | prod es =>
    have hes : ∀ e ∈ es, Retains ρ e (g e) := fun e he => hops e he (h.factors hv e he).1
    exact ⟨.prod (by simpa using h.factors_ne_nil)
      (List.forall_mem_map.2 fun e he => (hes e he).lawful), by
        rw [mapOperands, real_prod, real_prod, hmap hes]⟩
  | quot a b =>
    obtain ⟨⟨ha, -⟩, ⟨hb, -⟩, h0⟩ := h.sides hv
    have hka := hops a (by simp [parts]) ha
    have hkb := hops b (by simp [parts]) hb
    exact ⟨.quot hka.lawful hkb.lawful (by rwa [hkb.real]), by
      rw [mapOperands, real_quot, real_quot, hka.real, hkb.real]⟩
  | pow a b =>
    obtain ⟨ha, hb⟩ := h.base hv
    have hka := hops a (by simp [parts]) ha
    obtain ⟨hb', heq⟩ := hexp b hb
    exact ⟨.pow hka.lawful hb', by
      rw [mapOperands, real_pow, real_pow, hka.real, hb'.real, hb.real, heq]⟩
  | app f u => exact absurd h.vanishing_of_app hv
  | eqn a b => exact absurd h.vanishing_of_eqn hv
  | _ => exact .refl h

/-- After its operands the node itself is treated. -/
theorem Retains.root (h : Retains ρ e u) (hv : Vanishing u → Vanishing (rule u))
    (hrule : Lawful ρ u → ¬Vanishing u → Retains ρ u (rule u)) : Retains ρ e (rule u) := by
  by_cases hu : Vanishing u
  · exact h.trans (.of_vanishing hu (hv hu))
  · exact h.trans (hrule h.lawful hu)

/-- A pass under which tame trees fade retains the lawful ones, if its rule retains those that do
not vanish. -/
theorem Fading.retains (hr : Fading σ τ P rule)
    (hlaw : ∀ e, Lawful ρ e → ¬Vanishing e → Retains ρ e (rule e)) (h : Tame σ e) (hP : P e)
    (hcount : zeroCount e < 2 ^ 64) (hl : Lawful ρ e) : Retains ρ e (e.bottomUp rule) := by
  induction e using operands_induct with
  | node e ih =>
    by_cases hv : Vanishing e
    · exact .of_vanishing hv ((hr.bottomUp h hP hcount).vanishing hv)
    have hnode := hr.operands h hP hcount
    rw [bottomUp_eq]
    refine (hl.retains_mapOperands hv (fun e' he' hl' => ?_) hr.whole).root
      (hr.node e hP hnode.tame).vanishing (hlaw _)
    exact ih e' (parts_subset he') (h.of_mem_parts hv he') (hr.parts e hP e' he')
      ((h.zeroCount_part_le he').trans_lt hcount) hl'

/-- The same of a pass of the first round. -/
theorem Opening.retains (hr : Opening τ rule)
    (hlaw : ∀ e, Lawful ρ e → ¬Vanishing e → Retains ρ e (rule e)) (h : Tame .raw e)
    (hl : Lawful ρ e) : Retains ρ e (e.bottomUp rule) := by
  induction e using operands_induct with
  | node e ih =>
    by_cases hv : Vanishing e
    · exact .of_vanishing hv ((hr.bottomUp h).vanishing hv)
    have hlive : ¬∃ es, e = .prod es ∧ 0 ∈ es := by
      rintro ⟨es, rfl, h0⟩
      exact hv (.prod h0 .zero)
    have hnode := hr.operands h hlive
    rw [bottomUp_eq]
    refine (hl.retains_mapOperands hv (fun e' he' hl' => ?_) hr.whole).root
      (hr.node _ hnode.tame).vanishing (hlaw _)
    exact ih e' (parts_subset he') (h.of_mem_parts hv he') hl'

/-- What the passes from fractions on do to a lawful tree. -/
theorem retains_finish (h : Tame .live e) (hclean : Clean e) (hcount : zeroCount e < 2 ^ 64)
    (hl : Lawful ρ e) : Retains ρ e (finish (mergeFractions e)) := by
  have hmerge := fades_mergeFractions h hcount
  have hcollect := hmerge.trans <| fades_collect hmerge.tame hclean.mergeFractions <|
    hmerge.count.trans_lt hcount
  have hlmerge : Retains ρ e (mergeFractions e) :=
    Fractions.fading.retains (fun _ => Fractions.retains_rule) h trivial hcount hl
  have hlcollect : Retains ρ e (collect (mergeFractions e)) :=
    hlmerge.trans <| Collect.fading.retains (fun _ => Collect.retains_rule) hmerge.tame
      hclean.mergeFractions (hmerge.count.trans_lt hcount) hlmerge.lawful
  have hlfold := Fold.fading_sorted.retains (fun _ => Fold.retains_sorted) hcollect.tame trivial
    (hcollect.count.trans_lt hcount) hlcollect.lawful
  rw [← sort_fold_eq_bottomUp] at hlfold
  exact hlcollect.trans hlfold

theorem retains_flatten (h : Tame .live e) (hcount : zeroCount e < 2 ^ 64) (hl : Lawful ρ e) :
    Retains ρ e (flatten e) := by
  rw [flatten_eq_bottomUp]
  exact Flatten.fading.retains (fun _ => Flatten.retains_splice) h trivial hcount hl

/-- A round retains a lawful tree that is tame. -/
theorem retains_round (h : Tame .live e) (hwf : e.WellFormed) (hcount : zeroCount e < 2 ^ 64)
    (hl : Lawful ρ e) : Retains ρ e (round e) := by
  have hflat := fades_flatten h hcount
  have hid := hflat.trans (fades_applyIdentities hflat.tame (hflat.count.trans_lt hcount))
  have hlflat : Retains ρ e (flatten e) := retains_flatten h hcount hl
  have hlid : Retains ρ e (applyIdentities (flatten e)) :=
    hlflat.trans <| Identities.fading.retains (fun _ => Identities.retains_rule) hflat.tame trivial
      (hflat.count.trans_lt hcount) hlflat.lawful
  exact hlid.trans <| retains_finish hid.tame
    (clean_applyIdentities hid.tame (wellFormed_flatten hwf)) (hid.count.trans_lt hcount)
    hlid.lawful

/-- So does the first round. -/
theorem retains_round_of_raw (h : Tame .raw e) (hwf : e.WellFormed) (hnodes : e.nodeCount < 2 ^ 63)
    (hl : Lawful ρ e) : Retains ρ e (round e) := by
  have hflat := keeps_flatten_of_raw h
  have hid := keeps_applyIdentities_of_raw hflat.tame
  have hlflat : Retains ρ e (flatten e) := by
    rw [flatten_eq_bottomUp]
    exact Flatten.opening.retains (fun _ => Flatten.retains_splice) h hl
  have hlid : Retains ρ e (applyIdentities (flatten e)) :=
    hlflat.trans <| Identities.opening.retains (fun _ => Identities.retains_rule) hflat.tame
      hlflat.lawful
  exact hlid.trans <| retains_finish hid.tame
    (clean_applyIdentities hid.tame (wellFormed_flatten hwf))
    (zeroCount_applyIdentities_flatten h hnodes) hlid.lawful

/-! ### Fixed points -/

/-- Where identities and collecting have nothing to do, only the literal `0` vanishes, so that a
lawful tree is defined and applies no functions. -/
theorem Tame.defined (h : Tame .live e) (hl : Lawful ρ e)
    (hid : Everywhere (fun e => Identities.rule e = e) e) (hq : Steady e) :
    e.Defined ρ ∧ e.FunctionFree := by
  induction e using operands_induct with
  | node e ih =>
    -- at rest, a vanishing tree is the literal `0`
    by_cases hv : Vanishing e
    · rw [h.eq_zero hv hid hq]
      exact ⟨.zero, .num 0⟩
    have hops e' (he' : e' ∈ parts e) (hl' : Lawful ρ e') : e'.Defined ρ ∧ e'.FunctionFree :=
      ih e' (parts_subset he') (h.of_mem_parts hv he') hl' (hid.operand (parts_subset he'))
        (hq.operand (parts_subset he'))
    cases e with
    | sum es =>
      have hes e (he : e ∈ es) := hops e he (hl.addends e he)
      exact ⟨.sum fun e he => (hes e he).1,
        FunctionFree.vocabulary.everywhere_sum.2 fun e he => (hes e he).2⟩
    | prod es =>
      have hes e (he : e ∈ es) := hops e he (hl.factors hv e he).1
      exact ⟨.prod fun e he => (hes e he).1,
        FunctionFree.vocabulary.everywhere_prod.2 fun e he => (hes e he).2⟩
    | quot a b =>
      obtain ⟨⟨ha, -⟩, ⟨hb, -⟩, h0⟩ := hl.sides hv
      have hda := hops a (by simp [parts]) ha
      have hdb := hops b (by simp [parts]) hb
      exact ⟨.quot hda.1 hdb.1 h0, FunctionFree.vocabulary.everywhere_quot.2 ⟨hda.2, hdb.2⟩⟩
    | pow a b =>
      obtain ⟨ha, hb⟩ := hl.base hv
      have hda := hops a (by simp [parts]) ha
      exact ⟨.pow hda.1 (exact_defined_iff.1 (hb.value ρ).1) (hb.powerDomain ρ _),
        FunctionFree.vocabulary.everywhere_pow.2 ⟨hda.2, hb.functionFree⟩⟩
    | app f u => exact absurd hl.vanishing_of_app hv
    | eqn a b => exact absurd hl.vanishing_of_eqn hv
    | var x => exact ⟨.var x, FunctionFree.var x⟩
    | num n => exact ⟨.num n, FunctionFree.num n⟩

/-- A lawful tree that is tame and that no round changes is defined and applies no functions. -/
theorem Tame.defined_of_round (h : Tame .live t) (hl : Lawful ρ t) (hcount : zeroCount t < 2 ^ 64)
    (hfix : round t = t) : t.Defined ρ ∧ t.FunctionFree := by
  have hwf : t.WellFormed := hfix ▸ wellFormed_round t
  have hprep := prepared_flatten hwf (hfix ▸ anchored_round t) (hfix.symm ▸ .refl t)
  obtain ⟨hdef, hfree⟩ := (fades_flatten h hcount).tame.defined (retains_flatten h hcount hl).lawful
    hprep.identities hprep.quiet.toSteady
  have hround := exact_refines_iff.1 (refines_round_of_flatten (wellFormed_flatten hwf)) ρ hdef
  have hfree' := everywhere_round_of_flatten FunctionFree.vocabulary hfree
  rw [hfix] at hround hfree'
  exact ⟨hround.1, hfree'⟩

/-- Whatever rounds come to rest at, if they started at a lawful tree of which they make no quotient
of zeros, is defined, applies no functions and has the value of that tree. -/
theorem lawful_iterate_round {k : ℕ} (h : Tame .raw e) (hwf : e.WellFormed)
    (hnodes : e.nodeCount < 2 ^ 63) (hl : Lawful ρ e) (hfix : round (round^[k] e) = round^[k] e) :
    (round^[k] e).Defined ρ ∧ (round^[k] e).FunctionFree ∧ (round^[k] e).real ρ = e.real ρ := by
  have hrounds : ∀ k, Retains ρ e (round^[k + 1] e) := by
    intro k
    induction k with
    | zero => exact retains_round_of_raw h hwf hnodes hl
    | succ k ih =>
      obtain ⟨hkeeps, hcount⟩ := keeps_iterate_round_of_raw h hwf hnodes k
      rw [Function.iterate_succ_apply']
      exact ih.trans (retains_round hkeeps.tame (wellFormed_iterate_round hwf _) hcount ih.lawful)
  obtain ⟨hkeeps, hcount⟩ := keeps_iterate_round_of_raw h hwf hnodes k
  have hretains := hrounds k
  rw [Function.iterate_succ_apply', hfix] at hretains hkeeps hcount
  obtain ⟨hdef, hfree⟩ := hkeeps.tame.defined_of_round hretains.lawful hcount hfix
  exact ⟨hdef, hfree, hretains.real⟩

end Simplification

end ComputerAlgebra
