import ComputerAlgebra.Proofs.Exact.Value
import ComputerAlgebra.Proofs.Simplification.Arity
import ComputerAlgebra.Proofs.Simplification.Numbers

/-!
# Simplification keeps values

Each pass refines well-formed trees, in whatever exact arithmetic: wherever the tree has a value, so
has the result, and it is the same. The rules are taken one node at a time, in the order of the
passes.
-/

namespace ComputerAlgebra

namespace Simplification

open ComputerAlgebra.Expr Exact ExactNumbers

variable {K : Type} [Field K] [LinearOrder K] [ExactNumbers K]
  {ρ : String → K} {a b e : Expr} {es : List Expr}

/-! ### Flattening -/

theorem Flatten.defined_addends (h : Defined ρ e) : ∀ e' ∈ addends e, Defined ρ e' := by
  cases h with
  | sum h => exact h
  | _ => simp_all [addends]

theorem Flatten.defined_factors (h : Defined ρ e) : ∀ e' ∈ factors e, Defined ρ e' := by
  cases h with
  | prod h => exact h
  | _ => simp_all [factors]

theorem Flatten.refines_splice (e : Expr) : Refines K e (splice e) := by
  intro ρ h
  cases h with
  | @sum es h =>
    refine ⟨.sum fun e he => ?_, ?_⟩
    · obtain ⟨e', he', hmem⟩ := List.mem_flatMap.1 he
      exact defined_addends (h e' he') e hmem
    · rw [splice, value_sum, value_sum, sum_flatMap_addends value_sum]
  | @prod es h =>
    refine ⟨.prod fun e he => ?_, ?_⟩
    · obtain ⟨e', he', hmem⟩ := List.mem_flatMap.1 he
      exact defined_factors (h e' he') e hmem
    · rw [splice, value_prod, value_prod, prod_flatMap_factors value_prod]
  | _ => simp_all [splice]

theorem refines_flatten (h : e.WellFormed) : Refines K e (flatten e) := by
  rw [flatten_eq_bottomUp]
  exact .bottomUp Flatten.wellFormed_splice (fun e _ => Flatten.refines_splice e) h

/-! ### Identities -/

/-- Identities of quotients refine: where `0 / b` is defined, `b` is not `0`. -/
theorem Identities.refines_quotient (a b : Expr) : Refines K (.quot a b) (quotient a b) := by
  intro ρ h
  obtain ⟨ha, hb, hne⟩ := Defined.quot_iff.1 h
  rw [quotient]
  split_ifs with h1 h2 h3
  · subst h1
    exact ⟨ha, by simp⟩
  · obtain ⟨rfl, -⟩ := h2
    exact ⟨.zero, by simp⟩
  · obtain ⟨rfl, -⟩ := h3
    exact ⟨.one, by simp [div_self hne]⟩
  · exact ⟨h, rfl⟩

theorem Identities.refines_integerPower? {n m : Int64} (h : integerPower? n m = some e) :
    Refines K (.pow (.num n) (.num m)) e := by
  intro ρ hdef
  obtain ⟨-, -, hdom⟩ := Defined.pow_iff.1 hdef
  rw [value_num, value_num] at hdom
  obtain ⟨hm, v, hv, rfl⟩ | ⟨hm, k, v, hk, hv, rfl⟩ := integerPower?_eq_some h
  · have hv' := Int64.pow?_eq_some hv
    refine ⟨.num v, ?_⟩
    rw [value_num, value_pow, value_num, value_num, hv', power_intCast hdom]
    conv_rhs => rw [← Int.toNat_of_nonneg hm]
    push_cast
    rw [zpow_natCast]
  · rw [Int64.neg?_eq_some_iff] at hk
    have hv' := Int64.pow?_eq_some hv
    have hn : (n.toInt : K) ≠ 0 := (powerDomain_intCast.1 hdom).resolve_right hm.not_ge
    have hpow : (v.toInt : K) = (n.toInt : K) ^ (-m.toInt) := by
      rw [hv', ← hk, ← Int.toNat_of_nonneg (show 0 ≤ k.toInt by omega), zpow_natCast]
      push_cast
      rfl
    have hv0 : (v.toInt : K) ≠ 0 := by
      rw [hpow]
      exact zpow_ne_zero _ hn
    refine ⟨.quot .one (.num v) (by rwa [value_num]), ?_⟩
    rw [value_quot, value_one, value_pow, value_num, value_num, value_num, hpow,
      power_intCast hdom, zpow_neg, one_div, inv_inv]

/-- Identities of powers refine: where the base is `0`, the exponent is not negative. -/
theorem Identities.refines_power (a b : Expr) : Refines K (.pow a b) (power a b) := by
  intro ρ h
  obtain ⟨ha, -, hdom⟩ := Defined.pow_iff.1 h
  obtain ⟨h1, heq⟩ | ⟨rfl, heq⟩ | ⟨n, m, rfl, rfl, heq⟩ | ⟨-, heq⟩ := power_cases a b
  · rw [heq]
    refine ⟨.one, ?_⟩
    rcases h1 with rfl | rfl
    · simp
    · rw [value_one] at hdom
      simp [power_one_left hdom]
  · rw [heq]
    exact ⟨ha, by simp⟩
  · exact refines_integerPower? heq ρ h
  · rw [heq]
    exact ⟨h, rfl⟩

theorem varValue_e : varValue ρ NamedConstant.e.name = constant .e := by
  have h : NamedConstant.ofName? NamedConstant.e.name = some .e :=
    NamedConstant.ofName?_eq_some_iff.2 (by simp [NamedConstant.spellings, NamedConstant.name])
  rw [varValue, h, Option.elim_some]

/-- The special values of the functions are their values. -/
theorem Identities.refines_valueAt? {f : Func} {v : Int64} (h : valueAt? f a = some v) :
    Refines K (.app f a) (.num v) := by
  intro ρ hdef
  obtain ⟨-, hdom⟩ := Defined.app_iff.1 hdef
  refine ⟨.num v, ?_⟩
  unfold valueAt? at h
  clear hdef
  split at h
  case h_8 =>
    rw [Int64.abs?_eq_some_iff] at h
    simp [h, apply_abs]
  case h_9 c =>
    obtain ⟨hv, hvv⟩ := Int64.sqrt?_eq_some h
    have hc : (c.toInt : K) = (v.toInt : K) * v.toInt := by exact_mod_cast hvv.symm
    have hv' : (0 : K) ≤ v.toInt := by exact_mod_cast hv
    rw [value_num, hc] at hdom
    rw [value_app, value_num, value_num, hc, apply_sqrt hv' hdom]
  case h_10 x =>
    split_ifs at h with hx
    cases h
    subst hx
    rw [value_var, varValue_e] at hdom
    rw [value_app, value_num, value_var, varValue_e, apply_ln_e hdom]
    simp [Int64.toInt_one]
  case h_11 => cases h
  all_goals
    split_ifs at h with hc
    cases h
    subst hc
    simp only [value_num, Int64.toInt_zero, Int64.toInt_one, Int.cast_zero, Int.cast_one] at hdom
    simp [hdom, Int64.toInt_one, apply_sin_zero, apply_cos_zero, apply_tan_zero, apply_asin_zero,
      apply_acos_one, apply_atan_zero, apply_ln_one]

theorem Identities.refines_rule (e : Expr) : Refines K e (rule e) := by
  cases e with
  | quot a b => exact refines_quotient a b
  | pow a b => exact refines_power a b
  | prod es =>
    simp only [rule]
    split_ifs with h0
    · intro ρ _
      refine ⟨.zero, ?_⟩
      rw [value_prod, value_zero]
      exact (List.prod_eq_zero (List.mem_map.2 ⟨0, h0, value_zero⟩)).symm
    · exact .refl _
  | app f a =>
    simp only [rule]
    split
    · next value hvalue => exact refines_valueAt? hvalue
    · exact .refl _
  | _ => exact .refl _

theorem refines_applyIdentities (h : e.WellFormed) : Refines K e (applyIdentities e) :=
  .bottomUp Identities.wellFormed_rule (fun e _ => Identities.refines_rule e) h

/-! ### Fractions -/

theorem Fractions.refines_quotient (a b : Expr) : Refines K (.quot a b) (quotient a b) := by
  intro ρ h
  obtain ⟨ha, hb, hne⟩ := Defined.quot_iff.1 h
  unfold quotient
  split
  · next a c =>
    obtain ⟨ha, hc, hne'⟩ := Defined.quot_iff.1 ha
    refine ⟨.quot ha (.prod (by simp [hc, hb])) (by simp [hne, hne']), ?_⟩
    simp [div_div]
  · next c d _ =>
    obtain ⟨hc, hd, hne'⟩ := Defined.quot_iff.1 hb
    have hc0 : value ρ c ≠ 0 := fun h0 => hne (by simp [h0])
    refine ⟨.quot (.prod (by simp [ha, hd])) hc hc0, ?_⟩
    simp [div_div_eq_mul_div]
  · exact ⟨h, rfl⟩

/-- A product is the product of the numerators over the product of the denominators. -/
theorem Fractions.value_parts (h : ∀ e ∈ es, Defined ρ e) :
    (∀ e ∈ es.map numerator, Defined ρ e) ∧
      (∀ e ∈ es.filterMap denominator?, Defined ρ e ∧ value ρ e ≠ 0) ∧
      (es.map (value ρ)).prod = ((es.map numerator).map (value ρ)).prod /
        ((es.filterMap denominator?).map (value ρ)).prod := by
  induction es with
  | nil => simp
  | cons e es ih =>
    rw [List.forall_mem_cons] at h
    obtain ⟨hnum, hden, heq⟩ := ih h.2
    rcases eq_quot_or e with ⟨a, b, rfl⟩ | ⟨hn, hd⟩
    · obtain ⟨ha, hb, hne⟩ := Defined.quot_iff.1 h.1
      have hb' : denominator? (.quot a b) = some b := rfl
      refine ⟨List.forall_mem_cons.2 ⟨ha, hnum⟩, ?_, ?_⟩
      · rw [List.filterMap_cons_some hb']
        exact List.forall_mem_cons.2 ⟨⟨hb, hne⟩, hden⟩
      · rw [List.filterMap_cons_some hb', List.map_cons, List.prod_cons, heq, value_quot,
          List.map_cons, List.map_cons, List.prod_cons, List.map_cons, List.prod_cons,
          div_mul_div_comm, numerator]
    · rw [List.map_cons, List.filterMap_cons_none hd, hn]
      refine ⟨List.forall_mem_cons.2 ⟨h.1, hnum⟩, hden, ?_⟩
      rw [List.map_cons, List.prod_cons, heq, List.map_cons, List.prod_cons, mul_div_assoc]

theorem Fractions.refines_product (hne : es ≠ []) : Refines K (.prod es) (product es) := by
  intro ρ h
  obtain ⟨hnum, hden, heq⟩ := value_parts (Defined.prod_iff.1 h)
  rw [product]
  split
  · exact ⟨h, rfl⟩
  · next hdens =>
    have hnum0 : es.map numerator ≠ [] := by simpa using hne
    have hprod : ((es.filterMap denominator?).map (value ρ)).prod ≠ 0 := by
      rw [Ne, List.prod_eq_zero_iff]
      intro h0
      obtain ⟨b, hb, hb0⟩ := List.mem_map.1 h0
      exact (hden b hb).2 hb0
    refine ⟨.quot (Defined.prodOf_iff.2 hnum) (Defined.prodOf_iff.2 fun b hb => (hden b hb).1) ?_,
      ?_⟩
    · rwa [value_prodOf hdens]
    · rw [value_quot, value_prodOf hnum0, value_prodOf hdens, value_prod, heq]

theorem Fractions.refines_rule (e : Expr) (h : e.WellFormed) : Refines K e (rule e) := by
  cases h with
  | @quot a b _ _ => exact refines_quotient a b
  | prod hlen _ => exact refines_product (List.ne_nil_of_length_pos (by omega))
  | _ => exact .refl _

theorem refines_mergeFractions (h : e.WellFormed) : Refines K e (mergeFractions e) :=
  .bottomUp Fractions.wellFormed_rule Fractions.refines_rule h

/-! ### Like terms -/

/-- An addend is the product of its term and its coefficient. -/
theorem Collect.value_termAndCoefficient (h : Defined ρ e) :
    Defined ρ (termAndCoefficient e).1 ∧ Defined ρ (termAndCoefficient e).2 ∧
      value ρ (termAndCoefficient e).1 * value ρ (termAndCoefficient e).2 = value ρ e := by
  unfold termAndCoefficient
  split
  · simp_all [mul_comm]
  · simp [h]

/-- A group of equal terms has the sum of their values. -/
theorem Collect.value_regroup_sum {g : Expr × List Expr} (hne : g.2 ≠ []) (hkey : Defined ρ g.1)
    (hvalues : ∀ v ∈ g.2, Defined ρ v) :
    Defined ρ (regroup (fun t c => .prod [c, t]) g) ∧
      value ρ (regroup (fun t c => .prod [c, t]) g) =
        (g.2.map fun v => value ρ g.1 * value ρ v).sum := by
  rcases regroup_eq (fun t c => .prod [c, t]) hne with ⟨h, h1⟩ | h
  · simp [h, h1, hkey]
  · rw [h]
    refine ⟨by simpa [hkey] using hvalues, ?_⟩
    rw [value_prod, List.sum_map_mul_left]
    simp [mul_comm]

/-- Collecting equal terms refines, by distributivity. -/
theorem Collect.refines_sum (es : List Expr) : Refines K (.sum es) (rule (.sum es)) := by
  intro ρ hdef
  have hpairs : ∀ p ∈ es.map termAndCoefficient, Defined ρ p.1 ∧ Defined ρ p.2 :=
    List.forall_mem_map.2 fun e he =>
      have h := value_termAndCoefficient (Defined.sum_iff.1 hdef e he)
      ⟨h.1, h.2.1⟩
  have hgroups := fun g hg => value_regroup_sum (group_ne_nil _ g hg)
    (forall_group_key _ (fun p hp => (hpairs p hp).1) g hg)
    (forall_group_value _ (fun p hp => (hpairs p hp).2) g hg)
  refine ⟨Defined.sumOf_iff.2 (List.forall_mem_map.2 fun g hg => (hgroups g hg).1), ?_⟩
  calc value ρ (rule (.sum es))
      = ((group (es.map termAndCoefficient)).map fun g =>
          (g.2.map fun v => value ρ g.1 * value ρ v).sum).sum := by
        rw [rule, value_sumOf, List.map_map]
        exact congrArg _ (List.map_congr_left fun g hg => (hgroups g hg).2)
    _ = ((es.map termAndCoefficient).map fun p => value ρ p.1 * value ρ p.2).sum := by
        rw [← Groups.sum_map_pairs fun k v => value ρ k * value ρ v]
        exact ((group_pairs_perm _).map _).sum_eq
    _ = value ρ (sum es) := by
        rw [List.map_map, value_sum]
        exact congrArg _ (List.map_congr_left fun e he =>
          (value_termAndCoefficient (Defined.sum_iff.1 hdef e he)).2.2)

/-- A factor is the power of its base and its exponent, and this power is defined where the factor
is. -/
theorem Collect.value_baseAndExponent (h : Defined ρ e) :
    Defined ρ (baseAndExponent e).1 ∧ Defined ρ (baseAndExponent e).2 ∧
      ExactNumbers.PowerDomain (value ρ (baseAndExponent e).1) (value ρ (baseAndExponent e).2) ∧
      power (value ρ (baseAndExponent e).1) (value ρ (baseAndExponent e).2) = value ρ e := by
  unfold baseAndExponent
  split
  · simp_all
  · simp [h, powerDomain_one]

/-- A group of equal factors has the product of their values. All exponents are in the domain of the
base, so they can be added. -/
theorem Collect.value_regroup_prod {g : Expr × List Expr} (hne : g.2 ≠ []) (hkey : Defined ρ g.1)
    (hvalues : ∀ v ∈ g.2, Defined ρ v)
    (hdom : ∀ v ∈ g.2, ExactNumbers.PowerDomain (value ρ g.1) (value ρ v)) :
    Defined ρ (regroup .pow g) ∧
      value ρ (regroup .pow g) = (g.2.map fun v => power (value ρ g.1) (value ρ v)).prod := by
  rcases regroup_eq .pow hne with ⟨h, h1⟩ | h
  · simp [h, h1, hkey]
  · obtain ⟨hsum, hpow⟩ := power_sum (List.forall_mem_map.2 hdom)
    rw [h]
    refine ⟨.pow hkey (Defined.sumOf_iff.2 hvalues) (by rwa [value_sumOf]), ?_⟩
    rw [value_pow, value_sumOf, hpow, List.map_map]
    rfl

theorem Collect.refines_prod (hne : es ≠ []) : Refines K (.prod es) (rule (.prod es)) := by
  intro ρ hdef
  have hpairs : ∀ p ∈ es.map baseAndExponent, Defined ρ p.1 ∧ Defined ρ p.2 ∧
      ExactNumbers.PowerDomain (value ρ p.1) (value ρ p.2) :=
    List.forall_mem_map.2 fun e he =>
      have h := value_baseAndExponent (Defined.prod_iff.1 hdef e he)
      ⟨h.1, h.2.1, h.2.2.1⟩
  have hgroups := fun g hg => value_regroup_prod (group_ne_nil _ g hg)
    (forall_group_key _ (fun p hp => (hpairs p hp).1) g hg)
    (forall_group_value _ (fun p hp => (hpairs p hp).2.1) g hg)
    (forall_group _ (p := fun k v => ExactNumbers.PowerDomain (value ρ k) (value ρ v))
      (fun p hp => (hpairs p hp).2.2) g hg)
  have hne' : group (es.map baseAndExponent) ≠ [] := group_ne_nil_of_ne_nil (by simpa using hne)
  refine ⟨Defined.prodOf_iff.2 (List.forall_mem_map.2 fun g hg => (hgroups g hg).1), ?_⟩
  calc value ρ (rule (.prod es))
      = ((group (es.map baseAndExponent)).map fun g =>
          (g.2.map fun v => power (value ρ g.1) (value ρ v)).prod).prod := by
        rw [rule, value_prodOf (by simpa using hne'), List.map_map]
        exact congrArg _ (List.map_congr_left fun g hg => (hgroups g hg).2)
    _ = ((es.map baseAndExponent).map fun p => power (value ρ p.1) (value ρ p.2)).prod := by
        rw [← Groups.prod_map_pairs fun k v => power (value ρ k) (value ρ v)]
        exact ((group_pairs_perm _).map _).prod_eq
    _ = value ρ (prod es) := by
        rw [List.map_map, value_prod]
        exact congrArg _ (List.map_congr_left fun e he =>
          (value_baseAndExponent (Defined.prod_iff.1 hdef e he)).2.2.2)

theorem Collect.refines_rule (e : Expr) (h : e.WellFormed) : Refines K e (rule e) := by
  cases h with
  | @sum es _ _ => exact refines_sum es
  | prod hlen _ => exact refines_prod (List.ne_nil_of_length_pos (by omega))
  | _ => exact .refl _

theorem refines_collect (h : e.WellFormed) : Refines K e (collect e) :=
  .bottomUp Collect.wellFormed_rule Collect.refines_rule h

/-! ### Numbers -/

theorem value_ofFraction (q : Fraction) : value ρ (ofFraction q) = (q.toRat : K) := by
  rw [ofFraction, Fraction.toRat]
  split_ifs with h
  · simp [h, Int64.toInt_one]
  · simp

theorem defined_ofFraction {q : Fraction} (h : q.den ≠ 0) : Defined ρ (ofFraction q) := by
  rw [Int64.ne_zero_iff_toInt_ne_zero] at h
  rw [ofFraction]
  split_ifs
  · exact .num _
  · exact .quot (.num _) (.num _) (by simpa using h)

theorem value_of_fraction? {q : Fraction} (h : e.fraction? = some q) :
    value ρ e = (q.toRat : K) := by
  unfold fraction? at h
  split at h <;> cases h <;> simp [Fraction.toRat, Int64.toInt_one]

theorem value_of_num? {n : Int64} (h : e.num? = some n) : value ρ e = n.toInt := by
  unfold num? at h
  split at h <;> cases h
  exact value_num n

/-- Folding a quotient refines, with a reduced fraction or without one. -/
theorem Fold.refines_quotient (a b : Expr) : Refines K (.quot a b) (quotient a b) := by
  unfold quotient
  split
  · next n d =>
    split_ifs with hd
    · exact .refl _
    · cases hr : Fraction.reduce? ⟨n, d⟩ with
      | none => exact .refl _
      | some q =>
        obtain ⟨hlow, hval⟩ := Fraction.reduce?_eq_some hd hr
        have hden : q.den ≠ 0 := Int64.ne_zero_iff_toInt_ne_zero.2 hlow.den_pos.ne'
        intro ρ _
        refine ⟨defined_ofFraction hden, ?_⟩
        rw [Option.map_some, Option.getD_some, value_ofFraction, hval, Fraction.toRat]
        simp
  · exact .refl _

/-- Folding the numbers of a product refines, and so it does if their product overflows and nothing
is folded. -/
theorem Fold.refines_product (es : List Expr) : Refines K (.prod es) (product es) := by
  intro ρ hdef
  have hothers : ∀ e ∈ es.filter fun e => e.num?.isNone, Defined ρ e := fun e he =>
    Defined.prod_iff.1 hdef e (List.mem_of_mem_filter he)
  have hreal := prod_split (fun e n => value_of_num? (ρ := ρ) (e := e) (n := n)) es
  simp only [product]
  -- an overflow leaves the product as it is
  cases hc : multiply? (es.filterMap num?) with
  | none => exact ⟨hdef, rfl⟩
  | some c =>
    have hprod : ((es.filterMap num?).map fun n => (n.toInt : K)).prod = (c.toInt : K) := by
      rw [multiply?_eq_some hc, Int.cast_list_prod, List.map_map]
      rfl
    rw [hprod] at hreal
    rw [value_prod, ← hreal]
    dsimp only
    -- the product is `0`, or written as a coefficient, or `1` and left out
    split_ifs with h0 h1
    · simp [h0]
    · refine ⟨Defined.prodOf_iff.2 ?_, ?_⟩
      · rw [List.forall_mem_append]
        exact ⟨hothers, by simp⟩
      · rw [value_prodOf (by simp), List.map_append, List.prod_append, mul_comm]
        simp
    · rw [not_or, not_not] at h1
      refine ⟨Defined.prodOf_iff.2 hothers, ?_⟩
      rw [value_prodOf h1.2, h1.1, Int64.toInt_one, Int.cast_one, one_mul]

/-- Folding the numbers of a sum refines, and so it does if their sum overflows and nothing is
folded. -/
theorem Fold.refines_addends (es : List Expr) : Refines K (.sum es) (addends es) := by
  intro ρ hdef
  have hothers : ∀ e ∈ es.filter fun e => e.fraction?.isNone, Defined ρ e := fun e he =>
    Defined.sum_iff.1 hdef e (List.mem_of_mem_filter he)
  simp only [addends]
  split_ifs with h
  · exact ⟨hdef, rfl⟩
  · rw [not_or] at h
    have hdens : ∀ q ∈ es.filterMap fraction?, q.den ≠ 0 := fun q hq h0 =>
      h.2 (List.any_eq_true.2 ⟨q, hq, by simpa using h0⟩)
    -- an overflow leaves the sum as it is
    cases hs : Fraction.sum? (es.filterMap fraction?) with
    | none => exact ⟨hdef, rfl⟩
    | some q =>
      obtain ⟨hlow, hval⟩ := Fraction.sum?_eq_some hdens hs
      have hden : q.den ≠ 0 := Int64.ne_zero_iff_toInt_ne_zero.2 hlow.den_pos.ne'
      have hreal := sum_split (fun e q => value_of_fraction? (ρ := ρ) (e := e) (q := q)) es
      have hsum : ((es.filterMap fraction?).map fun q => (q.toRat : K)).sum = (q.toRat : K) := by
        rw [hval, Rat.cast_list_sum, List.map_map]
        rfl
      rw [hsum] at hreal
      rw [value_sum, ← hreal]
      dsimp only
      split_ifs with h0
      · refine ⟨Defined.sumOf_iff.2 hothers, ?_⟩
        rw [value_sumOf, Fraction.toRat, h0]
        simp
      · refine ⟨Defined.sumOf_iff.2 ?_, ?_⟩
        · rw [List.forall_mem_append]
          exact ⟨hothers, by simpa using defined_ofFraction hden⟩
        · rw [value_sumOf, List.map_append, List.sum_append, add_comm, List.map_singleton,
            List.sum_singleton, value_ofFraction]

theorem Fold.refines_rule (e : Expr) : Refines K e (rule e) := by
  cases e with
  | quot a b => exact refines_quotient a b
  | prod es => exact refines_product es
  | sum es => exact refines_addends es
  | _ => exact .refl _

theorem refines_fold (h : e.WellFormed) : Refines K e (fold e) :=
  .bottomUp Fold.wellFormed_rule (fun e _ => Fold.refines_rule e) h

/-! ### Sorting -/

/-- Sorting refines, since sums and products do not depend on the order. -/
theorem Sorting.refines_rule (e : Expr) : Refines K e (rule e) := by
  intro ρ hdef
  cases hdef with
  | @sum es h =>
    have hperm := Sorted.sort_perm Expr.le es
    exact ⟨.sum fun e he => h e (hperm.mem_iff.1 he), by
      rw [rule, value_sum, value_sum, (hperm.map _).sum_eq]⟩
  | @prod es h =>
    have hperm := Sorted.sort_perm Expr.le es
    exact ⟨.prod fun e he => h e (hperm.mem_iff.1 he), by
      rw [rule, value_prod, value_prod, (hperm.map _).prod_eq]⟩
  | _ => simp_all [rule]

theorem refines_sortOperands (h : e.WellFormed) : Refines K e (sortOperands e) :=
  .bottomUp Sorting.wellFormed_rule (fun e _ => Sorting.refines_rule e) h

/-! ### Rounds -/

/-- What the passes after flattening make of the flat tree. -/
theorem refines_round_of_flatten (h : (flatten e).WellFormed) :
    Refines K (flatten e) (round e) := by
  have h2 := wellFormed_applyIdentities h
  have h3 := wellFormed_mergeFractions h2
  have h4 := wellFormed_collect (mergeFractions (applyIdentities (flatten e)))
  have h5 := wellFormed_fold h4
  exact (refines_applyIdentities h).trans <| (refines_mergeFractions h2).trans <|
    (refines_collect h3).trans <| (refines_fold h4).trans (refines_sortOperands h5)

theorem refines_round (h : e.WellFormed) : Refines K e (round e) :=
  (refines_flatten h).trans (refines_round_of_flatten (wellFormed_flatten h))

end Simplification

end ComputerAlgebra
