import ComputerAlgebra.Proofs.Simplification.NormalForm

/-!
# Like terms

Multiples of one term are added by adding their coefficients, and in the round in which they are
met: `a * m + b * m` and `(a + b) * m` become the same tree (`simplify_like_terms`). This takes a
term that the collector sees as one factor. A product is flattened into its multiples, a quotient
moves out of them, and a power of a coefficient is collected with it; then like terms are not met as
such.
-/

namespace ComputerAlgebra

namespace Simplification

open ComputerAlgebra.Expr

variable {a b c : Int64} {e f m p s t : Expr} {es : List Expr}

/-! ### Passes before the collector -/

/-- Merging fractions works on products and quotients only. -/
theorem mergeFractions_eq (hprod : ∀ fs, mergeFractions e ≠ .prod fs)
    (hquot : ∀ x y, mergeFractions e ≠ .quot x y) :
    mergeFractions e = e.mapOperands mergeFractions := by
  have heq : mergeFractions e = Fractions.rule (e.mapOperands mergeFractions) := bottomUp_eq _ _
  rw [heq] at hprod hquot ⊢
  cases e with
  | prod es =>
    simp only [mapOperands, Fractions.rule, Fractions.product] at hprod hquot
    split at hprod
    · exact absurd rfl (hprod _)
    · simp_all
  | quot x y =>
    simp only [mapOperands, Fractions.rule] at hquot
    unfold Fractions.quotient at hquot
    split at hquot <;> exact absurd rfl (hquot _ _)
  | _ => rfl

theorem mergeFractions_eq_num {n : Int64} (h : mergeFractions e = .num n) : e = .num n := by
  have heq := mergeFractions_eq (e := e) (by simp [h]) (by simp [h])
  rw [h] at heq
  cases e <;> cases heq
  rfl

/-- Sums that hold no sum are prepared addend by addend. -/
theorem prepare_sum (es : List Expr) (h : ∀ e ∈ es, ∀ gs, e ≠ .sum gs) :
    prepare (.sum es) = .sum (es.map prepare) := by
  have hsum : ∀ gs, .sum gs ∉ es.map flatten := by
    intro gs hgs
    obtain ⟨e, he, heq⟩ := List.mem_map.1 hgs
    have hrank := keepsKind_flatten.rank e
    rw [heq] at hrank
    cases e with
    | sum fs => exact h _ he fs rfl
    | _ => cases hrank
  have hflat : flatten (.sum es) = .sum (es.map flatten) := by
    rw [flatten_eq_splice, mapOperands, Flatten.splice, Flatten.flatMap_addends hsum]
  rw [prepare, hflat, applyIdentities, bottomUp_sum, mergeFractions]
  show Expr.bottomUp _ (.sum _) = _
  rw [bottomUp_sum, List.map_map, List.map_map]
  rfl

/-- A multiple of a tree that is no product and not prepared to a quotient is prepared to a
multiple, or to `0`. -/
theorem prepare_multiple (hprod : ∀ fs, m ≠ .prod fs) (hquot : ∀ x y, prepare m ≠ .quot x y) :
    prepare (.prod [.num a, m]) =
      if a = 0 ∨ prepare m = 0 then 0 else .prod [.num a, prepare m] := by
  -- flattening keeps the kind of the term, which is no product, and so a factor of its own
  have hfactors : Flatten.factors (flatten m) = [flatten m] := Flatten.factors_eq fun gs heq => by
    have hrank := keepsKind_flatten.rank m
    rw [heq] at hrank
    cases m with
    | prod fs => exact hprod fs rfl
    | _ => cases hrank
  have hflat : flatten (.prod [.num a, m]) = .prod [.num a, flatten m] := by
    rw [flatten_eq_splice, mapOperands, List.map_cons, keepsKind_flatten.num, Flatten.splice,
      List.map_singleton, List.flatMap_cons, List.flatMap_singleton, hfactors]
    rfl
  have hzero : prepare m = 0 ↔ applyIdentities (flatten m) = 0 :=
    ⟨fun h => mergeFractions_eq_num h, fun h => by rw [prepare, h]; rfl⟩
  have hmem : (0 : Expr) ∈ [.num a, applyIdentities (flatten m)] ↔ a = 0 ∨ prepare m = 0 := by
    have hnum : (0 : Expr) = .num a ↔ a = 0 := by
      show Expr.num 0 = .num a ↔ _
      rw [num.injEq, eq_comm]
    rw [hzero, List.mem_pair, hnum, eq_comm (a := (0 : Expr))]
  have hid : applyIdentities (.prod [.num a, flatten m]) =
      if a = 0 ∨ prepare m = 0 then 0 else .prod [.num a, applyIdentities (flatten m)] := by
    rw [applyIdentities, bottomUp_prod]
    exact if_congr hmem rfl rfl
  rw [prepare, hflat, hid]
  split_ifs
  · rfl
  -- fractions are not merged, since neither factor is one
  · have hnone : Fractions.denominator? (prepare m) = none := by
      cases hp : prepare m with
      | quot x y => exact absurd hp (hquot x y)
      | _ => rfl
    have hden : [Expr.num a, prepare m].filterMap Fractions.denominator? = [] := by
      rw [List.filterMap_cons_none rfl, List.filterMap_cons_none hnone, List.filterMap_nil]
    rw [mergeFractions, bottomUp_prod]
    show Fractions.product [.num a, prepare m] = _
    rw [Fractions.product, hden]

/-! ### The collector -/

/-- Operands either fall into several groups or into one with several values. -/
theorem Collect.group_cases (ps : List (Expr × Expr)) (hlen : 2 ≤ ps.length) :
    2 ≤ (group ps).length ∨ ∃ k vs, 2 ≤ vs.length ∧ group ps = [(k, vs)] := by
  have hperm := (group_pairs_perm ps).length_eq
  match hgroup : group ps with
  | [] =>
    rw [hgroup, Groups.pairs_nil, List.length_nil] at hperm
    omega
  | [(k, vs)] =>
    rw [hgroup, Groups.pairs_cons, Groups.pairs_nil, List.append_nil, List.length_map] at hperm
    exact .inr ⟨k, vs, by omega, rfl⟩
  | _ :: _ :: _ => exact .inl (by simp)

/-- What is collected from a product is a product, or the power that collects all factors. -/
theorem Collect.rule_prod_cases (hlen : 2 ≤ es.length) :
    (∃ fs, rule (.prod es) = .prod fs) ∨ ∃ k vs, rule (.prod es) = .pow k (.sum vs) := by
  rw [rule]
  rcases group_cases (es.map baseAndExponent) (by simpa using hlen) with h | ⟨k, vs, h, heq⟩
  · exact .inl ⟨_, prodOf_of_two_le (by simpa using h)⟩
  · rw [heq, List.map_singleton, regroup_of_two_le .pow k h]
    exact .inr ⟨k, vs, rfl⟩

/-- What is collected from a sum is a sum, or the multiple that collects all addends. -/
theorem Collect.rule_sum_cases (hlen : 2 ≤ es.length) :
    (∃ fs, rule (.sum es) = .sum fs) ∨ ∃ t c, rule (.sum es) = .prod [c, t] := by
  rw [rule]
  rcases group_cases (es.map termAndCoefficient) (by simpa using hlen) with h | ⟨k, vs, h, heq⟩
  · exact .inl ⟨_, sumOf_of_two_le (by simpa using h)⟩
  · rw [heq, List.map_singleton, regroup_of_two_le _ k h]
    exact .inr ⟨k, _, rfl⟩

theorem collect_eq_num {n : Int64} (h : e.WellFormed) (hn : collect e = .num n) : e = .num n := by
  rw [collect_eq] at hn
  cases h with
  | num k => exact hn
  | @sum es hlen _ =>
    have hlen' : 2 ≤ (es.map collect).length := by rwa [List.length_map]
    rw [mapOperands] at hn
    rcases Collect.rule_sum_cases hlen' with ⟨fs, heq⟩ | ⟨t, c, heq⟩ <;> rw [heq] at hn <;> cases hn
  | @prod es hlen _ =>
    have hlen' : 2 ≤ (es.map collect).length := by rwa [List.length_map]
    rw [mapOperands] at hn
    rcases Collect.rule_prod_cases hlen' with ⟨fs, heq⟩ | ⟨k, vs, heq⟩ <;> rw [heq] at hn <;>
      cases hn
  | _ => cases hn

/-- Identities leave no exponent `1`. -/
theorem applyIdentities_ne_pow (e x : Expr) : applyIdentities e ≠ .pow x 1 := by
  induction e using operands_induct with
  | node e ih =>
    intro h
    have heq : applyIdentities e = Identities.rule (e.mapOperands applyIdentities) :=
      bottomUp_eq _ _
    rw [heq] at h
    cases e with
    | prod es =>
      simp only [mapOperands, Identities.rule] at h
      -- a product is made `0` or left as it is
      split_ifs at h
    | quot a b =>
      simp only [mapOperands, Identities.rule, Identities.quotient] at h
      split_ifs at h
      exact ih a (by simp [operands]) h
    | pow a b =>
      change Identities.power (applyIdentities a) (applyIdentities b) = _ at h
      -- a power becomes `1`, its base, a number, or stays with an exponent other than `1`
      obtain ⟨-, hp⟩ | ⟨-, hp⟩ | ⟨n, k, -, -, hp⟩ | ⟨h1, hp⟩ :=
        Identities.power_cases (applyIdentities a) (applyIdentities b)
      · rw [h] at hp
        cases hp
      · exact ih a (by simp [operands]) (hp ▸ h)
      · obtain ⟨-, v, -, hv⟩ | ⟨-, k, v, -, -, hv⟩ := Identities.integerPower?_eq_some hp <;>
          rw [h] at hv <;> cases hv
      · exact h1 (pow.inj (hp ▸ h)).2
    | app f a =>
      simp only [mapOperands, Identities.rule] at h
      split at h <;> cases h
    | _ => cases h

/-- Nor is there an exponent `1` when factors are collected. -/
theorem collect_prepare_ne_pow (h : m.WellFormed) (x : Expr) : collect (prepare m) ≠ .pow x 1 := by
  intro hx
  have hwf := wellFormed_prepare h
  -- only a power can be collected to a power, and the exponent was `1` before
  have hpow : ∃ a, prepare m = .pow a 1 := by
    rw [collect_eq] at hx
    generalize prepare m = p at hx hwf
    cases hwf with
    | @sum es hlen _ =>
      have hlen' : 2 ≤ (es.map collect).length := by rwa [List.length_map]
      rw [mapOperands] at hx
      rcases Collect.rule_sum_cases hlen' with ⟨fs, heq⟩ | ⟨t, c, heq⟩ <;> rw [heq] at hx <;>
        cases hx
    | @prod es hlen _ =>
      have hlen' : 2 ≤ (es.map collect).length := by rwa [List.length_map]
      rw [mapOperands] at hx
      rcases Collect.rule_prod_cases hlen' with ⟨fs, heq⟩ | ⟨k, vs, heq⟩ <;> rw [heq] at hx <;>
        cases hx
    | @pow a b ha hb =>
      have hone := collect_eq_num hb (pow.inj hx).2
      exact ⟨a, by rw [hone]; rfl⟩
    | _ => cases hx
  obtain ⟨a, ha⟩ := hpow
  -- nor do fractions bring a power in, so identities would have left `x ^ 1`
  have heq := mergeFractions_eq (e := applyIdentities (flatten m))
    (fun fs hfs => by rw [← prepare, ha] at hfs; cases hfs)
    (fun x y hxy => by rw [← prepare, ha] at hxy; cases hxy)
  rw [← prepare, ha] at heq
  cases hid : applyIdentities (flatten m) with
  | pow a' b' =>
    rw [hid, mapOperands, pow.injEq] at heq
    have hone := mergeFractions_eq_num (n := 1) heq.2.symm
    exact applyIdentities_ne_pow _ a' (hid.trans (by rw [hone]; rfl))
  | _ =>
    rw [hid] at heq
    cases heq

/-- A factor that is no power of the exponent `1` is made of its base and its exponent. -/
theorem Collect.alone_baseAndExponent (h : ∀ x, e ≠ .pow x 1) :
    alone .pow (baseAndExponent e).1 (baseAndExponent e).2 = e := by
  cases e with
  | pow x y => exact if_neg fun hy => h x (congrArg (Expr.pow x) hy)
  | _ => rfl

/-- A coefficient of another base than the term stays apart. -/
theorem collect_multiple (h : ∀ x, collect p ≠ .pow x 1)
    (hbase : (Collect.baseAndExponent (collect p)).1 ≠ .num a) :
    collect (.prod [.num a, p]) = .prod [.num a, collect p] := by
  have hkeys : (([Expr.num a, collect p].map Collect.baseAndExponent).map Prod.fst).Nodup := by
    simpa [Collect.baseAndExponent] using hbase.symm
  rw [collect_eq, mapOperands, List.map_cons, List.map_singleton]
  show Expr.prodOf ((Collect.group ([.num a, collect p].map Collect.baseAndExponent)).map _) = _
  rw [Collect.map_regroup_of_nodup _ hkeys]
  simp only [List.map_cons, List.map_nil]
  rw [Collect.alone_baseAndExponent h]
  rfl

/-- Multiples of one term are collected. -/
theorem collect_multiples (h : ∀ x, collect p ≠ .pow x 1)
    (ha : (Collect.baseAndExponent (collect p)).1 ≠ .num a)
    (hb : (Collect.baseAndExponent (collect p)).1 ≠ .num b) :
    collect (.sum [.prod [.num a, p], .prod [.num b, p]]) =
      .prod [.sum [.num a, .num b], collect p] := by
  rw [collect_eq, mapOperands, List.map_cons, List.map_singleton, collect_multiple h ha,
    collect_multiple h hb]
  simp [Collect.rule, Collect.termAndCoefficient, Collect.group, Collect.Groups.add,
    Collect.regroup, sumOf]

/-! ### Folding numbers -/

/-- Of an integer and a factor that is none, nothing is multiplied. -/
theorem Fold.product_multiple (he : e.num? = none) :
    product [.num a, e] = if a = 0 then 0 else if a = 1 then e else .prod [e, .num a] := by
  have ha : (Expr.num a).num? = some a := rfl
  have hints : [Expr.num a, e].filterMap num? = [a] := by simp [ha, he]
  have hothers : ([Expr.num a, e].filter fun e => e.num?.isNone) = [e] := by simp [ha, he]
  have hmul : multiply? [a] = some a := by simp [multiply?]
  rw [product_eq (hints ▸ hmul), hothers]
  split_ifs <;> simp_all [prodOf]

/-- Two integers whose product fits are multiplied. -/
theorem Fold.product_integers (h : c.toInt = a.toInt * b.toInt) :
    product [.num a, .num b] = .num c := by
  have hints : [Expr.num a, .num b].filterMap num? = [a, b] := rfl
  have hmul : multiply? [a, b] = some c := by
    simp [multiply?, Int64.mul?_eq_some_iff.2 h]
  rw [product_eq (hints ▸ hmul)]
  split_ifs with h0
  · rw [h0]
    rfl
  · rfl
  · simp_all [num?]

/-- A factor `1` is dropped when numbers are folded. -/
theorem Fold.product_one (e : Expr) : product [1, e] = e := by
  cases he : e.num? with
  | none => exact (product_multiple he).trans (by simp)
  | some n =>
    cases e <;> cases he
    exact product_integers (by simp)

/-- A factor `0` is all that is left when numbers are folded. -/
theorem Fold.product_zero (e : Expr) : product [0, e] = 0 := by
  cases he : e.num? with
  | none => exact (product_multiple he).trans (by simp)
  | some n =>
    cases e <;> cases he
    exact product_integers (by simp)

/-- Two integers are folded to their sum. -/
theorem fold_sum_integers (hc : c.toInt = a.toInt + b.toInt) :
    fold (.sum [.num a, .num b]) = .num c := by
  rw [fold_eq]
  show Fold.addends [.num a, .num b] = _
  have hfractions : [Expr.num a, .num b].filterMap fraction? = [⟨a, 1⟩, ⟨b, 1⟩] := rfl
  simp only [Fold.addends, hfractions, Fraction.sum?_integers hc]
  by_cases h0 : c = 0
  · simp [h0, sumOf, fraction?]
    rfl
  · simp [h0, ofFraction, sumOf, fraction?]

/-- If the tree is a fraction of integers, then it is written in lowest terms. -/
def Reduced (e : Expr) : Prop := ∀ q, e.fraction? = some q → q.IsLowest ∧ e = ofFraction q

/-- An integer is reduced. -/
theorem reduced_num (n : Int64) : Reduced (.num n) := by
  rintro q ⟨⟩
  exact ⟨.ofInt n, rfl⟩

/-- `0` may be added to what is no fraction, and to a number in lowest terms. -/
theorem Fold.addends_zero (h : Reduced e) :
    addends [0, e] = e ∧ addends [e, 0] = e := by
  have hzero : (0 : Expr).fraction? = some ⟨0, 1⟩ := rfl
  have hlow0 : Fraction.IsLowest ⟨0, 1⟩ := .ofInt 0
  cases he : e.fraction? with
  -- there is one number to fold, and the `0` is left out
  | none =>
    have hfractions : [0, e].filterMap fraction? = [⟨0, 1⟩] := by simp [hzero, he]
    have hfractions' : [e, 0].filterMap fraction? = [⟨0, 1⟩] := by simp [hzero, he]
    rw [addends_eq (by simp [hfractions]) (by simp [hfractions])
        (hfractions ▸ hlow0.sum?_singleton),
      addends_eq (by simp [hfractions']) (by simp [hfractions'])
        (hfractions' ▸ hlow0.sum?_singleton)]
    simp [hzero, he, sumOf]
  | some q =>
    obtain ⟨hlow, heq⟩ := h q he
    have hden : q.den ≠ 0 := Int64.ne_zero_iff_toInt_ne_zero.2 hlow.den_pos.ne'
    have hfractions : [0, e].filterMap fraction? = [⟨0, 1⟩, q] := by simp [hzero, he]
    have hfractions' : [e, 0].filterMap fraction? = [q, ⟨0, 1⟩] := by simp [hzero, he]
    -- there are two numbers; a sum `0` means that the other one is `0` as well
    have hnum : q.num = 0 → e = 0 := fun h0 => by
      rw [heq, hlow.eq_zero h0]
      rfl
    rw [addends_eq (by simp [hfractions]) (by simp [hfractions, hden])
        (hfractions ▸ hlow.sum?_zero.1),
      addends_eq (by simp [hfractions']) (by simp [hfractions', hden])
        (hfractions' ▸ hlow.sum?_zero.2)]
    simp only [List.filter_cons, hzero, he, Option.isNone_some, Bool.false_eq_true, if_false,
      List.filter_nil, List.nil_append, ← heq]
    split_ifs with h0
    · rw [hnum h0]
      exact ⟨rfl, rfl⟩
    · exact ⟨rfl, rfl⟩

/-- A product with a coefficient is reduced if its other factor is. -/
theorem Fold.reduced_product (h : Reduced e) : Reduced (product [.num a, e]) := by
  cases he : e.num? with
  | none =>
    rw [product_multiple he]
    split_ifs
    · exact reduced_num 0
    · exact h
    · exact fun q hq => by cases hq
  | some n =>
    cases e <;> cases he
    cases hmul : a.mul? n with
    | none =>
      have hints : multiply? ([Expr.num a, .num n].filterMap num?) = none := by
        show multiply? [a, n] = none
        simp [multiply?, hmul]
      simp only [product, hints]
      exact fun q hq => by cases hq
    | some c =>
      rw [product_integers (Int64.mul?_eq_some_iff.1 hmul)]
      exact reduced_num c

/-! ### One round -/

/-- What collecting and folding make alike, the remaining passes make alike. -/
theorem finish_congr (h : fold (collect e) = fold (collect f)) : finish e = finish f :=
  congrArg sortOperands h

/-- Folding a multiple folds the term first. -/
theorem fold_multiple (a : Int64) (f : Expr) :
    fold (.prod [.num a, f]) = Fold.product [.num a, fold f] := by
  rw [fold_eq]
  rfl

/-- One multiple beside a `0` is left alone. -/
theorem fold_collect_zero (h : p.WellFormed) (hp : p ≠ 0) (hpow : ∀ x, collect p ≠ .pow x 1)
    (hbase : (Collect.baseAndExponent (collect p)).1 ≠ .num a) (hlow : Reduced (fold (collect p))) :
    fold (collect (.sum [0, .prod [.num a, p]])) = fold (collect (.prod [.num a, p])) ∧
      fold (collect (.sum [.prod [.num a, p], 0])) = fold (collect (.prod [.num a, p])) := by
  -- both addends have keys of their own, so nothing is collected
  have hne : collect p ≠ 0 := fun h0 => hp (collect_eq_num h h0)
  have hfold : fold (Collect.alone Collect.multiple (collect p) (.num a)) =
      fold (.prod [.num a, collect p]) := by
    rw [Collect.alone]
    split_ifs with h1
    · rw [fold_multiple, h1]
      exact (Fold.product_one _).symm
    · rfl
  have hreduced : Reduced (fold (.prod [.num a, collect p])) := by
    rw [fold_multiple]
    exact Fold.reduced_product hlow
  obtain ⟨hleft, hright⟩ := Fold.addends_zero hreduced
  have hcollect : ∀ es : List Expr, ((es.map Collect.termAndCoefficient).map Prod.fst).Nodup →
      Collect.rule (.sum es) = sumOf ((es.map Collect.termAndCoefficient).map fun q =>
        Collect.alone Collect.multiple q.1 q.2) := fun es hes =>
    congrArg sumOf (Collect.map_regroup_of_nodup Collect.multiple hes)
  have hzero : collect 0 = 0 := rfl
  have hmultiple := collect_multiple hpow hbase
  rw [hmultiple]
  refine ⟨Eq.trans ?_ hleft, Eq.trans ?_ hright⟩
  · rw [collect_eq, mapOperands, List.map_cons, List.map_singleton, hzero, hmultiple,
      hcollect _ (by simpa [Collect.termAndCoefficient] using hne.symm), ← hfold, fold_eq]
    rfl
  · rw [collect_eq, mapOperands, List.map_cons, List.map_singleton, hzero, hmultiple,
      hcollect _ (by simpa [Collect.termAndCoefficient] using hne), ← hfold, fold_eq]
    rfl

/-- Two multiples of a term and the multiple by the sum of their coefficients become one tree. -/
theorem round_like_terms (hwf : m.WellFormed) (hprod : ∀ fs, m ≠ .prod fs)
    (hquot : ∀ x y, prepare m ≠ .quot x y)
    (hbase : (Collect.baseAndExponent (collect (prepare m))).1 ∉ [.num a, .num b, .num c])
    (hlow : Reduced (fold (collect (prepare m)))) (hc : c.toInt = a.toInt + b.toInt) :
    round (.sum [.prod [.num a, m], .prod [.num b, m]]) = round (.prod [.num c, m]) := by
  have hpow := collect_prepare_ne_pow hwf
  have hwf' := wellFormed_prepare hwf
  simp only [List.mem_cons, List.not_mem_nil, or_false, not_or] at hbase
  obtain ⟨ha, hb, hc'⟩ := hbase
  have hsum := prepare_sum [.prod [.num a, m], .prod [.num b, m]] (by simp)
  rw [round_eq_finish, round_eq_finish, hsum, List.map_cons, List.map_singleton,
    prepare_multiple hprod hquot, prepare_multiple hprod hquot, prepare_multiple hprod hquot]
  -- by cases: the term is `0`, one of the coefficients is, or both multiples are collected
  have hzeros : finish (.sum [0, 0]) = finish 0 := by decide
  by_cases hp : prepare m = 0
  · simpa [hp] using hzeros
  · generalize prepare m = p at *
    simp only [hp, or_false]
    by_cases ha0 : a = 0
    · have hcb : c = b := Int64.toInt_inj.1 (by rw [hc, ha0, Int64.toInt_zero, zero_add])
      subst hcb ha0
      by_cases hb0 : c = 0
      · simpa [hb0] using hzeros
      · simp only [hb0, if_true, if_false]
        exact finish_congr (fold_collect_zero hwf' hp hpow hb hlow).1
    · by_cases hb0 : b = 0
      · have hca : c = a := Int64.toInt_inj.1 (by rw [hc, hb0, Int64.toInt_zero, add_zero])
        subst hca hb0
        simp only [ha0, if_true, if_false]
        exact finish_congr (fold_collect_zero hwf' hp hpow ha hlow).2
      -- the coefficients are added, and the sum is what the other side has
      · simp only [ha0, hb0, if_false]
        have hcollected : fold (collect (.sum [.prod [.num a, p], .prod [.num b, p]])) =
            Fold.product [.num c, fold (collect p)] := by
          rw [collect_multiples hpow ha hb, fold_eq, mapOperands, List.map_cons, List.map_singleton,
            fold_sum_integers hc]
          rfl
        refine finish_congr (hcollected.trans ?_)
        split_ifs with hc0
        · rw [hc0]
          exact Fold.product_zero _
        · rw [collect_multiple hpow hc', fold_multiple]

/-- A term that is neither sum nor product takes its negative away. -/
theorem round_subtract_self (hwf : m.WellFormed) (hsum : ∀ fs, m ≠ .sum fs)
    (hprod : ∀ fs, m ≠ .prod fs) (hquot : ∀ x y, prepare m ≠ .quot x y)
    (hcollect : ∀ fs, collect (prepare m) ≠ .prod fs)
    (hbase : (Collect.baseAndExponent (collect (prepare m))).1 ≠ .num (-1)) :
    round (.subtract m m) = 0 := by
  have hpow := collect_prepare_ne_pow hwf
  have hprepare := prepare_sum [m, .prod [.num (-1), m]] (by simpa using hsum)
  rw [round_eq_finish, subtract, negate, hprepare, List.map_cons, List.map_singleton,
    prepare_multiple hprod hquot]
  generalize prepare m = p at *
  by_cases hp : p = 0
  · subst hp
    decide
  · have hne : ¬((-1 : Int64) = 0 ∨ p = 0) := by simpa using hp
    -- the term is taken with the coefficient `1`, and its negative with `-1`
    have hterm : Collect.termAndCoefficient (collect p) = (collect p, 1) := by
      unfold Collect.termAndCoefficient
      split
      · next c t heq => exact absurd heq (hcollect _)
      · rfl
    have hcollected : collect (.sum [p, .prod [.num (-1), p]]) =
        .prod [.sum [1, .num (-1)], collect p] := by
      rw [collect_eq, mapOperands, List.map_cons, List.map_singleton, collect_multiple hpow hbase,
        Collect.rule, List.map_cons, List.map_singleton, hterm]
      simp [Collect.termAndCoefficient, Collect.group, Collect.Groups.add, Collect.regroup, sumOf]
    have hfolded : fold (collect (.sum [p, .prod [.num (-1), p]])) = 0 := by
      have hzero : fold (.sum [1, .num (-1)]) = 0 := by decide
      rw [hcollected, fold_eq, mapOperands, List.map_cons, List.map_singleton, hzero]
      exact Fold.product_zero _
    rw [if_neg hne, finish, hfolded]
    rfl

/-! ### Simplification -/

/-- What is repeated from values that one step makes equal ends at one value. -/
theorem eq_of_converge {α : Type*} [DecidableEq α] {step : α → α} {limit limit' : ℕ} {x y s t : α}
    (h : step x = step y) (hs : converge step limit x = .ok s)
    (ht : converge step limit' y = .ok t) : s = t := by
  have hfix := step_eq_of_converge hs
  have hfix' := step_eq_of_converge ht
  obtain ⟨k, rfl⟩ := converge_eq_iterate (.inl hs)
  obtain ⟨j, rfl⟩ := converge_eq_iterate (.inl ht)
  calc step^[k] x
      = step^[j + 1] (step^[k] x) := (Function.iterate_fixed hfix (j + 1)).symm
    _ = step^[j + k] (step x) := by
        rw [← Function.iterate_add_apply, ← Function.iterate_succ_apply, Nat.add_right_comm]
    _ = step^[k + 1] (step^[j] y) := by
        rw [h, ← Function.iterate_add_apply, ← Function.iterate_succ_apply, Nat.add_right_comm,
          Nat.add_comm j k]
    _ = step^[j] y := Function.iterate_fixed hfix' (k + 1)

/-- A term that is no product, is not prepared to a quotient, and has none of the coefficients as
base is added by adding coefficients. If it is no sum either, and its addends are not collected to a
multiple, then the difference of it and itself is `0`. -/
theorem simplify_like_terms (hwf : m.WellFormed) (hprod : ∀ fs, m ≠ .prod fs)
    (hquot : ∀ x y, prepare m ≠ .quot x y) :
    (∀ (a b c : Int64) (s t : Expr), c.toInt = a.toInt + b.toInt →
      (Collect.baseAndExponent (collect (prepare m))).1 ∉ [.num a, .num b, .num c] →
      Reduced (fold (collect (prepare m))) →
      simplify none (.sum [.prod [.num a, m], .prod [.num b, m]]) = .ok s →
      simplify none (.prod [.num c, m]) = .ok t → s = t) ∧
    ((∀ fs, m ≠ .sum fs) → (∀ fs, collect (prepare m) ≠ .prod fs) →
      (Collect.baseAndExponent (collect (prepare m))).1 ≠ .num (-1) →
      simplify none (.subtract m m) = .ok 0) := by
  constructor
  · intro a b c s t hc hbase hlow hs ht
    exact eq_of_converge (round_like_terms hwf hprod hquot hbase hlow hc) hs ht
  · intro hsum hcollect hbase
    have hround := round_subtract_self hwf hsum hprod hquot hcollect hbase
    have hzero : round 0 = 0 := by decide
    exact converge_eq_ok (k := 1) (by rw [Function.iterate_one, hround, hzero]) (by decide)
      |>.trans (by rw [Function.iterate_one, hround])

/-- `2 * x + 3 * x` is `5 * x`, and `x - x` is `0`. -/
theorem simplify_like_terms_variable :
    (∀ t, simplify none (.prod [.num 5, .var "x"]) = .ok t → .prod [.num 5, .var "x"] = t) ∧
      simplify none (.subtract (.var "x") (.var "x")) = .ok 0 := by
  have hprepare : prepare (.var "x") = .var "x" := by decide
  have hcollect : collect (.var "x") = .var "x" := by decide
  obtain ⟨hsum, hdifference⟩ := simplify_like_terms (m := .var "x") (.var "x") (by simp)
    (by simp [hprepare])
  rw [hprepare, hcollect] at hsum hdifference
  refine ⟨fun t => hsum 2 3 5 _ t (by decide) (by decide) ?_ (by decide), ?_⟩
  · rintro q ⟨⟩
  · exact hdifference (by simp) (by simp) (by decide)

/-- Products, quotients and powers of a coefficient are not met as like terms: the difference of
`x * y` and itself stays, and so do the sums of two multiples of `x / y` and of `2 ^ x`. Nor does
the sum `x + y` take its negative away. -/
theorem simplify_like_terms_ne :
    simplify none (.subtract (.prod [.var "x", .var "y"]) (.prod [.var "x", .var "y"])) =
      .ok (.sum [.prod [.num (-1), .var "x", .var "y"], .prod [.var "x", .var "y"]]) ∧
    simplify none (.sum [.prod [.num 2, .quot (.var "x") (.var "y")],
        .prod [.num 3, .quot (.var "x") (.var "y")]]) =
      .ok (.sum [.quot (.prod [.num 2, .var "x"]) (.var "y"),
        .quot (.prod [.num 3, .var "x"]) (.var "y")]) ∧
    simplify none (.prod [.num 5, .quot (.var "x") (.var "y")]) =
      .ok (.quot (.prod [.num 5, .var "x"]) (.var "y")) ∧
    simplify none (.sum [.prod [.num 2, .pow (.num 2) (.var "x")],
        .prod [.num 3, .pow (.num 2) (.var "x")]]) =
      .ok (.sum [.prod [.num 3, .pow (.num 2) (.var "x")], .pow (.num 2) (.sum [1, .var "x"])]) ∧
    simplify none (.prod [.num 5, .pow (.num 2) (.var "x")]) =
      .ok (.prod [.num 5, .pow (.num 2) (.var "x")]) ∧
    simplify none (.subtract (.sum [.var "x", .var "y"]) (.sum [.var "x", .var "y"])) =
      .ok (.sum [.var "x", .var "y", .prod [.num (-1), .sum [.var "x", .var "y"]]]) := by
  decide

end Simplification

end ComputerAlgebra
