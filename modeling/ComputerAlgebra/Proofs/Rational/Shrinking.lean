import ComputerAlgebra.Proofs.Rational.Closed
import ComputerAlgebra.Proofs.Rational.Fitting
import ComputerAlgebra.Proofs.Simplification.Arity

/-!
# Rounds shrink closed trees

No rule raises the magnitude of a closed tree, so numerators and denominators that fit into 64 bits
at first do so after every round (`shrinks_round`). The rules are taken one node at a time, in the
order of the passes.
-/

namespace ComputerAlgebra

namespace Simplification

open ComputerAlgebra.Expr Magnitude

variable {a b e : Expr} {es : List Expr}

/-! ### Flattening -/

/-- The addends of a closed tree are closed, and there are some. -/
theorem Flatten.closed_addends (h : Closed e) : addends e ≠ [] ∧ ∀ e' ∈ addends e, Closed e' := by
  cases h with
  | sum hlen h => exact ⟨List.ne_nil_of_length_pos (by simp only [addends]; omega), h⟩
  | _ => simp_all [addends, Closed.num, Closed.prod, Closed.quot, Closed.pow]

/-- The factors of a closed tree are closed, and there are some. -/
theorem Flatten.closed_factors (h : Closed e) : factors e ≠ [] ∧ ∀ e' ∈ factors e, Closed e' := by
  cases h with
  | prod hlen h => exact ⟨List.ne_nil_of_length_pos (by simp only [factors]; omega), h⟩
  | _ => simp_all [factors, Closed.num, Closed.sum, Closed.quot, Closed.pow]

theorem Flatten.shrinks_splice (h : Closed e) : Shrinks e (splice e) := by
  cases h with
  | @sum es hlen h =>
    refine ⟨.sum (hlen.trans (length_le_of_two_le fun e he => (closed_addends (h e he)).1)) ?_, ?_⟩
    · intro e he
      obtain ⟨e', he', hmem⟩ := List.mem_flatMap.1 he
      exact (closed_addends (h e' he')).2 e hmem
    · rw [splice, magnitude_sum, magnitude_sum, sum_flatMap_addends magnitude_sum]
  | @prod es hlen h =>
    refine ⟨.prod (hlen.trans (length_le_of_two_le fun e he => (closed_factors (h e he)).1)) ?_, ?_⟩
    · intro e he
      obtain ⟨e', he', hmem⟩ := List.mem_flatMap.1 he
      exact (closed_factors (h e' he')).2 e hmem
    · rw [splice, magnitude_prod, magnitude_prod, prod_flatMap_factors magnitude_prod]
  | num n => exact .refl (.num n)
  | quot ha hb => exact .refl (.quot ha hb)
  | pow ha hb hpos => exact .refl (.pow ha hb hpos)

theorem shrinks_flatten (h : Closed e) : Shrinks e (flatten e) := by
  rw [flatten_eq_bottomUp]
  exact .bottomUp (fun _ => Flatten.shrinks_splice) h

/-! ### Identities -/

/-- Identities of quotients make closed trees no larger: dividing by `1` and dividing `0` are
undone. -/
theorem Identities.shrinks_quotient (ha : Closed a) (hb : Closed b) :
    Shrinks (.quot a b) (quotient a b) := by
  rw [quotient]
  split_ifs with h1 h2
  · subst h1
    exact ⟨ha, by simp⟩
  · obtain ⟨rfl, -⟩ := h2
    exact .to_zero (.quot ha hb) (by simp [ofInt])
  · exact .to_one (.quot ha hb)
  · exact .refl (.quot ha hb)

/-- Identities of powers make closed trees no larger: a power of an integer has at most the
magnitude of the tree. -/
theorem Identities.shrinks_power (h : Closed (.pow a b)) : Shrinks (.pow a b) (power a b) := by
  obtain ⟨-, heq⟩ | ⟨rfl, heq⟩ | ⟨n, m, rfl, rfl, heq⟩ | ⟨-, heq⟩ := power_cases a b
  · rw [heq]
    exact .to_one h
  · cases h with
    | pow ha _ _ =>
      rw [heq]
      exact ⟨ha, by simp⟩
  · cases h with
    | pow _ _ hpos =>
      rw [magnitude_num, isPositive_ofInt_iff] at hpos
      obtain ⟨-, v, hv, heq⟩ | ⟨hneg, -⟩ := integerPower?_eq_some heq
      · rw [heq]
        refine ⟨.num v, ?_⟩
        rw [magnitude_pow, magnitude_num, magnitude_num, magnitude_num, num_ofInt hpos,
          Int64.pow?_eq_some hv]
        exact ofInt_pow_le _ _
      · omega
  · rw [heq]
    exact .refl h

theorem Identities.shrinks_rule (h : Closed e) : Shrinks e (rule e) := by
  cases h with
  | num n => exact .refl (.num n)
  | sum hlen h => exact .refl (.sum hlen h)
  | @prod es hlen h =>
    rw [rule]
    split_ifs with h0
    · refine .to_zero (.prod hlen h) ?_
      rw [magnitude_prod]
      exact le_trans (by simp [ofInt]) (le_prod_magnitude h h0).2.2
    · exact .refl (.prod hlen h)
  | quot ha hb => exact shrinks_quotient ha hb
  | pow ha hb hpos => exact shrinks_power (.pow ha hb hpos)

theorem shrinks_applyIdentities (h : Closed e) : Shrinks e (applyIdentities e) :=
  .bottomUp (fun _ => Identities.shrinks_rule) h

/-! ### Fractions -/

theorem Fractions.shrinks_quotient (ha : Closed a) (hb : Closed b) :
    Shrinks (.quot a b) (quotient a b) := by
  unfold quotient
  split
  · next a c =>
    cases ha with
    | quot ha hc =>
      refine ⟨.quot ha (.prod (by simp) (by simp [hc, hb])), le_of_eq ?_⟩
      ext <;> simp <;> ring
  · next c d _ =>
    cases hb with
    | quot hc hd =>
      refine ⟨.quot (.prod (by simp) (by simp [ha, hd])) hc, le_of_eq ?_⟩
      ext <;> simp <;> ring
  · exact .refl (.quot ha hb)

theorem Fractions.closed_parts (h : ∀ e ∈ es, Closed e) :
    (∀ e ∈ es.map numerator, Closed e) ∧ (∀ e ∈ es.filterMap denominator?, Closed e) := by
  constructor
  · refine List.forall_mem_map.2 fun e he => ?_
    have hc := h e he
    cases hc with
    | quot ha _ => exact ha
    | _ => exact h _ he
  · intro b hb
    obtain ⟨e, he, hb⟩ := List.mem_filterMap.1 hb
    have hc := h e he
    cases hc with
    | quot _ hb' =>
      cases hb
      exact hb'
    | _ => cases hb

/-- A product is the product of the numerators over the product of the denominators. -/
theorem Fractions.magnitude_parts (es : List Expr) :
    ((es.map numerator).map magnitude).prod * (((es.filterMap denominator?).map magnitude).prod)⁻¹ =
      (es.map magnitude).prod := by
  induction es with
  | nil => rfl
  | cons e es ih =>
    rw [List.map_cons, List.map_cons, List.prod_cons, List.map_cons, List.prod_cons, ← ih]
    rcases eq_quot_or e with ⟨a, b, rfl⟩ | ⟨hn, hd⟩
    · have hb : denominator? (.quot a b) = some b := rfl
      rw [List.filterMap_cons_some hb, List.map_cons, List.prod_cons, numerator, magnitude_quot]
      ext <;> simp <;> ring
    · rw [List.filterMap_cons_none hd, hn, mul_assoc]

/-- Moving denominators out of a product makes it no larger, for a magnitude counts them apart
anyway. -/
theorem Fractions.shrinks_product (hlen : 2 ≤ es.length) (h : ∀ e ∈ es, Closed e) :
    Shrinks (.prod es) (product es) := by
  obtain ⟨hnum, hden⟩ := closed_parts h
  rw [product]
  split
  · exact .refl (.prod hlen h)
  · next hdens =>
    have hnums : es.map numerator ≠ [] := by
      simpa using List.ne_nil_of_length_pos (by omega : 0 < es.length)
    refine ⟨.quot (.prodOf hnum) (.prodOf hden), ?_⟩
    rw [magnitude_quot, magnitude_prodOf hnums, magnitude_prodOf hdens, magnitude_parts,
      magnitude_prod]

theorem Fractions.shrinks_rule (h : Closed e) : Shrinks e (rule e) := by
  cases h with
  | num n => exact .refl (.num n)
  | sum hlen h => exact .refl (.sum hlen h)
  | prod hlen h => exact shrinks_product hlen h
  | quot ha hb => exact shrinks_quotient ha hb
  | pow ha hb hpos => exact .refl (.pow ha hb hpos)

theorem shrinks_mergeFractions (h : Closed e) : Shrinks e (mergeFractions e) :=
  .bottomUp (fun _ => Fractions.shrinks_rule) h

/-! ### Like terms -/

/-- An addend of a closed sum has the magnitude of coefficient and term together. -/
theorem Collect.closed_termAndCoefficient (h : Closed e) :
    Closed (termAndCoefficient e).1 ∧ Closed (termAndCoefficient e).2 ∧
      (termAndCoefficient e).2.magnitude * (termAndCoefficient e).1.magnitude = e.magnitude := by
  unfold termAndCoefficient
  split
  · cases h with
    | prod _ h => simp_all
  · exact ⟨h, .one, by simp⟩

/-- Equal terms have at most the magnitude together that they have one by one. -/
theorem Collect.shrinks_multiple {g : Expr × List Expr} (hne : g.2 ≠ []) (hkey : Closed g.1)
    (hvalues : ∀ v ∈ g.2, Closed v) :
    Closed (regroup (fun t c => .prod [c, t]) g) ∧
      (regroup (fun t c => .prod [c, t]) g).magnitude ≤
        (g.2.map fun v => v.magnitude * g.1.magnitude).sum := by
  rcases regroup_eq (fun t c => .prod [c, t]) hne with ⟨h, h1⟩ | h
  · rw [h, h1]
    exact ⟨hkey, by simp⟩
  · rw [h]
    refine ⟨.prod (by simp) (by simp [hkey, Closed.sumOf hvalues]), ?_⟩
    have hle := sum_mul_le (l := g.2.map magnitude) (by simpa using hne)
      (List.forall_mem_map.2 fun v hv => (hvalues v hv).one_le_magnitude) hkey.one_le_magnitude
    rw [List.map_map] at hle
    simpa [magnitude_sumOf hne, Function.comp_def] using hle

theorem Collect.shrinks_sum (hlen : 2 ≤ es.length) (h : ∀ e ∈ es, Closed e) :
    Shrinks (.sum es) (rule (.sum es)) := by
  have hpairs : ∀ p ∈ es.map termAndCoefficient, Closed p.1 ∧ Closed p.2 :=
    List.forall_mem_map.2 fun e he =>
      have hterm := closed_termAndCoefficient (h e he)
      ⟨hterm.1, hterm.2.1⟩
  have hgroups := fun g hg => shrinks_multiple (group_ne_nil _ g hg)
    (forall_group_key _ (fun p hp => (hpairs p hp).1) g hg)
    (forall_group_value _ (fun p hp => (hpairs p hp).2) g hg)
  have hne : group (es.map termAndCoefficient) ≠ [] := group_ne_nil_of_ne_nil <| by
    simpa using List.ne_nil_of_length_pos (by omega : 0 < es.length)
  refine ⟨.sumOf (List.forall_mem_map.2 fun g hg => (hgroups g hg).1), ?_⟩
  calc (rule (.sum es)).magnitude
      ≤ ((group (es.map termAndCoefficient)).map fun g =>
          (g.2.map fun v => v.magnitude * g.1.magnitude).sum).sum := by
        rw [rule, magnitude_sumOf (by simpa using hne), List.map_map]
        exact List.sum_le_sum fun g hg => (hgroups g hg).2
    _ = ((es.map termAndCoefficient).map fun p => p.2.magnitude * p.1.magnitude).sum := by
        rw [← Groups.sum_map_pairs fun k v => v.magnitude * k.magnitude]
        exact ((group_pairs_perm _).map _).sum_eq
    _ = (Expr.sum es).magnitude := by
        rw [List.map_map, magnitude_sum]
        exact congrArg _ (List.map_congr_left fun e he => (closed_termAndCoefficient (h e he)).2.2)

/-- A factor of a closed product has the magnitude of the power as which it is collected. -/
theorem Collect.closed_baseAndExponent (h : Closed e) :
    Closed (baseAndExponent e).1 ∧ Closed (baseAndExponent e).2 ∧
      (baseAndExponent e).2.magnitude.IsPositive ∧
      (baseAndExponent e).1.magnitude ^ (baseAndExponent e).2.magnitude.num = e.magnitude := by
  cases h with
  | pow ha hb hpos => exact ⟨ha, hb, hpos, by simp [baseAndExponent]⟩
  | num n => exact ⟨.num n, .one, by simp [baseAndExponent, IsPositive.one]⟩
  | sum hlen h => exact ⟨.sum hlen h, .one, by simp [baseAndExponent, IsPositive.one]⟩
  | prod hlen h => exact ⟨.prod hlen h, .one, by simp [baseAndExponent, IsPositive.one]⟩
  | quot ha hb => exact ⟨.quot ha hb, .one, by simp [baseAndExponent, IsPositive.one]⟩

/-- Equal factors have the magnitude together that they have one by one. -/
theorem Collect.shrinks_power {g : Expr × List Expr} (hne : g.2 ≠ []) (hkey : Closed g.1)
    (hvalues : ∀ v ∈ g.2, Closed v) (hpos : ∀ v ∈ g.2, v.magnitude.IsPositive) :
    Closed (regroup .pow g) ∧
      (regroup .pow g).magnitude = (g.2.map fun v => g.1.magnitude ^ v.magnitude.num).prod := by
  rcases regroup_eq .pow hne with ⟨h, h1⟩ | h
  · rw [h, h1]
    exact ⟨hkey, by simp⟩
  · obtain ⟨hsum, hpow⟩ := IsPositive.pow_sum g.1.magnitude (List.forall_mem_map.2 hpos)
    rw [h]
    refine ⟨.pow hkey (.sumOf hvalues) (by rwa [magnitude_sumOf hne]), ?_⟩
    rw [magnitude_pow, magnitude_sumOf hne, hpow, List.map_map]
    rfl

theorem Collect.shrinks_prod (hlen : 2 ≤ es.length) (h : ∀ e ∈ es, Closed e) :
    Shrinks (.prod es) (rule (.prod es)) := by
  have hpairs : ∀ p ∈ es.map baseAndExponent, Closed p.1 ∧ Closed p.2 ∧ p.2.magnitude.IsPositive :=
    List.forall_mem_map.2 fun e he =>
      have hbase := closed_baseAndExponent (h e he)
      ⟨hbase.1, hbase.2.1, hbase.2.2.1⟩
  have hgroups := fun g hg => shrinks_power (group_ne_nil _ g hg)
    (forall_group_key _ (fun p hp => (hpairs p hp).1) g hg)
    (forall_group_value _ (fun p hp => (hpairs p hp).2.1) g hg)
    (forall_group_value _ (fun p hp => (hpairs p hp).2.2) g hg)
  have hne : group (es.map baseAndExponent) ≠ [] := group_ne_nil_of_ne_nil <| by
    simpa using List.ne_nil_of_length_pos (by omega : 0 < es.length)
  refine ⟨.prodOf (List.forall_mem_map.2 fun g hg => (hgroups g hg).1), le_of_eq ?_⟩
  calc (rule (.prod es)).magnitude
      = ((group (es.map baseAndExponent)).map fun g =>
          (g.2.map fun v => g.1.magnitude ^ v.magnitude.num).prod).prod := by
        rw [rule, magnitude_prodOf (by simpa using hne), List.map_map]
        exact congrArg _ (List.map_congr_left fun g hg => (hgroups g hg).2)
    _ = ((es.map baseAndExponent).map fun p => p.1.magnitude ^ p.2.magnitude.num).prod := by
        rw [← Groups.prod_map_pairs fun k v => k.magnitude ^ v.magnitude.num]
        exact ((group_pairs_perm _).map _).prod_eq
    _ = (Expr.prod es).magnitude := by
        rw [List.map_map, magnitude_prod]
        exact congrArg _ (List.map_congr_left fun e he => (closed_baseAndExponent (h e he)).2.2.2)

theorem Collect.shrinks_rule (h : Closed e) : Shrinks e (rule e) := by
  cases h with
  | num n => exact .refl (.num n)
  | sum hlen h => exact shrinks_sum hlen h
  | prod hlen h => exact shrinks_prod hlen h
  | quot ha hb => exact .refl (.quot ha hb)
  | pow ha hb hpos => exact .refl (.pow ha hb hpos)

theorem shrinks_collect (h : Closed e) : Shrinks e (collect e) :=
  .bottomUp (fun _ => Collect.shrinks_rule) h

/-! ### Numbers -/

/-- What is read as a fraction has the magnitude of the fraction. -/
theorem magnitude_of_fraction? {q : Fraction} (h : e.fraction? = some q) :
    e.magnitude = q.magnitude := by
  unfold fraction? at h
  split at h <;> cases h <;> simp [Fraction.magnitude]

/-- What is read as an integer has the magnitude of the integer. -/
theorem magnitude_of_num? {n : Int64} (h : e.num? = some n) : e.magnitude = ofInt n.toInt := by
  unfold num? at h
  split at h <;> cases h
  exact magnitude_num n

/-- A fraction is a closed tree. -/
theorem closed_ofFraction (q : Fraction) : Closed (ofFraction q) := by
  rw [ofFraction]
  split_ifs
  · exact .num _
  · exact .quot (.num _) (.num _)

/-- Lowest terms are as small as a fraction can be. -/
theorem magnitude_ofFraction_le {m : Magnitude} {q : Fraction} (hm : 1 ≤ m) (hq : q.IsLowest)
    (h : Bounds m q.toRat) : (ofFraction q).magnitude ≤ m := by
  have heq : (ofFraction q).magnitude = q.magnitude := by
    rw [ofFraction]
    split_ifs with h1 <;> simp [Fraction.magnitude, h1]
  have hpos := hq.den_pos
  have hnum := h.num
  have hden := hq.den_eq ▸ Int.ofNat_le.2 h.den
  rw [hq.num_eq] at hnum
  rw [heq]
  refine ⟨?_, ?_, ?_⟩
  · have := hm.1
    simp only [Fraction.magnitude, ofInt, num_mul, num_inv, num_one] at this ⊢
    omega
  · simp only [Fraction.magnitude, ofInt, den_mul, den_inv]
    omega
  · simp only [Fraction.magnitude, ofInt, signs_mul, signs_inv, if_neg (not_le.2 hpos)]
    split_ifs with hle
    · refine h.signs ?_
      rw [← Rat.num_nonpos, hq.num_eq]
      exact hle
    · exact Nat.zero_le _

/-- Folding a quotient of numbers makes it no larger: reducing only cancels. -/
theorem Fold.shrinks_quotient (ha : Closed a) (hb : Closed b) :
    Shrinks (.quot a b) (quotient a b) := by
  unfold quotient
  split
  · next n d =>
    split_ifs with hd
    · exact .refl (.quot ha hb)
    · cases hr : Fraction.reduce? ⟨n, d⟩ with
      | none => exact .refl (.quot ha hb)
      | some q =>
        obtain ⟨hlow, hval⟩ := Fraction.reduce?_eq_some hd hr
        refine ⟨closed_ofFraction q, ?_⟩
        rw [magnitude_of_fraction? (e := .quot (.num n) (.num d)) rfl]
        exact magnitude_ofFraction_le (Fraction.one_le_magnitude _) hlow
          (hval ▸ Fraction.bounds_toRat hd)
  · exact .refl (.quot ha hb)

theorem Fold.shrinks_product (hlen : 2 ≤ es.length) (h : ∀ e ∈ es, Closed e) :
    Shrinks (.prod es) (product es) := by
  have hclosed : ∀ e ∈ es.filter fun e => e.num?.isNone, Closed e := fun e he =>
    h e (List.mem_of_mem_filter he)
  have hsplit := prod_split (fun e n => magnitude_of_num? (e := e) (n := n)) es
  simp only [product]
  cases hc : multiply? (es.filterMap num?) with
  | none => exact .refl (.prod hlen h)
  | some c =>
    -- the product of the integers has at most the product of their magnitudes
    have hle : (Expr.num c).magnitude ≤
        ((es.filterMap num?).map fun n => ofInt n.toInt).prod := by
      have hprod := ofInt_prod_le ((es.filterMap num?).map Int64.toInt)
      rwa [← multiply?_eq_some hc, List.map_map] at hprod
    have hone : 1 ≤ ((es.filterMap num?).map fun n => ofInt n.toInt).prod :=
      List.one_le_prod_of_one_le (List.forall_mem_map.2 fun n _ => one_le_ofInt _)
    have hothers : 1 ≤ ((es.filter fun e => e.num?.isNone).map magnitude).prod :=
      List.one_le_prod_of_one_le (List.forall_mem_map.2 fun e he => (hclosed e he).one_le_magnitude)
    dsimp only
    split_ifs with h0 h1
    -- the product is `0`: what it leaves out has a magnitude of at least `1`
    · refine ⟨.zero, ?_⟩
      rw [magnitude_prod, ← hsplit]
      exact (h0 ▸ hle).trans (le_mul_of_one_le_right' hothers)
    · refine ⟨.prodOf fun e he => ?_, ?_⟩
      · rcases List.mem_append.1 he with he | he
        · exact hclosed e he
        · rw [List.mem_singleton.1 he]
          exact .num c
      · rw [magnitude_prodOf (by simp), List.map_append, List.prod_append, magnitude_prod, ← hsplit,
          mul_comm]
        exact mul_le_mul_left (by simpa using hle) _
    · rw [not_or] at h1
      refine ⟨.prodOf hclosed, ?_⟩
      rw [magnitude_prodOf h1.2, magnitude_prod, ← hsplit]
      exact le_mul_of_one_le_left' hone

/-- Folding the numbers of a sum makes it no larger, since the value of the numbers bounds their
sum. -/
theorem Fold.shrinks_addends (hlen : 2 ≤ es.length) (h : ∀ e ∈ es, Closed e) :
    Shrinks (.sum es) (addends es) := by
  have hclosed : ∀ e ∈ es.filter fun e => e.fraction?.isNone, Closed e := fun e he =>
    h e (List.mem_of_mem_filter he)
  have hsplit := sum_split (fun e q => magnitude_of_fraction? (e := e) (q := q)) es
  simp only [addends]
  split_ifs with hnone
  · exact .refl (.sum hlen h)
  · rw [not_or] at hnone
    have hdens : ∀ q ∈ es.filterMap fraction?, q.den ≠ 0 := fun q hq h0 =>
      hnone.2 (List.any_eq_true.2 ⟨q, hq, by simpa using h0⟩)
    cases hs : Fraction.sum? (es.filterMap fraction?) with
    | none => exact .refl (.sum hlen h)
    | some q =>
      obtain ⟨hlow, hval⟩ := Fraction.sum?_eq_some hdens hs
      have hone : 1 ≤ ((es.filterMap fraction?).map Fraction.magnitude).sum :=
        one_le_sum (by simpa using hnone.1)
          (List.forall_mem_map.2 fun q _ => q.one_le_magnitude)
      have hle := magnitude_ofFraction_le hone hlow (hval ▸ Fraction.bounds_sum hnone.1 hdens)
      have hothers : 0 ≤ ((es.filter fun e => e.fraction?.isNone).map magnitude).sum :=
        List.sum_nonneg (List.forall_mem_map.2 fun e he =>
          zero_le_of_one_le (hclosed e he).one_le_magnitude)
      dsimp only
      refine ⟨.sumOf ?_, ?_⟩
      · split_ifs
        · exact hclosed
        · exact List.forall_mem_append.2 ⟨hclosed, by simpa using closed_ofFraction q⟩
      · rw [magnitude_sum, ← hsplit]
        split_ifs with h0
        · -- a sum `0` of all the addends is written, with the magnitude of the folded one
          by_cases hnil : es.filter (fun e => e.fraction?.isNone) = []
          · rw [hlow.eq_zero h0] at hle
            rw [hnil, List.map_nil, List.sum_nil, add_zero]
            exact hle
          · rw [magnitude_sumOf hnil]
            exact le_add_of_nonneg_left (zero_le_of_one_le hone)
        · rw [magnitude_sumOf (by simp), List.map_append, List.sum_append, add_comm]
          exact add_le_add_left (by simpa using hle) _

theorem Fold.shrinks_rule (h : Closed e) : Shrinks e (rule e) := by
  cases h with
  | num n => exact .refl (.num n)
  | sum hlen h => exact shrinks_addends hlen h
  | prod hlen h => exact shrinks_product hlen h
  | quot ha hb => exact shrinks_quotient ha hb
  | pow ha hb hpos => exact .refl (.pow ha hb hpos)

theorem shrinks_fold (h : Closed e) : Shrinks e (fold e) :=
  .bottomUp (fun _ => Fold.shrinks_rule) h

/-! ### Sorting and rounds -/

theorem Sorting.shrinks_rule (h : Closed e) : Shrinks e (rule e) := by
  cases h with
  | num n => exact .refl (.num n)
  | @sum es hlen h =>
    have hperm := Sorted.sort_perm Expr.le es
    refine ⟨.sum (by rwa [hperm.length_eq]) fun e he => h e (hperm.mem_iff.1 he), ?_⟩
    rw [rule, magnitude_sum, magnitude_sum, (hperm.map _).sum_eq]
  | @prod es hlen h =>
    have hperm := Sorted.sort_perm Expr.le es
    refine ⟨.prod (by rwa [hperm.length_eq]) fun e he => h e (hperm.mem_iff.1 he), ?_⟩
    rw [rule, magnitude_prod, magnitude_prod, (hperm.map _).prod_eq]
  | quot ha hb => exact .refl (.quot ha hb)
  | pow ha hb hpos => exact .refl (.pow ha hb hpos)

theorem shrinks_sortOperands (h : Closed e) : Shrinks e (sortOperands e) :=
  .bottomUp (fun _ => Sorting.shrinks_rule) h

theorem shrinks_round (h : Closed e) : Shrinks e (round e) := by
  have h1 := shrinks_flatten h
  have h2 := h1.trans (shrinks_applyIdentities h1.closed)
  have h3 := h2.trans (shrinks_mergeFractions h2.closed)
  have h4 := h3.trans (shrinks_collect h3.closed)
  have h5 := h4.trans (shrinks_fold h4.closed)
  exact h5.trans (shrinks_sortOperands h5.closed)

/-- Rounds make closed trees no larger, however many there are. -/
theorem shrinks_iterate_round (h : Closed e) (k : ℕ) : Shrinks e (round^[k] e) := by
  induction k with
  | zero => exact .refl h
  | succ k ih =>
    rw [Function.iterate_succ_apply']
    exact ih.trans (shrinks_round ih.closed)

end Simplification

end ComputerAlgebra
