import ComputerAlgebra.Proofs.Simplification.Constants
import ComputerAlgebra.Proofs.Vanishing.Collecting

/-!
# Folding and sorting tame trees

Folding adds what the exponents of collected factors count, so that they are integers again, as long
as they fit (`Counting.bottomUp_sorted`).
-/

namespace ComputerAlgebra

theorem Fraction.toRat_eq_zero_iff {q : Fraction} (hd : q.den ≠ 0) : q.toRat = 0 ↔ q.num = 0 := by
  have hd' : (q.den.toInt : ℚ) ≠ 0 := by exact_mod_cast Int64.ne_zero_iff_toInt_ne_zero.1 hd
  rw [toRat, div_eq_zero_iff, or_iff_left hd', ← Int64.toInt_inj, Int64.toInt_zero]
  norm_cast

namespace Simplification

open ComputerAlgebra.Expr Magnitude

variable {a b e : Expr} {es : List Expr} {q : Fraction}

/-! ### Numbers -/

/-- A fraction in lowest terms is tame at any stage. -/
theorem tame_ofFraction {σ : Stage} (hq : q.IsLowest) : Tame σ (ofFraction q) := by
  rcases ofFraction_cases q with ⟨-, h⟩ | ⟨-, h⟩
  · rw [h]
    exact .num _
  · rw [h]
    exact .quot (.num _) (.num (Int64.ne_zero_iff_toInt_ne_zero.2 hq.den_pos.ne'))

/-- A fraction in lowest terms other than `0` is solid. -/
theorem solid_ofFraction (hq : q.IsLowest) (h0 : q.num ≠ 0) : Solid (ofFraction q) := by
  rcases ofFraction_cases q with ⟨-, h⟩ | ⟨-, h⟩
  · rw [h]
    exact .num h0
  · rw [h]
    exact .quot (.num h0) (.num (Int64.ne_zero_iff_toInt_ne_zero.2 hq.den_pos.ne'))

theorem zeroCount_ofFraction (hq : q.IsLowest) (h0 : q.num ≠ 0) : zeroCount (ofFraction q) = 0 := by
  have hd : q.den ≠ 0 := Int64.ne_zero_iff_toInt_ne_zero.2 hq.den_pos.ne'
  rcases ofFraction_cases q with ⟨-, h⟩ | ⟨-, h⟩ <;> simp [h, zeroCount_num, h0, hd]

/-- A number that vanishes is `0`. -/
theorem Vanishing.num_eq_zero (h : Vanishing e) (hq : e.fraction? = some q) : q.num = 0 := by
  unfold fraction? at hq
  split at hq <;> cases hq
  · exact Vanishing.num_iff.1 h
  · exact Vanishing.num_iff.1 (Vanishing.quot_iff.1 h)

/-! ### Folding -/

/-- Folding a quotient fades, since its denominator is solid. -/
theorem Fold.fades_quotient (h : Tame .live (.quot a b)) :
    Fades .live (.quot a b) (quotient a b) := by
  by_cases hnum : ∃ n d, a = .num n ∧ b = .num d
  · obtain ⟨n, d, rfl, rfl⟩ := hnum
    have hd : d ≠ 0 := fun h0 => h.sides.2.ne_zero (congrArg Expr.num h0)
    obtain heq | ⟨q, hlow, hval, heq⟩ := quotient_cases (n := n) hd
    · rw [heq]
      exact .refl h
    rw [heq]
    have hden : q.den ≠ 0 := Int64.ne_zero_iff_toInt_ne_zero.2 hlow.den_pos.ne'
    -- lowest terms keep a numerator of `0`, and no other numerator becomes `0`
    by_cases hn : n = 0
    · have h0 : q.num = 0 := by
        rw [← Fraction.toRat_eq_zero_iff hden, hval, hn, Int64.toInt_zero]
        simp
      rw [hlow.eq_zero h0, hn]
      exact ⟨.of_zero (.quot _ .zero), by
        rw [zeroCount_quot]
        exact Nat.le_add_right _ _⟩
    · have h0 : q.num ≠ 0 := by
        rw [Ne, ← Fraction.toRat_eq_zero_iff hden, hval, div_eq_zero_iff, not_or]
        have hn' := Int64.ne_zero_iff_toInt_ne_zero.1 hn
        have hd' := Int64.ne_zero_iff_toInt_ne_zero.1 hd
        exact ⟨by exact_mod_cast hn', by exact_mod_cast hd'⟩
      refine ⟨.of_solid (.quot (.num hn) (.num hd)) (solid_ofFraction hlow h0), ?_⟩
      rw [zeroCount_ofFraction hlow h0]
      exact Nat.zero_le _
  · have hkeep : quotient a b = .quot a b := by
      unfold quotient
      split
      · exact absurd ⟨_, _, rfl, rfl⟩ hnum
      · rfl
    rw [hkeep]
    exact .refl h

theorem Fold.zeroCount_of_num? {n : Int64} (h : e.num? = some n) :
    zeroCount e = if n = 0 then 2 else 0 := by
  unfold num? at h
  split at h <;> cases h
  exact zeroCount_num n

/-- The integers among the factors make `0` exactly if one of them is `0`. -/
theorem Fold.zero_mem_iff {c : Int64}
    (hc : c.toInt = ((es.filterMap num?).map Int64.toInt).prod) : c = 0 ↔ 0 ∈ es := by
  rw [← Int64.toInt_inj, hc, Int64.toInt_zero, List.prod_eq_zero_iff, List.mem_map]
  constructor
  · rintro ⟨n, hn, h0⟩
    obtain ⟨e, he, hn⟩ := List.mem_filterMap.1 hn
    unfold num? at hn
    split at hn <;> cases hn
    have hn0 : n = 0 := Int64.toInt_inj.1 h0
    rwa [hn0] at he
  · exact fun h0 => ⟨0, List.mem_filterMap.2 ⟨0, h0, rfl⟩, rfl⟩

/-- Folding the numbers of a product fades. Their product is `0` only if one of them is. -/
theorem Fold.fades_product (h : Tame .live (.prod es)) :
    Fades .live (.prod es) (product es) := by
  have hes := (h.factors_of_ne_raw (by decide)).2
  have hothers {e : Expr} (he : e ∈ es.filter fun e => e.num?.isNone) : e ∈ es :=
    List.mem_of_mem_filter he
  have hsplit := sum_split (fun e n => zeroCount_of_num? (e := e) (n := n)) es
  -- nothing is folded, the product is `0`, the numbers make `1`, or another coefficient is left
  obtain heq | ⟨c, hc, ⟨h0, heq⟩ | ⟨h1, hne, heq⟩ | ⟨h0, heq⟩⟩ := product_cases es
  · rw [heq]
    exact .refl h
  · have hmem := (zero_mem_iff hc).1 h0
    rw [heq]
    exact ⟨.of_zero (.prod hmem .zero), zeroCount_le_prod hmem⟩
  all_goals
    have hc0 : c ≠ 0 := by simp_all
    have hmem : ∀ e ∈ es, Vanishing e → e ∈ es.filter fun e => e.num?.isNone := by
      intro e he hv
      refine List.mem_filter.2 ⟨he, ?_⟩
      cases e with
      | num n =>
        rw [Vanishing.num_iff.1 hv] at he
        exact absurd ((zero_mem_iff hc).2 he) hc0
      | _ => rfl
    rw [heq]
  · refine ⟨⟨.prodOf fun e he => hes e (hothers he), fun hs => .prodOf hne fun e he =>
      hs.of_mem (hothers he), fun hv => ?_⟩, ?_⟩
    · obtain ⟨e, he, hv⟩ := Vanishing.prod_iff.1 hv
      exact .prodOf (hmem e he hv) hv
    · rw [zeroCount_prodOf hne, zeroCount_prod, ← hsplit]
      exact Nat.le_add_left _ _
  · refine ⟨⟨.prodOf ?_, fun hs => .prodOf (by simp) ?_, fun hv => ?_⟩, ?_⟩
    · exact List.forall_mem_append.2
        ⟨fun e he => hes e (hothers he), List.forall_mem_singleton.2 (.num c)⟩
    · exact List.forall_mem_append.2
        ⟨fun e he => hs.of_mem (hothers he), List.forall_mem_singleton.2 (.num hc0)⟩
    · obtain ⟨e, he, hv⟩ := Vanishing.prod_iff.1 hv
      exact .prodOf (List.mem_append_left _ (hmem e he hv)) hv
    · rw [zeroCount_prodOf (by simp), zeroCount_prod, ← hsplit, List.map_append, List.sum_append]
      simp [zeroCount_num, hc0]

/-- A number has as many zeros as its numerator and its denominator. -/
theorem Fold.zeroCount_of_fraction? (h : e.fraction? = some q) :
    max 1 (zeroCount e) =
      max 1 ((if q.num = 0 then 2 else 0) + if q.den = 0 then 2 else 0) := by
  unfold fraction? at h
  split at h <;> cases h <;> simp [zeroCount_num]

/-- Folding the numbers of a sum fades. They may add up to `0`, and then the sum of the others is
left. -/
theorem Fold.fades_addends (h : Tame .live (.sum es)) (hi : ¬Inert (.sum es)) :
    Fades .live (.sum es) (addends es) := by
  obtain ⟨hlen, hes⟩ := h.addends
  have hothers {e : Expr} (he : e ∈ es.filter fun e => e.fraction?.isNone) : e ∈ es :=
    List.mem_of_mem_filter he
  have hsplit := sum_split (fun e q => zeroCount_of_fraction? (e := e) (q := q)) es
  simp only [addends]
  split_ifs with hnone
  · exact .refl h
  rw [not_or] at hnone
  have hdens : ∀ q ∈ es.filterMap fraction?, q.den ≠ 0 := fun q hq h0 =>
    hnone.2 (List.any_eq_true.2 ⟨q, hq, by simpa using h0⟩)
  cases hsum : Fraction.sum? (es.filterMap fraction?) with
  | none => exact .refl h
  | some q =>
    obtain ⟨hlow, hval⟩ := Fraction.sum?_eq_some hdens hsum
    have hden : q.den ≠ 0 := Int64.ne_zero_iff_toInt_ne_zero.2 hlow.den_pos.ne'
    have hzero (hv : Vanishing (.sum es)) : q.num = 0 := by
      rw [← Fraction.toRat_eq_zero_iff hden, hval]
      refine List.sum_eq_zero (List.forall_mem_map.2 fun r hr => ?_)
      obtain ⟨e, he, hr'⟩ := List.mem_filterMap.1 hr
      exact (Fraction.toRat_eq_zero_iff (hdens r hr)).2
        (((Vanishing.sum_iff.1 hv).2 e he).num_eq_zero hr')
    dsimp only
    refine ⟨⟨.sumOf ?_, fun hs => absurd hs.inert_sum hi, fun hv => ?_⟩, ?_⟩
    · split_ifs
      · exact fun e he => hes e (hothers he)
      · exact List.forall_mem_append.2
          ⟨fun e he => hes e (hothers he), List.forall_mem_singleton.2 (tame_ofFraction hlow)⟩
    · rw [if_pos (hzero hv)]
      exact .sumOf fun e he => (Vanishing.sum_iff.1 hv).2 e (hothers he)
    · rw [zeroCount_sum, ← hsplit]
      split_ifs with h0
      · by_cases hnil : es.filter (fun e => e.fraction?.isNone) = []
        · have hcount := length_le_zeroCount_sum es
          rw [zeroCount_sum, ← hsplit, hnil] at hcount
          rw [hnil]
          exact hlen.trans hcount
        · exact (zeroCount_sumOf_le hnil).trans (Nat.le_add_left _ _)
      · refine (zeroCount_sumOf_le (by simp)).trans ?_
        obtain ⟨r, hr⟩ := List.exists_mem_of_ne_nil _ hnone.1
        have hone := (le_max_left 1 _).trans <| List.single_le_sum (fun _ _ => Nat.zero_le _) _
          (List.mem_map_of_mem (f := fun q : Fraction =>
            max 1 ((if q.num = 0 then 2 else 0) + if q.den = 0 then 2 else 0)) hr)
        rw [List.map_append, List.sum_append, List.map_singleton, List.sum_singleton,
          zeroCount_ofFraction hlow h0]
        omega

theorem Fold.fades_rule (h : Tame .live e) (hi : ¬Inert e) : Fades .live e (rule e) := by
  cases e with
  | sum es => exact fades_addends h hi
  | prod es => exact fades_product h
  | quot a b => exact fades_quotient h
  | _ => exact .refl h

/-! ### Sorting -/

theorem Inert.sortingRule (h : Inert e) : Sorting.rule e = e := by
  have hfold := h.root.fold
  rw [Fold.sorted] at hfold
  rw [← hfold, Sorting.rule_rule]

theorem Sorting.fades_rule (h : Tame .live e) : Fades .live e (rule e) := by
  by_cases hi : Inert e
  · rw [hi.sortingRule]
    exact .refl h
  cases e with
  | sum es =>
    have hperm := Sorted.sort_perm Expr.le es
    obtain ⟨hlen, hes⟩ := h.addends
    refine ⟨⟨.sum (by rwa [hperm.length_eq]) fun e he => hes e (hperm.mem_iff.1 he),
      fun hs => absurd hs.inert_sum hi, fun hv => ?_⟩, ?_⟩
    · rw [Vanishing.sum_iff] at hv
      refine .sum ?_ fun e he => hv.2 e (hperm.mem_iff.1 he)
      exact fun hnil => hv.1 (List.nil_perm.1 (hnil ▸ hperm))
    · rw [rule, zeroCount_sum, zeroCount_sum, (hperm.map _).sum_eq]
  | prod es =>
    have hperm := Sorted.sort_perm Expr.le es
    have hnil (hne : es ≠ []) : Sorted.sort Expr.le es ≠ [] := fun hnil =>
      hne (List.nil_perm.1 (hnil ▸ hperm))
    obtain ⟨hne, hes⟩ := h.factors_of_ne_raw (by decide)
    refine ⟨⟨.prod (hnil hne) fun e he => hes e (hperm.mem_iff.1 he),
      fun hs => .prod (hnil hne) fun e he => hs.of_mem (hperm.mem_iff.1 he), fun hv => ?_⟩, ?_⟩
    · obtain ⟨e, he, hv⟩ := Vanishing.prod_iff.1 hv
      exact .prod (hperm.mem_iff.2 he) hv
    · rw [rule, zeroCount_prod, zeroCount_prod, (hperm.map _).sum_eq]
  | _ => exact .refl h

theorem Fold.fades_sorted (h : Tame .live e) : Fades .live e (sorted e) := by
  by_cases hi : Inert e
  · rw [hi.root.fold]
    exact .refl h
  · have hfold := fades_rule h hi
    exact hfold.trans (Sorting.fades_rule hfold.tame)

/-! ### Exponents -/

/-- A positive number is an integer. -/
theorem IsNumber.eq_num_of_isPositive (h : IsNumber e) (hpos : e.magnitude.IsPositive) :
    ∃ n : Int64, 0 < n.toInt ∧ e = .num n := by
  obtain ⟨q, hlow, rfl⟩ := h
  rcases ofFraction_cases q with ⟨-, heq⟩ | ⟨hne, heq⟩
  · rw [heq] at hpos ⊢
    exact ⟨q.num, isPositive_ofInt_iff.1 (magnitude_num q.num ▸ hpos), rfl⟩
  · rw [heq] at hpos
    have hden := hpos.den
    have hpos' := hlow.den_pos
    simp only [magnitude_quot, magnitude_num, ofInt, den_mul, den_inv] at hden
    exact absurd (Int64.toInt_inj.1 (by rw [Int64.toInt_one]; omega)) hne

/-- Exponents that fit are added up. -/
theorem Counting.bottomUp_sorted (h : Counting b) (hfits : b.magnitude.num < 2 ^ 63) :
    Stage.live.Exponent (b.bottomUp Fold.sorted) ∧
      (b.bottomUp Fold.sorted).magnitude.num ≤ b.magnitude.num := by
  refine ⟨?_, (Fold.keepsWhole_sorted b h.whole).2.le⟩
  induction h with
  | @num n hn => exact ⟨n, hn, rfl⟩
  | @sum es hlen hes ih =>
    have hwhole : ∀ e ∈ es, Whole e := fun e he => (hes e he).whole
    have hkeeps e (he : e ∈ es) := Fold.keepsWhole_sorted e (hwhole e he)
    rw [Whole.num_sum hwhole] at hfits
    have hops e (he : e ∈ es) := ih e he <| lt_of_le_of_lt (List.single_le_sum
      (fun _ _ => Nat.zero_le _) _ (List.mem_map_of_mem (f := fun e => e.magnitude.num) he)) hfits
    have hlen' : 2 ≤ (es.map (Expr.bottomUp Fold.sorted)).length := by simpa using hlen
    have hwhole' : ∀ e ∈ es.map (Expr.bottomUp Fold.sorted), Whole e :=
      List.forall_mem_map.2 fun e he => (hkeeps e he).1
    have hsum : Whole (.sum (es.map (Expr.bottomUp Fold.sorted))) := .sum hlen' hwhole'
    have hnum : (Expr.sum (es.map (Expr.bottomUp Fold.sorted))).magnitude.num < 2 ^ 63 := by
      rw [Whole.num_sum hwhole', List.map_map]
      exact (congrArg List.sum (List.map_congr_left fun e he => (hkeeps e he).2)).trans_lt hfits
    have hfold : IsNumber (Fold.addends (es.map (Expr.bottomUp Fold.sorted))) := by
      refine Fold.isNumber_addends (List.ne_nil_of_length_pos (by omega))
        (List.forall_mem_map.2 fun e he => ?_) ⟨hnum, hsum.isPositive.den.trans_lt (by decide),
          hsum.isPositive.signs.trans_lt (by decide)⟩
      obtain ⟨n, -, heq⟩ := hops e he
      rw [heq]
      exact isNumber_num n
    obtain ⟨n, hn, heq⟩ :=
      hfold.eq_num_of_isPositive (Fold.whole_addends hlen' hwhole').isPositive
    refine ⟨n, hn, ?_⟩
    rw [bottomUp_sum]
    show Sorting.rule (Fold.addends _) = _
    rw [heq]
    rfl

end Simplification

end ComputerAlgebra
