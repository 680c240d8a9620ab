import ComputerAlgebra.Proofs.Rational.Shrinking
import ComputerAlgebra.Proofs.Simplification.NormalForm

/-!
# Closed arithmetic

The simplifier folds integers, sums, products and quotients to one number in lowest terms, as long
as the magnitude fits into 64 bits (`Resting.isNumber`). Equal factors are collected to powers on
the way, and powers are evaluated only where the base is an integer: the power of a fraction stays
as it is.
-/

namespace ComputerAlgebra

namespace Simplification

open ComputerAlgebra.Expr Magnitude

variable {a b e e' t : Expr} {es : List Expr} {n d : Int64} {q : Fraction}

/-! ### Numbers -/

/-- An integer, or a quotient of integers in lowest terms. -/
def IsNumber (e : Expr) : Prop := ∃ q : Fraction, q.IsLowest ∧ e = .ofFraction q

theorem isNumber_num (n : Int64) : IsNumber (.num n) := ⟨⟨n, 1⟩, .ofInt n, rfl⟩

/-- A fraction is written as its numerator or as a quotient. -/
theorem ofFraction_cases (q : Fraction) :
    q.den = 1 ∧ ofFraction q = .num q.num ∨
      q.den ≠ 1 ∧ ofFraction q = .quot (.num q.num) (.num q.den) := by
  rw [ofFraction]
  split_ifs with h
  · exact .inl ⟨h, rfl⟩
  · exact .inr ⟨h, rfl⟩

/-- A fraction that is written is read as this fraction. -/
theorem fraction?_ofFraction (q : Fraction) : (ofFraction q).fraction? = some q := by
  rcases ofFraction_cases q with ⟨h1, h⟩ | ⟨-, h⟩
  · rw [h, fraction?, ← h1]
  · rw [h, fraction?]

/-- A number that is written without a quotient is an integer. -/
theorem IsNumber.eq_num (h : IsNumber e) (hquot : ∀ a b, e ≠ .quot a b) : ∃ n, e = .num n := by
  obtain ⟨q, -, rfl⟩ := h
  rcases ofFraction_cases q with ⟨-, h⟩ | ⟨-, h⟩
  · exact ⟨_, h⟩
  · exact absurd h (hquot _ _)

/-- A number is folded and sorted already. -/
theorem IsNumber.sort_fold (h : IsNumber e) : fold e = e ∧ sortOperands e = e := by
  obtain ⟨q, hlow, rfl⟩ := h
  rcases ofFraction_cases q with ⟨-, h⟩ | ⟨-, h⟩
  · rw [h]
    exact ⟨rfl, rfl⟩
  · have hden : q.den ≠ 0 := Int64.ne_zero_iff_toInt_ne_zero.2 hlow.den_pos.ne'
    constructor
    · conv_lhs => rw [h]
      show Fold.quotient (.num q.num) (.num q.den) = _
      simp only [Fold.quotient, if_neg hden]
      rw [hlow.reduce?_eq, Option.map_some, Option.getD_some]
    · rw [h]
      rfl

/-! ### Folding numbers -/

/-- A quotient of integers that fits is folded to a number. -/
theorem Fold.isNumber_quotient (hd : d ≠ 0) (h : (Expr.quot (.num n) (.num d)).magnitude.Fits) :
    IsNumber (quotient (.num n) (.num d)) := by
  have hmin : ∀ m : Int64, (ofInt m.toInt).num < 2 ^ 63 → m ≠ Int64.minValue := by
    rintro m hm rfl
    rw [Int64.toInt_minValue] at hm
    exact absurd hm (by decide)
  obtain ⟨q, hq⟩ := Fraction.exists_reduce? (q := ⟨n, d⟩) hd (hmin n (by simpa [ofInt] using h.num))
    (hmin d (by simpa [ofInt] using h.den))
  obtain ⟨hlow, -⟩ := Fraction.reduce?_eq_some hd hq
  refine ⟨q, hlow, ?_⟩
  simp only [quotient, if_neg hd]
  rw [hq, Option.map_some, Option.getD_some]

/-- A product of integers that fits is folded to a number. -/
theorem Fold.isNumber_product (hnum : ∀ e ∈ es, ∃ n, e = .num n)
    (h : (Expr.prod es).magnitude.Fits) : IsNumber (product es) := by
  have hothers : (es.filter fun e => e.num?.isNone) = [] := List.filter_eq_nil_iff.2 fun e he => by
    obtain ⟨n, rfl⟩ := hnum e he
    simp [num?]
  have hsplit := prod_split (fun e n => magnitude_of_num? (e := e) (n := n)) es
  rw [hothers, List.map_nil, List.prod_nil, mul_one] at hsplit
  rw [magnitude_prod, ← hsplit] at h
  obtain ⟨c, hc⟩ := exists_multiply?_of_fits h
  rw [product_eq hc, hothers]
  split_ifs with h0 h1
  · exact isNumber_num 0
  · exact isNumber_num c
  · exact absurd (.inr rfl) h1

/-- A sum of numbers that fits is folded to a number. -/
theorem Fold.isNumber_addends (hne : es ≠ []) (hnum : ∀ e ∈ es, IsNumber e)
    (h : (Expr.sum es).magnitude.Fits) : IsNumber (addends es) := by
  have hsome : ∀ e ∈ es, ∃ q : Fraction, q.IsLowest ∧ e.fraction? = some q := fun e he => by
    obtain ⟨q, hlow, rfl⟩ := hnum e he
    exact ⟨q, hlow, fraction?_ofFraction q⟩
  have hothers : (es.filter fun e => e.fraction?.isNone) = [] :=
    List.filter_eq_nil_iff.2 fun e he => by
      obtain ⟨q, -, hq⟩ := hsome e he
      simp [hq]
  have hpos : ∀ q ∈ es.filterMap fraction?, 0 < q.den.toInt := fun q hq => by
    obtain ⟨e, he, hq⟩ := List.mem_filterMap.1 hq
    obtain ⟨r, hlow, hr⟩ := hsome e he
    rw [hr] at hq
    cases hq
    exact hlow.den_pos
  have hdens : ∀ q ∈ es.filterMap fraction?, q.den ≠ 0 := fun q hq =>
    Int64.ne_zero_iff_toInt_ne_zero.2 (hpos q hq).ne'
  have hsplit := sum_split (fun e q => magnitude_of_fraction? (e := e) (q := q)) es
  rw [hothers, List.map_nil, List.sum_nil, add_zero] at hsplit
  rw [magnitude_sum, ← hsplit] at h
  have hfractions : es.filterMap fraction? ≠ [] := by
    obtain ⟨e, he⟩ := List.exists_mem_of_ne_nil es hne
    obtain ⟨q, -, hq⟩ := hsome e he
    exact List.ne_nil_of_mem (List.mem_filterMap.2 ⟨e, he, hq⟩)
  obtain ⟨q, hq⟩ := Fraction.exists_sum? hpos h
  obtain ⟨hlow, -⟩ := Fraction.sum?_eq_some hdens hq
  refine ⟨q, hlow, ?_⟩
  rw [addends_eq hfractions hdens hq, hothers]
  split_ifs with h0
  · rw [hlow.eq_zero h0]
    rfl
  · rfl

/-! ### Trees at rest -/

/-- A tree in which rounds have nothing to do. -/
structure Resting (e : Expr) : Prop extends Prepared e where
  collected : Everywhere (fun e => collect e = e) e

namespace Resting

theorem operand (h : Resting e) (he' : e' ∈ e.operands) : Resting e' where
  identities := h.identities.operand he'
  fractions := h.fractions.operand he'
  quiet := h.quiet.operand he'
  collected := h.collected.operand he'

/-- If folding makes a number of the root of a tree at rest, then the root was this number. -/
theorem sort_rule (h : Resting e) (hops : ∀ e' ∈ e.operands, IsNumber e')
    (hnum : IsNumber (Fold.rule e)) : Fold.rule e = Sorting.rule e := by
  have hlevel : ∀ {e : Expr}, Resting e → Level e (fold e) := fun h => by
    have hfolded := h.quiet.folded
    rwa [h.collected.root] at hfolded
  have hbase : ∀ a b, e = .pow a b → a.weight ≠ 0 := fun a b heq =>
    (heq ▸ h.quiet.tidy.root : Tidy (.pow a b)).weight_base
  have hanc : (e.mapOperands fold).Anchored := h.quiet.anchored_mapOperands fun e' he' =>
    (hlevel (h.operand he')).1
  have heq := sort_fold_eq h.quiet.wellFormed hbase hanc (hlevel h)
  rw [mapOperands_eq_self fun e' he' => by
      rw [(hops e' he').sort_fold.1, (hops e' he').sort_fold.2],
    fold_eq, mapOperands_eq_self fun e' he' => (hops e' he').sort_fold.1, hnum.sort_fold.2] at heq
  exact heq

end Resting

/-! ### Exponents -/

/-- What a power of a base other than `1` fits into, its exponent fits into as well. -/
theorem fits_exponent {x y : Magnitude} (hx : 1 ≤ x) (hne : x ≠ 1) (h : (x ^ y.num).Fits)
    (hy : y.IsPositive) : y.Fits := by
  have hlt : y.num < 2 ^ y.num := Nat.lt_two_pow_self
  refine ⟨?_, hy.den.trans_lt (by decide), hy.signs.trans_lt (by decide)⟩
  have hnum := h.num
  have hden := h.den
  have hsigns := h.signs
  rw [num_pow] at hnum
  rw [den_pow] at hden
  rw [signs_pow] at hsigns
  by_cases hn : 2 ≤ x.num
  · have := Nat.pow_le_pow_left hn y.num
    omega
  · by_cases hd : 2 ≤ x.den
    · have := Nat.pow_le_pow_left hd y.num
      omega
    · have hs : 1 ≤ x.signs := by
        by_contra! hs
        exact hne (Magnitude.ext (by have := hx.1; simp at this ⊢; omega)
          (by have := hx.2.1; simp at this ⊢; omega) (by simp; omega))
      exact (Nat.le_mul_of_pos_right _ hs).trans_lt hsigns

/-- A closed tree of magnitude `1` in which identities have nothing to do is the literal `1`. -/
theorem eq_one_of_magnitude (hc : Closed e) (hid : Everywhere (fun e => Identities.rule e = e) e)
    (hanc : Everywhere Anchored e) (h : e.magnitude = 1) : e = 1 := by
  induction hc with
  | num n =>
    have hpos : 0 < n.toInt := isPositive_ofInt_iff.1 (magnitude_num n ▸ h ▸ .one)
    have hnum := congrArg Magnitude.num h
    rw [magnitude_num, num_ofInt hpos, num_one] at hnum
    exact congrArg Expr.num (Int64.toInt_inj.1 (by rw [Int64.toInt_one]; omega))
  -- a sum has at least as large a numerator as addends, and so more than `1`
  | @sum es hlen hc _ =>
    have hle := length_le_num_sum (List.forall_mem_map.2 fun e he => (hc e he).one_le_magnitude)
    rw [← magnitude_sum, h, num_one, List.length_map] at hle
    omega
  | @prod es hlen hc ih =>
    have hones : ∀ e ∈ es, e = 1 := fun e he => by
      have hle := le_prod_magnitude hc he
      rw [← magnitude_prod, h] at hle
      exact ih e he (hid.operand he) (hanc.operand he) (hle.antisymm (hc e he).one_le_magnitude)
    obtain ⟨e, he⟩ := List.exists_mem_of_length_pos (l := es) (by omega)
    -- a product of ones only would not be anchored
    have hheavy := hanc.root (hones e he ▸ he)
    rw [heavy, List.countP_eq_zero.2 fun e he => by simp [hones e he]] at hheavy
    omega
  | @quot a b ha hb iha ihb =>
    have hb1 : b.magnitude = 1 := by
      have hle : b.magnitude⁻¹ ≤ 1 := by
        rw [← h, magnitude_quot]
        exact le_mul_of_one_le_left' ha.one_le_magnitude
      exact (inv_le_inv hle).antisymm hb.one_le_magnitude
    have hb : b ∈ (Expr.quot a b).operands := by simp [operands]
    -- a quotient by `1` and a power of `1` are identities, which have been applied
    exact absurd (ihb (hid.operand hb) (hanc.operand hb) hb1) (noIdentity_of_rule hid.root).1
  | @pow a b ha hb hpos iha _ =>
    have ha1 : a.magnitude ≤ 1 := by
      rw [← h, magnitude_pow]
      exact le_self_pow ha.one_le_magnitude (Nat.one_le_iff_ne_zero.1 hb.one_le_magnitude.1)
    have hmem : a ∈ (Expr.pow a b).operands := by simp [operands]
    exact absurd (iha (hid.operand hmem) (hanc.operand hmem) (ha1.antisymm ha.one_le_magnitude))
      (noIdentity_of_rule hid.root).2.2

/-! ### Magnitudes that fit -/

/-- A closed tree whose magnitude fits, and in which identities have nothing to do. -/
structure Bounded (e : Expr) : Prop where
  closed : Closed e
  fits : e.magnitude.Fits
  identities : Everywhere (fun e => Identities.rule e = e) e
  anchored : Everywhere Anchored e

namespace Bounded

theorem operand (h : Bounded e) (he' : e' ∈ e.operands) : Bounded e' := by
  have hid := h.identities.operand he'
  have hanc := h.anchored.operand he'
  have hfits := h.fits
  cases h.closed with
  | num n => cases he'
  | sum hlen hc =>
    rw [magnitude_sum] at hfits
    exact ⟨hc e' he', hfits.of_le (le_sum_magnitude hc he'), hid, hanc⟩
  | prod hlen hc =>
    rw [magnitude_prod] at hfits
    exact ⟨hc e' he', hfits.of_le (le_prod_magnitude hc he'), hid, hanc⟩
  | @quot a b ha hb =>
    rw [magnitude_quot] at hfits
    simp only [operands, List.mem_cons, List.not_mem_nil, or_false] at he'
    obtain rfl | rfl := he'
    · exact ⟨ha, hfits.of_le (le_mul_of_one_le_right' (one_le_inv hb.one_le_magnitude)), hid, hanc⟩
    · have hinv := hfits.of_le (le_mul_of_one_le_left' ha.one_le_magnitude)
      exact ⟨hb, ⟨hinv.den, hinv.num, hinv.signs⟩, hid, hanc⟩
  | @pow a b ha hb hpos =>
    rw [magnitude_pow] at hfits
    simp only [operands, List.mem_cons, List.not_mem_nil, or_false] at he'
    obtain rfl | rfl := he'
    · have hne := Nat.one_le_iff_ne_zero.1 hb.one_le_magnitude.1
      exact ⟨ha, hfits.of_le (le_self_pow ha.one_le_magnitude hne), hid, hanc⟩
    · have hmem : a ∈ (Expr.pow a e').operands := by simp [operands]
      have hne : a.magnitude ≠ 1 := fun h1 =>
        (noIdentity_of_rule h.identities.root).2.2 <|
          eq_one_of_magnitude ha (h.identities.operand hmem) (h.anchored.operand hmem) h1
      exact ⟨hb, fits_exponent ha.one_le_magnitude hne hfits hpos, hid, hanc⟩

/-- In a bounded tree no node has more ones in it than can be counted. -/
theorem fewOnes (h : Bounded e) : Everywhere FewOnes e := by
  induction e using operands_induct with
  | node e ih =>
    refine .node ?_ fun e' he' => ih e' he' (h.operand he')
    cases e with
    | sum es =>
      have hc : ∀ e ∈ es, Closed e := fun e he => (h.operand he).closed
      have hle := length_le_num_sum (List.forall_mem_map.2 fun e he => (hc e he).one_le_magnitude)
      have hfits := h.fits.num
      rw [magnitude_sum] at hfits
      rw [List.length_map] at hle
      exact (List.count_le_length.trans hle).trans_lt hfits
    | _ => trivial

end Bounded

/-! ### Fixed points -/

/-- The node is no power of a quotient of integers. -/
def NoFractionPower (e : Expr) : Prop := ∀ n d b, e ≠ .pow (.quot (.num n) (.num d)) b

variable {K : Type} [Field K] [LinearOrder K] [ExactNumbers K] {ρ : String → K}

/-- In a tree at rest no integer has an exponent that fits. -/
theorem Resting.not_pow (h : Resting (.pow (.num n) b)) (hb : Bounded (.pow (.num n) b))
    (hnum : IsNumber b) : False := by
  have hrule := h.identities.root
  cases hb.closed with
  | pow _ _ hpos =>
    obtain ⟨q, hlow, rfl⟩ := hnum
    rcases ofFraction_cases q with ⟨-, hq⟩ | ⟨hne, hq⟩
    -- a whole exponent: the power fits, so that identities would have evaluated it
    · have hfits := hb.fits.num
      rw [hq] at hpos hrule hfits
      rw [magnitude_num, isPositive_ofInt_iff] at hpos
      rw [magnitude_pow, magnitude_num, magnitude_num, num_ofInt hpos, num_pow] at hfits
      obtain ⟨v, hv⟩ := Int64.exists_pow? (a := n) (n := q.num.toInt.toNat)
        ((Nat.pow_le_pow_left (le_max_right _ _) _).trans_lt hfits)
      have hnonneg : 0 ≤ q.num := by
        rw [Int64.le_iff_toInt_le, Int64.toInt_zero]
        exact hpos.le
      obtain ⟨h0, h1, hbase⟩ := noIdentity_of_rule hrule
      rw [Identities.rule, Identities.power, if_neg (not_or.2 ⟨h0, hbase⟩), if_neg h1] at hrule
      simp only [Identities.integerPower?, if_pos hnonneg] at hrule
      rw [hv] at hrule
      cases hrule
    -- a fraction as exponent: its magnitude would not be that of a positive integer
    · rw [hq] at hpos
      have hden := hpos.den
      have hpos' := hlow.den_pos
      simp only [magnitude_quot, magnitude_num, ofInt, den_mul, den_inv] at hden
      exact hne (Int64.toInt_inj.1 (by rw [Int64.toInt_one]; omega))

/-- A defined closed tree at rest whose magnitude fits is one number, unless it has a power of a
fraction in it. -/
theorem Resting.isNumber (h : Resting e) (hb : Bounded e) (hdef : Exact.Defined ρ e)
    (hpow : Everywhere NoFractionPower e) : IsNumber e := by
  induction e using operands_induct with
  | node e ih =>
    have hops : (∀ e' ∈ e.operands, Exact.Defined ρ e') → ∀ e' ∈ e.operands, IsNumber e' :=
      fun hdef e' he' => ih e' he' (h.operand he') (hb.operand he') (hdef e' he') (hpow.operand he')
    have hbar := oneBar_of_rule h.fractions.root
    cases hb.closed with
    | num n => exact isNumber_num n
    -- folded numbers are one number, and folding has nothing to do, so there is no sum
    | @sum es hlen _ =>
      have hnum := hops (Exact.Defined.sum_iff.1 hdef)
      have hfold :=
        Fold.isNumber_addends (List.ne_nil_of_length_pos (by omega : 0 < es.length)) hnum hb.fits
      have heq := h.sort_rule hnum hfold
      obtain ⟨m, hm⟩ := IsNumber.eq_num (heq ▸ hfold : IsNumber (Sorting.rule (.sum es)))
        (by simp [Sorting.rule])
      cases hm
    | @prod es hlen _ =>
      have hnum := hops (Exact.Defined.prod_iff.1 hdef)
      -- no factor is a fraction, since that would be a second fraction bar
      have hints : ∀ e ∈ es, ∃ n, e = .num n := fun e he =>
        (hnum e he).eq_num fun a b heq => hbar a b (heq ▸ he)
      have hfold := Fold.isNumber_product hints hb.fits
      have heq := h.sort_rule hnum hfold
      obtain ⟨m, hm⟩ := IsNumber.eq_num (heq ▸ hfold : IsNumber (Sorting.rule (.prod es)))
        (by simp [Sorting.rule])
      cases hm
    | @quot a b _ _ =>
      obtain ⟨hda, hdb, hne⟩ := Exact.Defined.quot_iff.1 hdef
      have hnum := hops (by simp [operands, hda, hdb])
      obtain ⟨n, rfl⟩ := (hnum a (by simp [operands])).eq_num hbar.1
      obtain ⟨d, rfl⟩ := (hnum b (by simp [operands])).eq_num hbar.2
      have hd : d ≠ 0 := by
        rintro rfl
        simp at hne
      have hfold := Fold.isNumber_quotient hd hb.fits
      have heq := h.sort_rule hnum hfold
      exact (heq ▸ hfold : IsNumber (Sorting.rule (.quot (.num n) (.num d))))
    | @pow a b _ _ _ =>
      obtain ⟨hda, hdb, -⟩ := Exact.Defined.pow_iff.1 hdef
      have hnum := hops (by simp [operands, hda, hdb])
      obtain ⟨q, hlow, rfl⟩ := hnum a (by simp [operands])
      -- an integer as base is excluded by the identities, a fraction by assumption
      rcases ofFraction_cases q with ⟨-, hq⟩ | ⟨-, hq⟩
      · rw [hq] at h hb
        exact (h.not_pow hb (hnum b (by simp [operands]))).elim
      · exact absurd (by rw [hq]) (hpow.root q.num q.den b)

end Simplification

end ComputerAlgebra
