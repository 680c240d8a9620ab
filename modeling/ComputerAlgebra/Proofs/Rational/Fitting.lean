import ComputerAlgebra.Proofs.Rational.Magnitude
import ComputerAlgebra.Proofs.Simplification.Numbers

/-!
# Arithmetic that fits

The magnitude of fractions bounds their exact sum, reduced or not, and everything that is computed
on the way to it. So where the magnitude fits into 64 bits the checked operations give a result.
-/

namespace Int64

/-- What is small enough in absolute value is a 64-bit integer. -/
theorem exists_ofInt? {i : ℤ} (h : i.natAbs < 2 ^ 63) : ∃ n, ofInt? i = some n := by
  rw [ofInt?, if_pos (by omega)]
  exact ⟨_, rfl⟩

/-- A power fits if its absolute value does. -/
theorem exists_pow? {a : Int64} {n : ℕ} (h : a.toInt.natAbs ^ n < 2 ^ 63) :
    ∃ c, a.pow? n = some c := by
  refine exists_ofInt? ?_
  show (a.toInt ^ (if n < 64 then n else 64 + n % 2)).natAbs < 2 ^ 63
  rw [Int.natAbs_pow]
  split_ifs with hn
  · exact h
  · -- a large exponent leaves no base but `0`, `1` and `-1`
    have hbase : a.toInt.natAbs ≤ 1 := by
      by_contra! hlt
      have hpow : 2 ^ 64 ≤ a.toInt.natAbs ^ n :=
        (Nat.pow_le_pow_right (by decide) (not_lt.1 hn)).trans (Nat.pow_le_pow_left hlt n)
      omega
    exact (Nat.pow_le_one_iff (by omega)).2 hbase |>.trans_lt (by omega)

end Int64

namespace ComputerAlgebra

namespace Magnitude

/-- Every part of a magnitude fits into 64 bits. -/
structure Fits (x : Magnitude) : Prop where
  num : x.num < 2 ^ 63
  den : x.den < 2 ^ 63
  signs : x.signs < 2 ^ 63

/-- What is smaller than a magnitude that fits does fit. -/
theorem Fits.of_le {x y : Magnitude} (hy : y.Fits) (h : x ≤ y) : x.Fits :=
  ⟨h.1.trans_lt hy.num, h.2.1.trans_lt hy.den, h.2.2.trans_lt hy.signs⟩

/-- A magnitude bounds the numerator and the denominator of a rational number, and tells whether it
is positive. -/
structure Bounds (m : Magnitude) (x : ℚ) : Prop where
  num : x.num.natAbs ≤ m.num
  den : x.den ≤ m.den
  signs : x ≤ 0 → 1 ≤ m.signs

/-- Cancelling does not make a numerator larger. -/
theorem natAbs_num_divInt_le (i : ℤ) {j : ℤ} (hj : j ≠ 0) :
    (Rat.divInt i j).num.natAbs ≤ i.natAbs := by
  by_cases hi : i = 0
  · simp [hi]
  · exact Nat.le_of_dvd (by omega) (Int.natAbs_dvd_natAbs.2 (Rat.num_dvd i hj))

/-- Bounds of two numbers bound their sum. -/
theorem Bounds.add {m n : Magnitude} {x y : ℚ} (hx : Bounds m x) (hy : Bounds n y) :
    Bounds (m + n) (x + y) where
  num := by
    rw [Rat.add_num_den]
    calc (Rat.divInt (x.num * y.den + x.den * y.num) (x.den * y.den)).num.natAbs
        ≤ (x.num * y.den + x.den * y.num).natAbs := natAbs_num_divInt_le _ (by simp)
      _ ≤ x.num.natAbs * y.den + x.den * y.num.natAbs := by
          refine (Int.natAbs_add_le _ _).trans ?_
          rw [Int.natAbs_mul, Int.natAbs_mul, Int.natAbs_natCast, Int.natAbs_natCast]
      _ ≤ m.num * n.den + n.num * m.den := by
          rw [mul_comm x.den]
          gcongr
          exacts [hx.num, hy.den, hy.num, hx.den]
  den := (Nat.le_of_dvd (Nat.mul_pos x.pos y.pos) (Rat.add_den_dvd x y)).trans
    (Nat.mul_le_mul hx.den hy.den)
  signs h := by
    have hcases : x ≤ 0 ∨ y ≤ 0 := by
      by_contra! hpos
      exact absurd h (not_le.2 (add_pos hpos.1 hpos.2))
    rw [signs_add]
    rcases hcases with h | h
    · exact Nat.le_add_right_of_le (hx.signs h)
    · exact Nat.le_add_left_of_le (hy.signs h)

end Magnitude

namespace Simplification

open Magnitude

/-- A product of numbers is computed if their magnitudes allow for it: no partial product is larger
than the whole. -/
theorem Fold.exists_foldlM_mul? {ns : List Int64} {a : Int64}
    (h : a.toInt.natAbs * (ns.map fun n => ofInt n.toInt).prod.num < 2 ^ 63) :
    ∃ c, ns.foldlM Int64.mul? a = some c := by
  induction ns generalizing a with
  | nil => exact ⟨a, rfl⟩
  | cons n ns ih =>
    have hone : 1 ≤ (ns.map fun n => ofInt n.toInt).prod :=
      List.one_le_prod_of_one_le (List.forall_mem_map.2 fun n _ => one_le_ofInt _)
    rw [List.map_cons, List.prod_cons, num_mul, ← mul_assoc] at h
    have hmul : (a.toInt * n.toInt).natAbs ≤ a.toInt.natAbs * (ofInt n.toInt).num := by
      rw [Int.natAbs_mul]
      exact Nat.mul_le_mul_left _ (le_max_right _ _)
    obtain ⟨b, hb⟩ := Int64.exists_ofInt?
      (hmul.trans (Nat.le_mul_of_pos_right _ hone.1) |>.trans_lt h)
    obtain ⟨c, hc⟩ := ih (a := b) <| by
      rw [Int64.ofInt?_eq_some_iff.1 hb]
      exact (Nat.mul_le_mul_right _ hmul).trans_lt h
    exact ⟨c, by rw [List.foldlM_cons, Int64.mul?, hb]; exact hc⟩

/-- Integers whose product has a magnitude that fits have a product. -/
theorem Fold.exists_multiply?_of_fits {ns : List Int64}
    (h : (ns.map fun n => ofInt n.toInt).prod.Fits) : ∃ c, multiply? ns = some c :=
  exists_foldlM_mul? (by simpa using h.num)

end Simplification

namespace Fraction

open Magnitude

variable {q : Fraction}

/-- The magnitude of a fraction as it is written. -/
def magnitude (q : Fraction) : Magnitude := ofInt q.num.toInt * (ofInt q.den.toInt)⁻¹

/-- Numerator and denominator of a fraction have a magnitude of at least `1`. -/
theorem one_le_magnitude (q : Fraction) : 1 ≤ q.magnitude :=
  one_le_mul (one_le_ofInt _) (one_le_inv (one_le_ofInt _))

/-- The magnitude of a fraction bounds its value. -/
theorem bounds_toRat (h : q.den ≠ 0) : Bounds (q.magnitude) q.toRat := by
  have hden := Int64.ne_zero_iff_toInt_ne_zero.1 h
  have heq : q.toRat = Rat.divInt q.num.toInt q.den.toInt := (Rat.divInt_eq_div _ _).symm
  refine ⟨?_, ?_, fun hle => ?_⟩
  · rw [heq]
    exact (natAbs_num_divInt_le _ hden).trans (by simp [magnitude, ofInt])
  · have hdvd := Int.natAbs_dvd_natAbs.2 (heq ▸ Rat.den_dvd q.num.toInt q.den.toInt)
    rw [Int.natAbs_natCast] at hdvd
    exact (Nat.le_of_dvd (by omega) hdvd).trans (by simp [magnitude, ofInt])
  · have hcases : q.num.toInt ≤ 0 ∨ q.den.toInt ≤ 0 := by
      by_contra! hpos
      refine absurd hle (not_le.2 (div_pos ?_ ?_)) <;> exact_mod_cast by omega
    simp only [magnitude, ofInt, signs_mul, signs_inv]
    split_ifs <;> omega

/-- The magnitudes of fractions bound their sum. -/
theorem bounds_sum {qs : List Fraction} (hne : qs ≠ []) (h : ∀ q ∈ qs, q.den ≠ 0) :
    Bounds (qs.map magnitude).sum (qs.map toRat).sum := by
  induction qs with
  | nil => exact absurd rfl hne
  | cons q qs ih =>
    rw [List.forall_mem_cons] at h
    have hq := bounds_toRat h.1
    match qs with
    | [] => simpa using hq
    | r :: qs => exact hq.add (ih (by simp) h.2)

/-! ### Reduction and sums -/

/-- Reduction fails at the least integer only. -/
theorem exists_reduce? (h : q.den ≠ 0) (hn : q.num ≠ Int64.minValue) (hd : q.den ≠ Int64.minValue) :
    ∃ r, reduce? q = some r := by
  have hg : 0 < (gcd q.num q.den).toInt := gcd_pos h
  have hdiv : ∀ n : Int64, (gcd q.num q.den).toInt ∣ n.toInt → n ≠ Int64.minValue →
      n / gcd q.num q.den ≠ Int64.minValue := by
    intro n hdvd hmin heq
    have hmul := toInt_div_of_dvd hg hdvd
    rw [heq, Int64.toInt_minValue] at hmul
    rw [Ne, ← Int64.toInt_inj, Int64.toInt_minValue] at hmin
    have := n.le_toInt
    omega
  have hneg : ∀ {n : Int64}, n ≠ Int64.minValue → ∃ m, n.neg? = some m := fun hne =>
    Option.ne_none_iff_exists'.1 fun hnone => hne (Int64.neg?_eq_none_iff.1 hnone)
  obtain ⟨n, hn⟩ := hneg (hdiv _ (gcd_dvd_left _ _) hn)
  obtain ⟨d, hd⟩ := hneg (hdiv _ (gcd_dvd_right _ _) hd)
  simp only [reduce?, hn, hd, Option.bind_eq_bind, Option.bind_some, Option.pure_def]
  split_ifs
  · exact ⟨_, rfl⟩
  · exact ⟨_, rfl⟩

/-- The least common multiple is computed if the product of the two numbers fits. -/
theorem exists_lcm? {a b : Int64} (ha : 0 < a.toInt) (hb : 0 < b.toInt)
    (h : a.toInt * b.toInt < 2 ^ 63) :
    ∃ c, lcm? a b = some c ∧ 0 < c.toInt ∧ c.toInt ≤ a.toInt * b.toInt := by
  have hg : 0 < (gcd a b).toInt := gcd_pos (Int64.ne_zero_iff_toInt_ne_zero.2 hb.ne')
  have hg0 : gcd a b ≠ 0 := Int64.ne_zero_iff_toInt_ne_zero.2 hg.ne'
  have hdiv := toInt_div_of_dvd hg (gcd_dvd_left a b)
  have hpos : 0 < (a / gcd a b).toInt := by
    by_contra! hle
    nlinarith
  have hle : (a / gcd a b).toInt * b.toInt ≤ a.toInt * b.toInt := by
    gcongr
    nlinarith
  obtain ⟨c, hc⟩ := Int64.exists_ofInt? (i := (a / gcd a b).toInt * b.toInt)
    (by have := mul_pos hpos hb; omega)
  have hval := Int64.ofInt?_eq_some_iff.1 hc
  have hcpos : 0 < c.toInt := hval ▸ mul_pos hpos hb
  refine ⟨c, ?_, hcpos, hval.trans_le hle⟩
  show (if gcd a b = 0 then some 0 else ((a / gcd a b).mul? b).bind Int64.abs?) = _
  rw [if_neg hg0, Int64.mul?, hc, Option.bind_some, Int64.abs?_of_pos hcpos]

/-- The denominator of a fraction is the denominator of its magnitude. -/
theorem den_magnitude (h : 0 < q.den.toInt) : (q.magnitude.den : ℤ) = q.den.toInt := by
  simp only [magnitude, ofInt, den_mul, den_inv]
  omega

theorem one_le_sum_den (qs : List Fraction) : 1 ≤ (qs.map magnitude).sum.den :=
  (List.sum_nonneg (List.forall_mem_map.2 fun q _ => zero_le_of_one_le q.one_le_magnitude)).2.1

/-- Least common multiples are computed one after the other if the product of all denominators fits:
the invariant of the common denominator. -/
theorem exists_commonDen?_aux {qs : List Fraction} {a : Int64} (ha : 0 < a.toInt)
    (hqs : ∀ q ∈ qs, 0 < q.den.toInt) (h : a.toInt * (qs.map magnitude).sum.den < 2 ^ 63) :
    ∃ m, qs.foldlM (fun m q => lcm? m q.den) a = some m ∧
      m.toInt ≤ a.toInt * (qs.map magnitude).sum.den := by
  induction qs generalizing a with
  | nil => exact ⟨a, rfl, by simp⟩
  | cons q qs ih =>
    rw [List.forall_mem_cons] at hqs
    have hone : (1 : ℤ) ≤ (qs.map magnitude).sum.den := by exact_mod_cast one_le_sum_den qs
    rw [List.map_cons, List.sum_cons, den_add, Nat.cast_mul, den_magnitude hqs.1,
      ← mul_assoc] at h ⊢
    obtain ⟨c, hc, hcpos, hle⟩ := exists_lcm? ha hqs.1
      ((le_mul_of_one_le_right (mul_pos ha hqs.1).le hone).trans_lt h)
    have hle' := mul_le_mul_of_nonneg_right hle (zero_le_one.trans hone)
    obtain ⟨m, hm, hmle⟩ := ih hcpos hqs.2 (hle'.trans_lt h)
    refine ⟨m, ?_, hmle.trans hle'⟩
    rw [List.foldlM_cons, hc]
    exact hm

/-- A bound for rational numbers is one for integers. -/
theorem natAbs_lt_of_abs_lt {i : ℤ} (h : |(i : ℚ)| < 2 ^ 63) : i.natAbs < 2 ^ 63 := by
  rw [← Int.cast_abs, Int.abs_eq_natAbs] at h
  exact_mod_cast h

/-- Over a common denominator, no partial sum leaves the range that the sum of all absolute values
has. -/
theorem exists_sumOver?_aux {qs : List Fraction} {a m : Int64} (hm : 0 < m.toInt)
    (hqs : ∀ q ∈ qs, q.den ≠ 0) (hdvd : ∀ q ∈ qs, q.den.toInt ∣ m.toInt)
    (h : |(a.toInt : ℚ)| + m.toInt * (qs.map fun q => |q.toRat|).sum < 2 ^ 63) :
    ∃ s, qs.foldlM (fun s q => do s.add? (← q.num.mul? (m / q.den))) a = some s ∧
      s.toInt.natAbs < 2 ^ 63 := by
  induction qs generalizing a with
  | nil => exact ⟨a, rfl, natAbs_lt_of_abs_lt (by simpa using h)⟩
  | cons q qs ih =>
    rw [List.forall_mem_cons] at hqs hdvd
    have hm' : (0 : ℚ) < m.toInt := by exact_mod_cast hm
    have hrest : 0 ≤ (m.toInt : ℚ) * (qs.map fun q => |q.toRat|).sum :=
      mul_nonneg hm'.le (List.sum_nonneg (List.forall_mem_map.2 fun q _ => abs_nonneg q.toRat))
    have hscaled := scaled_eq hm hqs.1 hdvd.1
    have habs : |(m.toInt : ℚ) * q.toRat| = m.toInt * |q.toRat| := by
      rw [abs_mul, abs_of_pos hm']
    rw [List.map_cons, List.sum_cons, mul_add, ← habs, ← hscaled] at h
    have ha := abs_nonneg (a.toInt : ℚ)
    obtain ⟨n, hn⟩ := Int64.exists_ofInt? (i := q.num.toInt * (m / q.den).toInt) <|
      natAbs_lt_of_abs_lt (by push_cast; linarith)
    have hnval := Int64.ofInt?_eq_some_iff.1 hn
    have hadd := abs_add_le (a.toInt : ℚ) (q.num.toInt * (m / q.den).toInt : ℚ)
    obtain ⟨b, hb⟩ := Int64.exists_ofInt? (i := a.toInt + n.toInt) <|
      natAbs_lt_of_abs_lt (by rw [hnval]; push_cast; linarith)
    have hbval := Int64.ofInt?_eq_some_iff.1 hb
    obtain ⟨s, hs, hlt⟩ := ih (a := b) hqs.2 hdvd.2 <| by
      rw [hbval, hnval]
      push_cast
      linarith
    refine ⟨s, ?_, hlt⟩
    rw [List.foldlM_cons, Int64.mul?, hn, Option.bind_eq_bind, Option.bind_some, Int64.add?, hb]
    exact hs

/-- The magnitude of a sum bounds the absolute values of all fractions together. -/
theorem den_mul_sum_abs_le {qs : List Fraction} (hqs : ∀ q ∈ qs, 0 < q.den.toInt) :
    ((qs.map magnitude).sum.den : ℚ) * (qs.map fun q => |q.toRat|).sum ≤
      (qs.map magnitude).sum.num := by
  induction qs with
  | nil => simp
  | cons q qs ih =>
    rw [List.forall_mem_cons] at hqs
    have hnum := ih hqs.2
    have hden : (q.magnitude.den : ℚ) = q.den.toInt := by exact_mod_cast den_magnitude hqs.1
    have hq : (q.magnitude.den : ℚ) * |q.toRat| ≤ q.magnitude.num := by
      have hpos : (0 : ℚ) < q.den.toInt := by exact_mod_cast hqs.1
      have hle : q.num.toInt.natAbs ≤ q.magnitude.num := by simp [magnitude, ofInt]
      rw [hden, toRat, abs_div, abs_of_pos hpos, mul_div_cancel₀ _ hpos.ne', ← Int.cast_abs,
        Int.abs_eq_natAbs]
      exact_mod_cast hle
    simp only [List.map_cons, List.sum_cons, num_add, den_add]
    push_cast
    calc (q.magnitude.den : ℚ) * (qs.map magnitude).sum.den *
          (|q.toRat| + (qs.map fun q => |q.toRat|).sum)
        = q.magnitude.den * |q.toRat| * (qs.map magnitude).sum.den +
            (qs.map magnitude).sum.den * (qs.map fun q => |q.toRat|).sum * q.magnitude.den := by
          ring
      _ ≤ q.magnitude.num * (qs.map magnitude).sum.den +
            (qs.map magnitude).sum.num * q.magnitude.den := by gcongr

/-- Fractions whose sum has a magnitude that fits have a sum. -/
theorem exists_sum? {qs : List Fraction} (hqs : ∀ q ∈ qs, 0 < q.den.toInt)
    (hfits : (qs.map magnitude).sum.Fits) : ∃ r, sum? qs = some r := by
  have hqs0 : ∀ q ∈ qs, q.den ≠ 0 := fun q hq =>
    Int64.ne_zero_iff_toInt_ne_zero.2 (hqs q hq).ne'
  have hden : ((qs.map magnitude).sum.den : ℤ) < 2 ^ 63 := by exact_mod_cast hfits.den
  have hnum : ((qs.map magnitude).sum.num : ℚ) < 2 ^ 63 := by exact_mod_cast hfits.num
  obtain ⟨m, hm, hle⟩ := exists_commonDen?_aux (a := 1) (by simp) hqs (by simpa using hden)
  obtain ⟨hmpos, hdvd⟩ := commonDen?_eq_some hqs0 hm
  rw [Int64.toInt_one, one_mul] at hle
  obtain ⟨s, hs, hlt⟩ := exists_sumOver?_aux (a := 0) hmpos hqs0 hdvd <| by
    have habs : 0 ≤ (qs.map fun q => |q.toRat|).sum :=
      List.sum_nonneg (List.forall_mem_map.2 fun q _ => abs_nonneg q.toRat)
    have hle' : (m.toInt : ℚ) ≤ (qs.map magnitude).sum.den := by exact_mod_cast hle
    rw [Int64.toInt_zero, Int.cast_zero, abs_zero, zero_add]
    exact (mul_le_mul_of_nonneg_right hle' habs).trans (den_mul_sum_abs_le hqs) |>.trans_lt hnum
  have hmin : ∀ n : Int64, n.toInt.natAbs < 2 ^ 63 → n ≠ Int64.minValue := fun n hn => by
    rw [Ne, ← Int64.toInt_inj, Int64.toInt_minValue]
    omega
  rw [sum?_eq_reduce? hm hs]
  exact exists_reduce? (Int64.ne_zero_iff_toInt_ne_zero.2 hmpos.ne') (hmin s hlt)
    (hmin m (by omega))

end Fraction

end ComputerAlgebra
