import ComputerAlgebra.Integer.Fraction
import ComputerAlgebra.Proofs.Integer.Exact

/-!
# Exactness of fractions

A fraction stands for a rational number. Reduction and addition, where they give a result, give the
lowest terms of the exact rational result.
-/

namespace ComputerAlgebra

namespace Fraction

/-- The rational number that a fraction stands for. -/
def toRat (q : Fraction) : ℚ := q.num.toInt / q.den.toInt

/-- Numerator and denominator have no common factor, and the denominator is positive. -/
structure IsLowest (q : Fraction) : Prop where
  den_pos : 0 < q.den.toInt
  coprime : q.num.toInt.natAbs.Coprime q.den.toInt.natAbs

variable {q r : Fraction} {a b c : Int64}

/-- A fraction in lowest terms has the numerator of its value. -/
theorem IsLowest.num_eq (h : q.IsLowest) : q.toRat.num = q.num.toInt :=
  Rat.num_div_eq_of_coprime h.den_pos h.coprime

/-- A fraction in lowest terms has the denominator of its value. -/
theorem IsLowest.den_eq (h : q.IsLowest) : (q.toRat.den : ℤ) = q.den.toInt :=
  Rat.den_div_eq_of_coprime h.den_pos h.coprime

/-- A rational number has one fraction in lowest terms. -/
theorem IsLowest.eq_of_toRat_eq (hq : q.IsLowest) (hr : r.IsLowest) (h : q.toRat = r.toRat) :
    q = r := by
  have hnum : q.num = r.num := Int64.toInt_inj.1 (by rw [← hq.num_eq, ← hr.num_eq, h])
  have hden : q.den = r.den := Int64.toInt_inj.1 (by rw [← hq.den_eq, ← hr.den_eq, h])
  cases q
  cases r
  simp_all

/-- The value of a fraction is negative if numerator and denominator have opposite signs. -/
theorem toRat_neg_iff : q.toRat < 0 ↔
    q.num.toInt < 0 ∧ 0 < q.den.toInt ∨ 0 < q.num.toInt ∧ q.den.toInt < 0 := by
  rw [toRat, div_neg_iff, or_comm]
  norm_cast

/-- The sign of a fraction in lowest terms is that of its numerator. -/
theorem IsLowest.num_neg_iff (h : q.IsLowest) : q.num.toInt < 0 ↔ q.toRat < 0 := by
  rw [← Rat.num_neg, h.num_eq]

/-- The lowest terms divide numerator and denominator. -/
theorem IsLowest.dvd (hq : q.IsLowest) (hr : r.den ≠ 0) (h : q.toRat = r.toRat) :
    q.num.toInt ∣ r.num.toInt ∧ q.den.toInt ∣ r.den.toInt := by
  have hcop : IsCoprime q.num.toInt q.den.toInt := Int.isCoprime_iff_gcd_eq_one.2 hq.coprime
  have hmul : q.num.toInt * r.den.toInt = r.num.toInt * q.den.toInt := by
    have hq0 : (q.den.toInt : ℚ) ≠ 0 := by exact_mod_cast hq.den_pos.ne'
    have hr0 : (r.den.toInt : ℚ) ≠ 0 := by
      exact_mod_cast Int64.ne_zero_iff_toInt_ne_zero.1 hr
    rw [toRat, toRat, div_eq_div_iff hq0 hr0] at h
    exact_mod_cast h
  exact ⟨hcop.dvd_of_dvd_mul_right (Dvd.intro _ hmul),
    hcop.symm.dvd_of_dvd_mul_left (Dvd.intro_left _ hmul.symm)⟩

/-! ### Divisors -/

/-- Divisors of 64-bit integers are at most `2 ^ 63`, which the divisor of the least integer and
itself reaches. -/
theorem natGcd_le (a b : Int64) : Nat.gcd a.toInt.natAbs b.toInt.natAbs ≤ 2 ^ 63 := by
  have ha := a.le_toInt
  have ha' := a.toInt_lt
  have hb := b.le_toInt
  have hb' := b.toInt_lt
  rcases Nat.eq_zero_or_pos a.toInt.natAbs with h | h
  · rw [h, Nat.gcd_zero_left]
    omega
  · exact (Nat.gcd_le_left _ h).trans (by omega)

/-- The greatest common divisor is exact unless it is `2 ^ 63`. -/
theorem toInt_gcd (a b : Int64) :
    (gcd a b).toInt = Nat.gcd a.toInt.natAbs b.toInt.natAbs ∨
      (gcd a b).toInt = 1 ∧ Nat.gcd a.toInt.natAbs b.toInt.natAbs = 2 ^ 63 := by
  rw [gcd]
  cases h : Int64.ofInt? (Nat.gcd a.toInt.natAbs b.toInt.natAbs) with
  | some g => exact .inl (Int64.ofInt?_eq_some_iff.1 h)
  | none =>
    rw [Int64.ofInt?_eq_none_iff] at h
    have := natGcd_le a b
    exact .inr ⟨Int64.toInt_one, by omega⟩

/-- The divisor that the program computes divides the first number, also where it gives up and
answers `1`. -/
theorem gcd_dvd_left (a b : Int64) : (gcd a b).toInt ∣ a.toInt := by
  rcases toInt_gcd a b with h | ⟨h, -⟩
  · rw [h, Int.natCast_dvd]
    exact Nat.gcd_dvd_left _ _
  · rw [h]
    exact one_dvd _

theorem gcd_dvd_right (a b : Int64) : (gcd a b).toInt ∣ b.toInt := by
  rcases toInt_gcd a b with h | ⟨h, -⟩
  · rw [h, Int.natCast_dvd]
    exact Nat.gcd_dvd_right _ _
  · rw [h]
    exact one_dvd _

theorem gcd_pos (h : b ≠ 0) : 0 < (gcd a b).toInt := by
  rw [Int64.ne_zero_iff_toInt_ne_zero] at h
  rcases toInt_gcd a b with hg | ⟨hg, -⟩
  · rw [hg, Int.natCast_pos]
    exact Nat.gcd_pos_of_pos_right _ (by omega)
  · omega

/-- Division by a positive divisor is exact. -/
theorem toInt_div_of_dvd (hb : 0 < b.toInt) (h : b.toInt ∣ a.toInt) :
    (a / b).toInt * b.toInt = a.toInt := by
  have hne : b ≠ -1 := by
    rintro rfl
    simp at hb
  rw [Int64.toInt_div_of_ne_right _ _ hne, Int.tdiv_mul_cancel h]

/-! ### Reduction -/

/-- Numerator and denominator can be divided by a common factor. -/
theorem toRat_eq_of_mul {g : ℤ} (hg : g ≠ 0) (hn : r.num.toInt * g = q.num.toInt)
    (hd : r.den.toInt * g = q.den.toInt) : r.toRat = q.toRat := by
  have hg' : (g : ℚ) ≠ 0 := by exact_mod_cast hg
  rw [toRat, toRat, ← hn, ← hd]
  push_cast
  rw [mul_div_mul_right _ _ hg']

/-- What is left of two integers after division by their greatest common divisor. -/
theorem coprime_of_mul_gcd {i j k l : ℤ} (hi : k * Nat.gcd i.natAbs j.natAbs = i)
    (hj : l * Nat.gcd i.natAbs j.natAbs = j) (hne : j ≠ 0) :
    k.natAbs.Coprime l.natAbs := by
  have hpos : 0 < Nat.gcd i.natAbs j.natAbs := Nat.gcd_pos_of_pos_right _ (by omega)
  have hk : k.natAbs * Nat.gcd i.natAbs j.natAbs = i.natAbs := by
    conv_rhs => rw [← hi, Int.natAbs_mul, Int.natAbs_natCast]
  have hl : l.natAbs * Nat.gcd i.natAbs j.natAbs = j.natAbs := by
    conv_rhs => rw [← hj, Int.natAbs_mul, Int.natAbs_natCast]
  have hgcd := Nat.gcd_mul_right k.natAbs (Nat.gcd i.natAbs j.natAbs) l.natAbs
  rw [hk, hl] at hgcd
  exact Nat.eq_of_mul_eq_mul_right hpos (by omega)

/-- A reduction goes through only with the true greatest common divisor: where `gcd` falls back on
`1`, the denominator is the least integer and has no opposite. -/
theorem toInt_gcd_of_reduce? (hq : q.den ≠ 0) (h : reduce? q = some r) :
    (gcd q.num q.den).toInt = Nat.gcd q.num.toInt.natAbs q.den.toInt.natAbs := by
  refine (toInt_gcd q.num q.den).resolve_right fun ⟨hg, hgcd⟩ => ?_
  have hle : 2 ^ 63 ≤ q.den.toInt.natAbs := by
    rw [← hgcd]
    refine Nat.gcd_le_right _ ?_
    have := Int64.ne_zero_iff_toInt_ne_zero.1 hq
    omega
  have hlt := q.den.toInt_lt
  have hone : gcd q.num q.den = 1 := Int64.toInt_inj.1 (by rw [hg, Int64.toInt_one])
  have hneg : q.den < 0 := by
    rw [Int64.lt_iff_toInt_lt, Int64.toInt_zero]
    omega
  simp only [reduce?, hone, Int64.div_one, if_pos hneg] at h
  cases hd : q.den.neg? with
  | none => simp [hd] at h
  | some d =>
    rw [Int64.neg?_eq_some_iff] at hd
    have := d.toInt_lt
    omega

/-- A fraction that can be reduced is brought to lowest terms, and keeps its value. -/
theorem reduce?_eq_some (hq : q.den ≠ 0) (h : reduce? q = some r) :
    r.IsLowest ∧ r.toRat = q.toRat := by
  have hg : 0 < (gcd q.num q.den).toInt := gcd_pos hq
  have hn := toInt_div_of_dvd hg (gcd_dvd_left q.num q.den)
  have hd := toInt_div_of_dvd hg (gcd_dvd_right q.num q.den)
  have hq' := Int64.ne_zero_iff_toInt_ne_zero.1 hq
  -- the parts are divided by the greatest common divisor, or by `1` where that does not fit
  have hcop : (q.num / gcd q.num q.den).toInt.natAbs.Coprime
      (q.den / gcd q.num q.den).toInt.natAbs := by
    rw [toInt_gcd_of_reduce? hq h] at hn hd
    exact coprime_of_mul_gcd hn hd hq'
  have hd0 : (q.den / gcd q.num q.den).toInt ≠ 0 := by
    intro h0
    rw [h0, zero_mul] at hd
    exact hq' hd.symm
  simp only [reduce?] at h
  -- a negative denominator passes its sign on to the numerator
  split at h
  · next hneg =>
    rw [Int64.lt_iff_toInt_lt, Int64.toInt_zero] at hneg
    cases hn' : (q.num / gcd q.num q.den).neg? with
    | none => simp [hn'] at h
    | some n =>
      cases hd' : (q.den / gcd q.num q.den).neg? with
      | none => simp [hn', hd'] at h
      | some d =>
        simp only [hn', hd', Option.pure_def, Option.bind_eq_bind, Option.bind_some,
          Option.some.injEq] at h
        rw [Int64.neg?_eq_some_iff] at hn' hd'
        subst h
        refine ⟨⟨by simp only; omega, ?_⟩, ?_⟩
        · simpa only [hn', hd', Int.natAbs_neg] using hcop
        · refine toRat_eq_of_mul (g := -(gcd q.num q.den).toInt) (by omega) ?_ ?_
          · simp only [hn', neg_mul_neg, hn]
          · simp only [hd', neg_mul_neg, hd]
  · next hpos =>
    rw [Int64.lt_iff_toInt_lt, Int64.toInt_zero] at hpos
    cases h
    exact ⟨⟨by simp only; omega, hcop⟩, toRat_eq_of_mul (by omega) hn hd⟩

/-! ### Common denominators -/

/-- A least common multiple that has a result is a positive common multiple. -/
theorem lcm?_eq_some (ha : 0 < a.toInt) (hb : b ≠ 0) (h : lcm? a b = some c) :
    0 < c.toInt ∧ a.toInt ∣ c.toInt ∧ b.toInt ∣ c.toInt := by
  have hg : 0 < (gcd a b).toInt := gcd_pos hb
  have hdiv := toInt_div_of_dvd hg (gcd_dvd_left a b)
  have hg0 : gcd a b ≠ 0 := Int64.ne_zero_iff_toInt_ne_zero.2 (by omega)
  simp only [lcm?, if_neg hg0, Option.bind_eq_bind, Option.bind_eq_some_iff] at h
  obtain ⟨m, hm, hc⟩ := h
  rw [Int64.mul?_eq_some_iff] at hm
  rw [Int64.abs?_eq_some_iff] at hc
  have hb' := Int64.ne_zero_iff_toInt_ne_zero.1 hb
  have hm0 : m.toInt ≠ 0 := by
    rw [hm]
    refine mul_ne_zero ?_ hb'
    intro h0
    rw [h0, zero_mul] at hdiv
    omega
  refine ⟨by rw [hc]; exact abs_pos.2 hm0, ?_, ?_⟩
  · rw [hc, dvd_abs, hm]
    obtain ⟨k, hk⟩ := gcd_dvd_right a b
    refine ⟨k, ?_⟩
    conv_lhs => rw [hk]
    conv_rhs => rw [← hdiv]
    ring
  · rw [hc, dvd_abs, hm]
    exact dvd_mul_left _ _

/-- Folding in more denominators keeps the multiple a multiple of those before: the invariant of
`commonDen?`. -/
theorem commonDen?_eq_some_aux {qs : List Fraction} {m : Int64} (hqs : ∀ q ∈ qs, q.den ≠ 0)
    (ha : 0 < a.toInt) (h : qs.foldlM (fun m q => lcm? m q.den) a = some m) :
    0 < m.toInt ∧ a.toInt ∣ m.toInt ∧ ∀ q ∈ qs, q.den.toInt ∣ m.toInt := by
  induction qs generalizing a with
  | nil =>
    cases h
    exact ⟨ha, dvd_rfl, by simp⟩
  | cons q qs ih =>
    simp only [List.foldlM_cons, Option.bind_eq_bind, Option.bind_eq_some_iff] at h
    obtain ⟨c, hc, hm⟩ := h
    obtain ⟨hcpos, hac, hqc⟩ := lcm?_eq_some ha (hqs q List.mem_cons_self) hc
    obtain ⟨hmpos, hcm, hqm⟩ := ih (fun r hr => hqs r (List.mem_cons_of_mem q hr)) hcpos hm
    refine ⟨hmpos, hac.trans hcm, fun r hr => ?_⟩
    rcases List.mem_cons.1 hr with rfl | hr
    · exact hqc.trans hcm
    · exact hqm r hr

/-- A common denominator is a positive multiple of all denominators. -/
theorem commonDen?_eq_some {qs : List Fraction} {m : Int64} (hqs : ∀ q ∈ qs, q.den ≠ 0)
    (h : commonDen? qs = some m) : 0 < m.toInt ∧ ∀ q ∈ qs, q.den.toInt ∣ m.toInt := by
  obtain ⟨hpos, -, hdvd⟩ := commonDen?_eq_some_aux hqs (by decide) h
  exact ⟨hpos, hdvd⟩

/-! ### Sums -/

/-- Scaling a numerator to a common denominator is exact. -/
theorem scaled_eq {m : Int64} (hm : 0 < m.toInt) (hq : q.den ≠ 0) (h : q.den.toInt ∣ m.toInt) :
    (q.num.toInt * (m / q.den).toInt : ℚ) = m.toInt * q.toRat := by
  have hmin : m ≠ Int64.minValue := by
    rintro rfl
    exact absurd hm (by decide)
  have hmul : ((m / q.den).toInt * q.den.toInt : ℚ) = m.toInt := by
    rw [Int64.toInt_div_of_ne_left _ _ hmin]
    exact_mod_cast Int.tdiv_mul_cancel h
  have hq' : (q.den.toInt : ℚ) ≠ 0 := by exact_mod_cast Int64.ne_zero_iff_toInt_ne_zero.1 hq
  rw [toRat, ← hmul]
  field_simp

/-- The sum of the numerators over a common denominator is the sum of the fractions: the invariant
of `sumOver?`. -/
theorem sumOver?_eq_some_aux {qs : List Fraction} {m s : Int64} (hm : 0 < m.toInt)
    (hqs : ∀ q ∈ qs, q.den ≠ 0) (hdvd : ∀ q ∈ qs, q.den.toInt ∣ m.toInt)
    (h : qs.foldlM (fun s q => do s.add? (← q.num.mul? (m / q.den))) a = some s) :
    (s.toInt : ℚ) = a.toInt + m.toInt * (qs.map toRat).sum := by
  induction qs generalizing a with
  | nil =>
    cases h
    simp
  | cons q qs ih =>
    simp only [List.foldlM_cons, Option.bind_eq_bind, Option.bind_eq_some_iff] at h
    obtain ⟨b, ⟨n, hn, hb⟩, hs⟩ := h
    rw [Int64.mul?_eq_some_iff] at hn
    rw [Int64.add?_eq_some_iff] at hb
    have hscaled := scaled_eq hm (hqs q List.mem_cons_self) (hdvd q List.mem_cons_self)
    rw [ih (fun r hr => hqs r (List.mem_cons_of_mem q hr))
      (fun r hr => hdvd r (List.mem_cons_of_mem q hr)) hs, hb, hn]
    push_cast
    rw [hscaled, List.map_cons, List.sum_cons]
    ring

/-- With a common denominator and a sum over it, fractions are added by reducing the one over the
other. -/
theorem sum?_eq_reduce? {qs : List Fraction} {m s : Int64} (hm : commonDen? qs = some m)
    (hs : sumOver? m qs = some s) : sum? qs = reduce? ⟨s, m⟩ := by
  simp only [sum?, hm, hs, Option.bind_eq_bind, Option.bind_some]

/-- A sum of fractions is in lowest terms and exact. -/
theorem sum?_eq_some {qs : List Fraction} (hqs : ∀ q ∈ qs, q.den ≠ 0) (h : sum? qs = some r) :
    r.IsLowest ∧ r.toRat = (qs.map toRat).sum := by
  simp only [sum?, Option.bind_eq_bind, Option.bind_eq_some_iff] at h
  obtain ⟨m, hm, s, hs, hr⟩ := h
  obtain ⟨hmpos, hdvd⟩ := commonDen?_eq_some hqs hm
  have hm0 : m ≠ 0 := Int64.ne_zero_iff_toInt_ne_zero.2 (by omega)
  obtain ⟨hlow, hval⟩ := reduce?_eq_some hm0 hr
  refine ⟨hlow, ?_⟩
  have hm' : (m.toInt : ℚ) ≠ 0 := by exact_mod_cast hmpos.ne'
  rw [hval, toRat, sumOver?_eq_some_aux hmpos hqs hdvd hs, Int64.toInt_zero]
  field_simp
  push_cast
  ring

/-! ### Sums of two -/

theorem IsLowest.ofInt (n : Int64) : IsLowest ⟨n, 1⟩ where
  den_pos := by simp
  coprime := by simp

/-- Nothing can be cancelled in a fraction in lowest terms. -/
theorem IsLowest.gcd_eq (h : q.IsLowest) : gcd q.num q.den = 1 := by
  rw [gcd, h.coprime]
  rfl

/-- Lowest terms are their own lowest terms. -/
theorem IsLowest.reduce?_eq (h : q.IsLowest) : reduce? q = some q := by
  have hpos : ¬q.den < 0 := by
    have := h.den_pos
    rw [Int64.lt_iff_toInt_lt, Int64.toInt_zero]
    omega
  rw [reduce?, h.gcd_eq]
  simp only [Int64.div_one, if_neg hpos]

/-- The least common multiple of numbers without common divisor is their product. -/
theorem lcm?_eq_bind (h : gcd a b = 1) : lcm? a b = (a.mul? b).bind Int64.abs? := by
  have hne : (1 : Int64) ≠ 0 := by decide
  show (if gcd a b = 0 then some 0 else ((a / gcd a b).mul? b).bind Int64.abs?) = _
  rw [h, if_neg hne, Int64.div_one]

theorem lcm?_one_left (h : 0 < a.toInt) : lcm? 1 a = some a := by
  have hgcd : gcd 1 a = 1 := by simp [gcd, Int64.ofInt?]
  rw [lcm?_eq_bind hgcd, Int64.one_mul?, Option.bind_some, Int64.abs?_of_pos h]

theorem lcm?_one_right (h : 0 < a.toInt) : lcm? a 1 = some a := by
  have hgcd : gcd a 1 = 1 := by simp [gcd, Int64.ofInt?]
  rw [lcm?_eq_bind hgcd, Int64.mul?_one, Option.bind_some, Int64.abs?_of_pos h]

/-- The sum of two fractions whose numerators over the common denominator are known. -/
theorem sum?_pair {m d n s t : Int64} (hd : lcm? 1 q.den = some d) (hm : lcm? d r.den = some m)
    (hn : q.num.mul? (m / q.den) = some n) (hs : r.num.mul? (m / r.den) = some s)
    (ht : n.add? s = some t) : sum? [q, r] = reduce? ⟨t, m⟩ := by
  have hpair (f : Int64 → Fraction → Option Int64) (a : Int64) :
      [q, r].foldlM f a = (f a q).bind fun a => f a r := by
    simp only [List.foldlM_cons, List.foldlM_nil, bind_pure, Option.bind_eq_bind]
  refine sum?_eq_reduce? ?_ ?_
  · rw [commonDen?, hpair, hd, Option.bind_some, hm]
  · rw [sumOver?, hpair, hn, hs, Option.bind_eq_bind, Option.bind_some, Int64.zero_add?,
      Option.bind_some, Option.bind_some, ht]

/-- The lowest terms of zero. -/
theorem IsLowest.eq_zero (h : q.IsLowest) (h0 : q.num = 0) : q = ⟨0, 1⟩ :=
  h.eq_of_toRat_eq (.ofInt 0) (by simp [toRat, h0])

/-- Two integers are added as such. -/
theorem sum?_integers (h : c.toInt = a.toInt + b.toInt) : sum? [⟨a, 1⟩, ⟨b, 1⟩] = some ⟨c, 1⟩ := by
  have hone : lcm? 1 1 = some 1 := lcm?_one_left (by simp)
  have hmul (a : Int64) : a.mul? (1 / 1) = some a := by rw [Int64.div_one, Int64.mul?_one]
  rw [sum?_pair (q := ⟨a, 1⟩) (r := ⟨b, 1⟩) hone hone (hmul a) (hmul b)
    (Int64.add?_eq_some_iff.2 h), (IsLowest.ofInt c).reduce?_eq]

theorem IsLowest.mul?_div_self (h : q.IsLowest) (a : Int64) : a.mul? (q.den / q.den) = some a := by
  have hself : (q.den / q.den).toInt * q.den.toInt = q.den.toInt :=
    toInt_div_of_dvd h.den_pos dvd_rfl
  rw [Int64.mul?_eq_some_iff, Int.eq_one_of_mul_eq_self_left h.den_pos.ne' hself, mul_one]

/-- One fraction in lowest terms is its own sum. -/
theorem IsLowest.sum?_singleton (h : q.IsLowest) : sum? [q] = some q := by
  have hsingle (f : Int64 → Fraction → Option Int64) (a : Int64) : [q].foldlM f a = f a q := by
    simp only [List.foldlM_cons, List.foldlM_nil, bind_pure]
  have hden : commonDen? [q] = some q.den := by
    rw [commonDen?, hsingle, lcm?_one_left h.den_pos]
  have hnum : sumOver? q.den [q] = some q.num := by
    rw [sumOver?, hsingle, h.mul?_div_self, Option.bind_eq_bind, Option.bind_some, Int64.zero_add?]
  rw [sum?_eq_reduce? hden hnum, h.reduce?_eq]

/-- Zero may be added to lowest terms, in front or behind. -/
theorem IsLowest.sum?_zero (h : q.IsLowest) :
    sum? [⟨0, 1⟩, q] = some q ∧ sum? [q, ⟨0, 1⟩] = some q := by
  have hone : lcm? 1 1 = some 1 := lcm?_one_left (by simp)
  have hden := lcm?_one_left h.den_pos
  have hnum := h.mul?_div_self q.num
  constructor
  · rw [sum?_pair (q := ⟨0, 1⟩) hone hden (Int64.zero_mul? _) hnum (Int64.zero_add? _),
      h.reduce?_eq]
  · rw [sum?_pair (r := ⟨0, 1⟩) hden (lcm?_one_right h.den_pos) hnum (Int64.zero_mul? _)
        (Int64.add?_zero _),
      h.reduce?_eq]

/-! ### Sums of ones -/

/-- Ones have the common denominator `1`. -/
theorem commonDen?_ones (n : ℕ) : commonDen? (List.replicate n ⟨1, 1⟩) = some 1 := by
  rw [commonDen?]
  induction n with
  | zero => rfl
  | succ n ih =>
    have hlcm : lcm? 1 1 = some 1 := by decide
    rw [List.replicate_succ, List.foldlM_cons, hlcm]
    exact ih

/-- The numerators of ones are added up as long as their number fits: the invariant of the next
lemma. -/
theorem sumOver?_ones_aux {n : ℕ} (h : a.toInt + n < 2 ^ 63) :
    ∃ s, (List.replicate n (⟨1, 1⟩ : Fraction)).foldlM
      (fun s q => do s.add? (← q.num.mul? (1 / q.den))) a = some s := by
  induction n generalizing a with
  | zero => exact ⟨a, rfl⟩
  | succ n ih =>
    have ha := a.le_toInt
    push_cast at h
    have hadd : a.add? 1 = some (.ofInt (a.toInt + 1)) := by
      rw [Int64.add?, Int64.toInt_one, Int64.ofInt?, if_pos (by omega)]
    have hval := Int64.add?_eq_some_iff.1 hadd
    rw [Int64.toInt_one] at hval
    have hone : Int64.mul? 1 (1 / 1) = some 1 := by decide
    rw [List.replicate_succ, List.foldlM_cons, hone, Option.bind_eq_bind, Option.bind_some, hadd]
    exact ih (by omega)

/-- As many ones as memory can hold are added up. -/
theorem exists_sumOver?_ones {n : ℕ} (h : n < 2 ^ 63) :
    ∃ s, sumOver? 1 (List.replicate n ⟨1, 1⟩) = some s := by
  have hlt : (0 : Int64).toInt + n < 2 ^ 63 := by
    rw [Int64.toInt_zero, zero_add]
    exact_mod_cast h
  unfold sumOver?
  exact sumOver?_ones_aux hlt

/-- Ones whose number fits into 64 bits have a sum. -/
theorem exists_sum?_ones {n : ℕ} (h : n < 2 ^ 63) :
    ∃ q, sum? (List.replicate n ⟨1, 1⟩) = some q := by
  obtain ⟨s, hs⟩ := exists_sumOver?_ones h
  rw [sum?_eq_reduce? (commonDen?_ones n) hs]
  exact ⟨_, (IsLowest.ofInt s).reduce?_eq⟩

end Fraction

end ComputerAlgebra
