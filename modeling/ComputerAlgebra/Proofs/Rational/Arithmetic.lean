import ComputerAlgebra.Proofs.Rational.Folding

/-!
# Rational arithmetic

Trees of integers with sums, products and quotients are simplified to their exact values: to one
fraction in lowest terms, so that trees of one value become one tree (`simplify_rational`).

Powers are evaluated for integer bases only. Where equal factors that are no integers are collected,
the power of a fraction is left (`simplify_rational_ne`).
-/

namespace ComputerAlgebra

namespace Expr

/-- The tree is built from integers with sums, products and quotients. -/
inductive IsRational : Expr → Prop where
  | num (n : Int64) : IsRational (.num n)
  | sum {es : List Expr} (hlen : 2 ≤ es.length) (h : ∀ e ∈ es, IsRational e) : IsRational (.sum es)
  | prod {es : List Expr} (hlen : 2 ≤ es.length) (h : ∀ e ∈ es, IsRational e) :
      IsRational (.prod es)
  | quot {a b : Expr} (ha : IsRational a) (hb : IsRational b) : IsRational (.quot a b)

mutual

/-- A bound for every numerator and denominator that the evaluation of a rational tree comes across:
an integer counts with its absolute value, and a sum of several addends as often as there are
addends. -/
def sizeBound : Expr → ℕ
  | .num n => max 1 n.toInt.natAbs
  | .sum es => es.length * sizeBoundAll es
  | .prod es => sizeBoundAll es
  | .quot a b => sizeBound a * sizeBound b
  | _ => 1

/-- The product of the size bounds of several trees. -/
def sizeBoundAll : List Expr → ℕ
  | [] => 1
  | e :: es => sizeBound e * sizeBoundAll es

end

variable {e : Expr} {es : List Expr}

namespace IsRational

theorem closed (h : IsRational e) : Closed e := by
  induction h with
  | num n => exact .num n
  | sum hlen _ ih => exact .sum hlen ih
  | prod hlen _ ih => exact .prod hlen ih
  | quot _ _ iha ihb => exact .quot iha ihb

/-- The parts of sums and products are bounded together. -/
theorem magnitudes_le
    (h : ∀ e ∈ es, e.magnitude ≤ ⟨e.sizeBound, e.sizeBound, e.nodeCount⟩) :
    (es.map magnitude).sum ≤ ⟨es.length * sizeBoundAll es, sizeBoundAll es, nodeCountAll es⟩ ∧
      (es.map magnitude).prod ≤ ⟨sizeBoundAll es, sizeBoundAll es, nodeCountAll es⟩ := by
  induction es with
  | nil => exact ⟨⟨Nat.zero_le _, le_rfl, le_rfl⟩, ⟨le_rfl, le_rfl, le_rfl⟩⟩
  | cons e es ih =>
    rw [List.forall_mem_cons] at h
    obtain ⟨⟨hnum, hden, hsigns⟩, hsum, hprod⟩ := And.intro h.1 (ih h.2)
    rw [List.map_cons, List.sum_cons, List.prod_cons, sizeBoundAll, nodeCountAll, List.length_cons]
    refine ⟨⟨?_, Nat.mul_le_mul hden hsum.2.1, Nat.add_le_add hsigns hsum.2.2⟩,
      ⟨Nat.mul_le_mul hnum hprod.1, Nat.mul_le_mul hden hprod.2.1, Nat.add_le_add hsigns hprod.2.2⟩⟩
    calc e.magnitude.num * (es.map magnitude).sum.den + (es.map magnitude).sum.num * e.magnitude.den
        ≤ e.sizeBound * sizeBoundAll es + es.length * sizeBoundAll es * e.sizeBound :=
          Nat.add_le_add (Nat.mul_le_mul hnum hsum.2.1) (Nat.mul_le_mul hsum.1 hden)
      _ = (es.length + 1) * (e.sizeBound * sizeBoundAll es) := by ring

/-- The size bound bounds numerators and denominators. -/
theorem magnitude_le (h : IsRational e) :
    e.magnitude ≤ ⟨e.sizeBound, e.sizeBound, e.nodeCount⟩ := by
  induction h with
  | num n =>
    rw [magnitude_num]
    refine ⟨?_, ?_, ?_⟩
    · simp [Magnitude.ofInt, sizeBound]
    · simp [Magnitude.ofInt, sizeBound]
    · simp only [Magnitude.ofInt, nodeCount]
      split_ifs <;> simp
  | @sum es hlen _ ih =>
    obtain ⟨⟨hnum, hden, hsigns⟩, -⟩ := magnitudes_le ih
    rw [magnitude_sum]
    simp only [sizeBound, nodeCount]
    exact ⟨hnum, hden.trans (Nat.le_mul_of_pos_left _ (by omega)),
      hsigns.trans (Nat.le_add_left _ _)⟩
  | prod _ _ ih =>
    obtain ⟨-, hnum, hden, hsigns⟩ := magnitudes_le ih
    rw [magnitude_prod]
    simp only [sizeBound, nodeCount]
    exact ⟨hnum, hden, hsigns.trans (Nat.le_add_left _ _)⟩
  | @quot a b _ _ iha ihb =>
    rw [magnitude_quot]
    simp only [sizeBound, nodeCount]
    refine ⟨Nat.mul_le_mul iha.1 ihb.2.1, Nat.mul_le_mul iha.2.1 ihb.1, ?_⟩
    exact (Nat.add_le_add iha.2.2 ihb.2.2).trans (Nat.le_add_left _ _)

end IsRational

end Expr

namespace Simplification

open ComputerAlgebra.Expr

variable {K : Type} [Field K] [LinearOrder K] [ExactNumbers K] {ρ : String → K} {v w : Expr}

/-- A rational tree in which no denominator is zero, whose size bound fits into 64 bits, and which
memory can hold. -/
structure Evaluable (ρ : String → K) (v : Expr) : Prop where
  rational : v.IsRational
  defined : Exact.Defined ρ v
  size : v.sizeBound < 2 ^ 63
  nodes : v.nodeCount < 2 ^ 63

/-- A tree that rounds end at is one number of the value of the tree they began with, unless it has
a power of a fraction in it. -/
theorem Evaluable.iterate_round (h : Evaluable ρ v) {k : ℕ}
    (hfix : round (round^[k] v) = round^[k] v) (hpow : Everywhere NoFractionPower (round^[k] v)) :
    ∃ q : Fraction, q.IsLowest ∧ (q.toRat : K) = Exact.value ρ v ∧ round^[k] v = .ofFraction q := by
  have hshrinks := shrinks_iterate_round h.rational.closed k
  obtain ⟨hdef, hval⟩ := exact_refines_iterate_round h.rational.closed.wellFormed k ρ h.defined
  have hfits : (round^[k] v).magnitude.Fits :=
    have hle := hshrinks.le.trans h.rational.magnitude_le
    ⟨hle.1.trans_lt h.size, hle.2.1.trans_lt h.size, hle.2.2.trans_lt h.nodes⟩
  generalize round^[k] v = t at *
  have hflat := shrinks_flatten hshrinks.closed
  have hprep := prepared_flatten hshrinks.closed.wellFormed (hfix ▸ anchored_round t)
    (hfix.symm ▸ .refl t)
  have hbounded : Bounded (flatten t) :=
    ⟨hflat.closed, hfits.of_le hflat.le, hprep.identities, hprep.quiet.anchored⟩
  obtain ⟨hprep, -, hcollect, -⟩ := prepared_of_fewOnes hfix hbounded.fewOnes
  obtain ⟨q, hlow, rfl⟩ := Resting.isNumber ⟨hprep, hcollect⟩
    ⟨hshrinks.closed, hfits, hprep.identities, hprep.quiet.anchored⟩ hdef hpow
  exact ⟨q, hlow, by rw [← hval, value_ofFraction], rfl⟩

/-- Rational trees are simplified to their exact values. The rounds reach a fixed point, which is
the result under every cap that leaves room for it, and under none. Where no power of a fraction is
left in it, it is the fraction in lowest terms, and trees of one value have one result. -/
theorem simplify_rational (hv : Evaluable ρ v) (hw : Evaluable ρ w) :
    (∃ k t, round^[k + 1] v = round^[k] v ∧ t = round^[k] v ∧
      (∀ cap : Option ℕ, k < cap.getD unbounded → simplify cap v = .ok t) ∧
      Exact.Defined ρ t ∧ Exact.value ρ t = Exact.value ρ v ∧ (Everywhere NoFractionPower t →
        ∃ q : Fraction, q.IsLowest ∧ (q.toRat : K) = Exact.value ρ v ∧ t = .ofFraction q)) ∧
    ∀ (cap cap' : Option ℕ) (s t : Expr), simplify cap v = .ok s → simplify cap' w = .ok t →
      Exact.value ρ v = Exact.value ρ w →
      Everywhere NoFractionPower s → Everywhere NoFractionPower t → s = t := by
  constructor
  · obtain ⟨k, hk⟩ := exists_round_eq_self v
    obtain ⟨hdef, hval⟩ :=
      exact_refines_iterate_round hv.rational.closed.wellFormed k ρ hv.defined
    have hstep : round^[k + 1] v = round^[k] v := by rw [Function.iterate_succ_apply', hk]
    exact ⟨k, round^[k] v, hstep, rfl, fun _ => converge_eq_ok hk, hdef, hval, hv.iterate_round hk⟩
  · intro cap cap' s t hs ht heq hpows hpowt
    have hfixs := step_eq_of_converge hs
    have hfixt := step_eq_of_converge ht
    obtain ⟨j, rfl⟩ := converge_eq_iterate (.inl hs)
    obtain ⟨k, rfl⟩ := converge_eq_iterate (.inl ht)
    obtain ⟨q, hq, hqv, hsq⟩ := hv.iterate_round hfixs hpows
    obtain ⟨r, hr, hrw, htr⟩ := hw.iterate_round hfixt hpowt
    have hqr : q.toRat = r.toRat := by
      exact_mod_cast hqv.trans (heq.trans hrw.symm)
    rw [hsq, htr, hq.eq_of_toRat_eq hr hqr]

/-- `1 / 2 + 1 / 3` is simplified to `5 / 6`, and so is `10 / 12`. -/
theorem simplify_rational_halves :
    simplify none (.sum [.quot (.num 1) (.num 2), .quot (.num 1) (.num 3)]) =
        .ok (.quot (.num 5) (.num 6)) ∧
      ∀ t, simplify none (.quot (.num 10) (.num 12)) = .ok t → Everywhere NoFractionPower t →
        .quot (.num 5) (.num 6) = t := by
  let _ := ExactNumbers.ofOrderedField ℚ
  have hquot : ∀ n d : Int64, d.toInt ≠ 0 →
      IsRational (.quot (.num n) (.num d)) ∧
        Exact.Defined (fun _ => (0 : ℚ)) (.quot (.num n) (.num d)) :=
    fun n d hd => ⟨.quot (.num n) (.num d), .quot (.num n) (.num d) (by simpa using hd)⟩
  obtain ⟨hr2, hd2⟩ := hquot 1 2 (by decide)
  obtain ⟨hr3, hd3⟩ := hquot 1 3 (by decide)
  obtain ⟨hr, hd⟩ := hquot 10 12 (by decide)
  have hv : Evaluable (fun _ => (0 : ℚ))
      (.sum [.quot (.num 1) (.num 2), .quot (.num 1) (.num 3)]) :=
    ⟨.sum (by decide) (by simp [hr2, hr3]),
      .sum (by simp only [List.forall_mem_cons]; exact ⟨hd2, hd3, nofun⟩), by decide, by decide⟩
  have hw : Evaluable (fun _ => (0 : ℚ)) (.quot (.num 10) (.num 12)) :=
    ⟨hr, hd, by decide, by decide⟩
  have hs : simplify none (.sum [.quot (.num 1) (.num 2), .quot (.num 1) (.num 3)]) =
      .ok (.quot (.num 5) (.num 6)) := by decide
  have hpow : Everywhere NoFractionPower (.quot (.num 5) (.num 6)) := by
    have hnum : ∀ n, Everywhere NoFractionPower (.num n) := fun n => .node nofun nofun
    exact .node nofun (by simp [operands, hnum])
  refine ⟨hs, fun t ht hpowt => (simplify_rational hv hw).2 none none _ t hs ht ?_ hpow hpowt⟩
  simp [Int64.toInt_one]
  norm_num

/-- The product of `1 / 2 + 1 / 3` and itself is collected to a power, and ends as the power of a
fraction, although its value is `25 / 36`. -/
theorem simplify_rational_ne :
    ∃ v : Expr, v = .prod [.sum [.quot 1 2, .quot 1 3], .sum [.quot 1 2, .quot 1 3]] ∧
      v.IsRational ∧ v.sizeBound < 2 ^ 63 ∧
      simplify none v = .ok (.pow (.quot 5 6) 2) ∧
      (∀ q, .pow (.quot 5 6) 2 ≠ Expr.ofFraction q) ∧
      simplify none (.quot 25 36) = .ok (.quot 25 36) := by
  refine ⟨_, rfl, ?_, by decide, by decide, ?_, by decide⟩
  · have hsum : IsRational (.sum [.quot 1 2, .quot 1 3]) := .sum (by decide) <| by
      simp only [List.forall_mem_cons]
      exact ⟨.quot (.num 1) (.num 2), .quot (.num 1) (.num 3), nofun⟩
    exact .prod (by decide) (by simp [hsum])
  · intro q hq
    rcases ofFraction_cases q with ⟨-, h⟩ | ⟨-, h⟩ <;> cases hq.trans h

end Simplification

end ComputerAlgebra
