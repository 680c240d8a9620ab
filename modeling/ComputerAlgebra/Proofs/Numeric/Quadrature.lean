import ComputerAlgebra.Proofs.Exact.Evaluation
import ComputerAlgebra.Proofs.Numeric.Offence
import ComputerAlgebra.Proofs.Real.Exact
import ComputerAlgebra.Proofs.Simplification.Cap

/-!
# Trapezoid sums

In exact arithmetic the integrator computes the trapezoid sum of a function over as many equal parts
as steps fit between the bounds, at least one and at most as many as 64 bits count
(`run_integrate`). The function is simplified first, which does not change its values on the grid,
and a simplification that runs out of rounds ends the integration (`run_integrate_error`). The sum
is exact for affine functions, whatever the number of parts (`run_integrate_affine`).
-/

namespace ComputerAlgebra

namespace Trapezoid

open ComputerAlgebra.Expr Simplification

variable {K : Type} [Field K] [LinearOrder K] {φ F : K → K} {a b c p q s u v w : K} {n : ℕ}

/-! ### Sums over a grid -/

/-- The points of the grid that divides an interval into equal parts, from the first bound on. -/
def gridPoint (a b : K) (n i : ℕ) : K := a + i * ((b - a) / n)

/-- The areas of the trapezoids over the parts of a grid, added up. -/
def trapezoids (φ : K → K) (a b : K) (n : ℕ) : K :=
  (b - a) / n / 2 * ∑ i ∈ Finset.range n, (φ (gridPoint a b n i) + φ (gridPoint a b n (i + 1)))

omit [LinearOrder K] in
@[simp] theorem gridPoint_zero (a b : K) (n : ℕ) : gridPoint a b n 0 = a := by simp [gridPoint]

omit [LinearOrder K] in
/-- From one point of the grid to the next it is one part of the interval. -/
theorem gridPoint_succ (a b : K) (n i : ℕ) :
    gridPoint a b n (i + 1) = gridPoint a b n i + (b - a) / n := by
  rw [gridPoint, gridPoint, Nat.cast_succ, add_one_mul, add_assoc]

section

variable [IsStrictOrderedRing K]

/-- The last point is the second bound. -/
theorem gridPoint_last (a b : K) (hn : 0 < n) : gridPoint a b n n = b := by
  have hn : (n : K) ≠ 0 := Nat.cast_ne_zero.mpr hn.ne'
  rw [gridPoint, mul_div_cancel₀ _ hn, add_sub_cancel]

/-- The points of the grid lie in the interval. -/
theorem gridPoint_mem_Icc (hab : a ≤ b) (hn : 0 < n) {i : ℕ} (hi : i ≤ n) :
    gridPoint a b n i ∈ Set.Icc a b := by
  have hn : (0 : K) < n := Nat.cast_pos.mpr hn
  have hi : (i : K) ≤ n := Nat.cast_le.mpr hi
  have hlength : 0 ≤ b - a := sub_nonneg.mpr hab
  have hle : i * ((b - a) / n) ≤ b - a := by
    calc i * ((b - a) / n) ≤ n * ((b - a) / n) := by gcongr
      _ = b - a := mul_div_cancel₀ _ hn.ne'
  refine ⟨le_add_of_nonneg_right (by positivity), ?_⟩
  rw [gridPoint]
  linarith

/-- If every trapezoid of the width of a part is the difference of a primitive but for a constant,
then the constant adds up, and the primitive at the bounds remains. -/
theorem trapezoids_eq (hn : 0 < n)
    (h : ∀ u, (b - a) / n / 2 * (φ u + φ (u + (b - a) / n)) = F (u + (b - a) / n) - F u + c) :
    trapezoids φ a b n = F b - F a + n * c := by
  have hpart (i : ℕ) : (b - a) / n / 2 * (φ (gridPoint a b n i) + φ (gridPoint a b n (i + 1))) =
      (F (gridPoint a b n (i + 1)) - F (gridPoint a b n i)) + c := by
    rw [gridPoint_succ, h]
  rw [trapezoids, Finset.mul_sum, Finset.sum_congr rfl fun i _ => hpart i, Finset.sum_add_distrib,
    Finset.sum_range_sub (fun i => F (gridPoint a b n i)), gridPoint_last a b hn, gridPoint_zero,
    Finset.sum_const, Finset.card_range, nsmul_eq_mul]

/-- Trapezoids under a straight line leave nothing out. -/
theorem trapezoids_affine (p q a b : K) (hn : 0 < n) :
    trapezoids (fun v => p * v + q) a b n = p * (b ^ 2 - a ^ 2) / 2 + q * (b - a) := by
  rw [trapezoids_eq (F := fun v => p * v ^ 2 / 2 + q * v) (c := 0) hn fun u => by ring]
  ring

/-- Under a parabola there is an error, which depends on the number of parts. -/
theorem trapezoids_square (a b : K) (hn : 0 < n) :
    trapezoids (fun v => v * v) a b n = (b ^ 3 - a ^ 3) / 3 + (b - a) ^ 3 / (6 * n ^ 2) := by
  have hn' : (n : K) ≠ 0 := Nat.cast_ne_zero.mpr hn.ne'
  rw [trapezoids_eq (F := fun v => v ^ 3 / 3) (c := ((b - a) / n) ^ 3 / 6) hn fun u => by ring]
  field_simp

end

/-- How many parts an interval is divided into: as many as steps fit, but at least one, and at most
as many as 64 bits count. -/
def parts [FloorSemiring K] (a b s : K) : ℕ := max 1 (min ⌊(b - a) / s⌋₊ (2 ^ 64 - 1))

/-! ### The loop -/

section

variable [ExactNumbers K] {evaluate : Option K → Job (Option K)} {cap : Option ℕ} {f g : Expr}
  {x : String}

/-- From the value at one point on, the loop adds the two values of every part that is left. -/
theorem run_sumParts (lower width : K) (remaining k : ℕ) (sum : K)
    (h : ∀ i ≤ k + remaining, (evaluate (some (lower + i * width))).run false =
      (.ok (some (φ (lower + i * width))), false)) :
    (sumParts evaluate (some lower) (some width) remaining (k + 1) (some sum)
      (some (φ (lower + k * width)))).run false =
        (.ok (some (sum + ∑ i ∈ Finset.range remaining,
          (φ (lower + (k + i : ℕ) * width) + φ (lower + (k + i + 1 : ℕ) * width)))), false) := by
  -- The right value of a part is kept as the left value of the next, so both move on together.
  induction remaining generalizing k sum with
  | zero =>
    rw [Finset.range_zero, Finset.sum_empty, add_zero]
    rfl
  | succ remaining ih =>
    have hright := h (k + 1) (by omega)
    have hnext := ih (k + 1) (sum + (φ (lower + k * width) + φ (lower + (k + 1 : ℕ) * width)))
      fun i hi => h i (by omega)
    have hpoint : (some lower + Arithmetic.ofNat (k + 1) * some width : Option K) =
        some (lower + (k + 1 : ℕ) * width) := rfl
    rw [sumParts, hpoint, Job.run_bind, hright]
    refine hnext.trans ?_
    rw [Finset.sum_range_succ', add_comm (Finset.sum _ _), add_assoc]
    simp only [Nat.add_zero, Nat.add_assoc, Nat.add_comm 1]

theorem some_div_some (hw : w ≠ 0) : (some v / some w : Option K) = some (v / w) :=
  ExactNumbers.div_eq_some.mpr ⟨v, w, rfl, rfl, hw, rfl⟩

/-- Where a function has values on the grid, the integrator adds up its trapezoids. -/
theorem run_area (hcount : partCount (some (b - a)) (some s) = n) (hn : 0 < n)
    (h : ∀ i ≤ n, (evaluate (some (gridPoint a b n i))).run false =
      (.ok (some (φ (gridPoint a b n i))), false)) :
    (area evaluate (some a) (some b) (some s)).run false =
      (.ok (some (trapezoids φ a b n)), false) := by
  have hlength : (some b - some a : Option K) = some (b - a) := rfl
  have hwidth : (some (b - a) / Arithmetic.ofNat n : Option K) = some ((b - a) / n) :=
    some_div_some (Nat.cast_ne_zero.mpr hn.ne')
  have hzero : (Arithmetic.ofInt 0 : Option K) = some 0 := by simp
  have htwo : (Arithmetic.ofInt 2 : Option K) = some 2 := by simp
  have hleft : (evaluate (some a)).run false = (.ok (some (φ a)), false) := by
    simpa using h 0 (Nat.zero_le n)
  have hsum := run_sumParts a ((b - a) / n) n 0 0 fun i hi => h i (by omega)
  simp only [Nat.cast_zero, zero_mul, add_zero, zero_add] at hsum
  have hscale (S : K) : (some S * some ((b - a) / n) / Arithmetic.ofInt 2 : Option K) =
      some ((b - a) / n / 2 * S) := by
    have hproduct : (some S * some ((b - a) / n) : Option K) = some (S * ((b - a) / n)) := rfl
    rw [hproduct, htwo, some_div_some two_ne_zero, mul_comm, mul_div_right_comm]
  simp only [area, hlength, hcount, hwidth, hzero, Job.run_bind, hleft, hsum, hscale]
  rfl

/-! ### The integrator -/

/-- As a function of the variable, the expression has the value `w` at `v`. -/
def HasValueAt (f : Expr) (x : String) (v w : K) : Prop :=
  f.evaluate [(x, some v)] = .ok (some w)

/-- Where a function has a value, it has the same value once it is simplified. -/
theorem HasValueAt.simplify (h : HasValueAt f x v w) (hwf : f.WellFormed) (hx : f.unknowns = [x])
    (hg : Simplification.simplify cap f = .ok g) : HasValueAt g x v w := by
  have hname : NamedConstant.isName x = false :=
    (mem_unknowns.mp (hx ▸ List.mem_singleton_self x)).2
  have hbinds : Exact.Binds [(x, some v)] (fun _ => v) f := by
    intro y hy
    obtain hconst | rfl := names_of_unknowns hx y hy
    · exact Exact.value?_of_isName hconst
    · exact Exact.value?_eq_of_lookup hname (List.lookup_cons_self)
  have hbinds' : Exact.Binds [(x, some v)] (fun _ => v) g :=
    fun y hy => hbinds y ((writtenLike_simplify (.inl hg)).1 hy)
  obtain ⟨hdef, hvalue⟩ := (hbinds.agrees w).mp h
  obtain ⟨k, rfl⟩ := converge_eq_iterate (.inl hg)
  obtain ⟨hdef', hvalue'⟩ := exact_refines_iterate_round hwf k _ hdef
  exact (hbinds'.agrees w).mpr ⟨hdef', hvalue'.trans hvalue⟩

/-- A function that is not simplified in time is not integrated. -/
theorem run_ascending_error {lower upper step : Option K}
    (hg : Simplification.simplify cap f = .error g) :
    (ascending cap step f x lower upper).run false =
      (.error (.notConverged (cap.getD unbounded) g), false) := by
  rw [ascending, Job.run_bind, Job.run_simplify, hg]
  rfl

theorem lt_some (a b : K) : Arithmetic.lt (some a) (some b) = decide (a < b) := rfl

section Checks

variable (hf : f.isEquation = false) (hx : f.unknowns = [x]) (hs : 0 < s)

include hf hx hs

theorem integrable (a b : K) : Integrable (some s) f (some a) (some b) := by
  have hstep : Arithmetic.lt (Arithmetic.ofInt 0) (some s) = true := by
    simpa [lt_some] using hs
  exact ⟨hf, ⟨x, hx⟩, ⟨rfl, hstep⟩, rfl, rfl⟩

/-- Between equal bounds the integral is `0`, without a look at the function. -/
theorem integrate_self (a : K) : integrate cap (some s) f (some a) (some a) = pure (some 0) := by
  have heq : Arithmetic.eq (some a) (some a) = true := ExactNumbers.eq_some.mpr rfl
  rw [integrate_eq (integrable hf hx hs a a) hx, if_pos heq]
  simp

/-- From the smaller to the larger bound the integral is computed as it is. -/
theorem integrate_of_lt (hab : a < b) :
    integrate cap (some s) f (some a) (some b) = ascending cap (some s) f x (some a) (some b) := by
  have hne : ¬ Arithmetic.eq (some a) (some b) = true := by
    simpa [ExactNumbers.eq_some] using hab.ne
  rw [integrate_eq (integrable hf hx hs a b) hx, if_neg hne, if_neg]
  simpa [lt_some] using hab.le

/-- From the larger to the smaller bound the integral is the opposite of that between the bounds in
order. -/
theorem integrate_of_gt (hab : a < b) :
    integrate cap (some s) f (some b) (some a) =
      do return -(← ascending cap (some s) f x (some a) (some b)) := by
  have hne : ¬ Arithmetic.eq (some b) (some a) = true := by
    simpa [ExactNumbers.eq_some] using hab.ne'
  rw [integrate_eq (integrable hf hx hs b a) hx, if_neg hne, if_pos]
  simpa [lt_some] using hab

/-- A simplification that runs out of rounds ends the integration. -/
theorem run_integrate_error (hg : Simplification.simplify cap f = .error g) (hab : a ≠ b) :
    (integrate cap (some s) f (some a) (some b)).run false =
      (.error (.notConverged (cap.getD unbounded) g), false) := by
  obtain hlt | hgt := hab.lt_or_gt
  · rw [integrate_of_lt hf hx hs hlt, run_ascending_error hg]
  · rw [integrate_of_gt hf hx hs hgt, Job.run_bind, run_ascending_error hg]

end Checks

variable [FloorSemiring K]

omit [ExactNumbers K] in
/-- There is at least one part. -/
theorem parts_pos (a b s : K) : 0 < parts a b s := Nat.lt_of_lt_of_le one_pos (le_max_left _ _)

/-- Numbers that are not negative are cut off after the point, and at the largest count. -/
theorem truncate_eq (hv : 0 ≤ v) : Arithmetic.truncate (some v) = min ⌊v⌋₊ (2 ^ 64 - 1) := by
  show Nat.findGreatest (fun n => (n : K) ≤ v) (2 ^ 64 - 1) = _
  rw [Nat.findGreatest_eq_iff]
  refine ⟨min_le_right _ _, fun _ => (Nat.le_floor_iff hv).mp (min_le_left _ _), ?_⟩
  intro n hlt hle hn
  rw [← Nat.le_floor_iff hv] at hn
  omega

/-- The number of parts is as many as the step fits into the interval, but at least one. -/
theorem partCount_eq (hab : a ≤ b) (hs : 0 < s) :
    partCount (some (b - a)) (some s) = parts a b s := by
  rw [partCount, some_div_some hs.ne', truncate_eq (div_nonneg (sub_nonneg.mpr hab) hs.le), parts]

/-- A function that is simplified in time and has values on the grid is integrated. -/
theorem run_ascending (hwf : f.WellFormed) (hx : f.unknowns = [x])
    (hg : Simplification.simplify cap f = .ok g) (hs : 0 < s) (hab : a ≤ b)
    (h : ∀ i ≤ parts a b s, HasValueAt f x (gridPoint a b (parts a b s) i)
      (φ (gridPoint a b (parts a b s) i))) :
    (ascending cap (some s) f x (some a) (some b)).run false =
      (.ok (some (trapezoids φ a b (parts a b s))), false) := by
  have hvalues : ∀ i ≤ parts a b s, (Job.evaluate [(x, some (gridPoint a b (parts a b s) i))] g).run
      false = (.ok (some (φ (gridPoint a b (parts a b s) i))), false) := by
    intro i hi
    have hvalue : g.evaluate _ = _ := (h i hi).simplify hwf hx hg
    rw [Job.run_evaluate, hvalue]
    rfl
  rw [ascending, Job.run_bind, Job.run_simplify, hg]
  exact run_area (partCount_eq hab hs) (parts_pos a b s) hvalues

/-- Bounds in ascending order give the trapezoid sum of a function that is simplified in time,
bounds in descending order its negative. -/
theorem run_integrate (hf : f.isEquation = false) (hwf : f.WellFormed) (hx : f.unknowns = [x])
    (hs : 0 < s) (hg : Simplification.simplify cap f = .ok g) (hab : a < b)
    (h : ∀ i ≤ parts a b s, HasValueAt f x (gridPoint a b (parts a b s) i)
      (φ (gridPoint a b (parts a b s) i))) :
    (integrate cap (some s) f (some a) (some b)).run false =
        (.ok (some (trapezoids φ a b (parts a b s))), false) ∧
      (integrate cap (some s) f (some b) (some a)).run false =
        (.ok (some (-trapezoids φ a b (parts a b s))), false) := by
  have hrun := run_ascending hwf hx hg hs hab.le h
  refine ⟨(integrate_of_lt hf hx hs hab).symm ▸ hrun, ?_⟩
  rw [integrate_of_gt hf hx hs hab, Job.run_bind, hrun]
  rfl

/-- A function that is affine between the bounds is integrated exactly, in whichever order they
are. -/
theorem run_integrate_affine (hf : f.isEquation = false) (hwf : f.WellFormed)
    (hx : f.unknowns = [x]) (hs : 0 < s) (hg : Simplification.simplify cap f = .ok g)
    (h : ∀ v ∈ Set.uIcc a b, HasValueAt f x v (p * v + q)) :
    (integrate cap (some s) f (some a) (some b)).run false =
      (.ok (some (p * (b ^ 2 - a ^ 2) / 2 + q * (b - a))), false) := by
  have hgrid {a b : K} (hab : a < b) (h : ∀ v ∈ Set.Icc a b, HasValueAt f x v (p * v + q)) :=
    run_integrate (φ := fun v => p * v + q) hf hwf hx hs hg hab fun i hi =>
      h _ (gridPoint_mem_Icc hab.le (parts_pos a b s) hi)
  obtain hlt | rfl | hgt := lt_trichotomy a b
  · rw [(hgrid hlt (Set.uIcc_of_le hlt.le ▸ h)).1, trapezoids_affine _ _ _ _ (parts_pos a b s)]
  · rw [integrate_self hf hx hs]
    simp
  · rw [(hgrid hgt (Set.uIcc_of_ge hgt.le ▸ h)).2, trapezoids_affine _ _ _ _ (parts_pos b a s)]
    ring_nf

/-- In exact arithmetic, for a function of one unknown and a positive step: the rounds of the
simplifier come to an end. If they do so within the cap and the function has values `φ` on the grid
between two bounds, the integral is the sum of its trapezoids over the grid, whose last point is the
upper bound, and between the bounds exchanged it is the negative of that; for an affine function it
is the integral proper, whatever the order of the bounds and the width of a step. If they do not,
there is no integral between different bounds, and the tree that was reached is reported. -/
theorem integrate_trapezoids (hf : f.isEquation = false) (hwf : f.WellFormed)
    (hx : f.unknowns = [x]) (hs : 0 < s) :
    (∃ k, Simplification.round^[k + 1] f = Simplification.round^[k] f) ∧ ∀ cap : Option ℕ,
      ((∃ k < cap.getD unbounded, Simplification.round^[k + 1] f = Simplification.round^[k] f) →
        (∀ (φ : K → K) (a b : K), a < b →
          (∀ i ≤ parts a b s, HasValueAt f x (gridPoint a b (parts a b s) i)
            (φ (gridPoint a b (parts a b s) i))) →
          gridPoint a b (parts a b s) (parts a b s) = b ∧
          (integrate cap (some s) f (some a) (some b)).run false =
            (.ok (some (trapezoids φ a b (parts a b s))), false) ∧
          (integrate cap (some s) f (some b) (some a)).run false =
            (.ok (some (-trapezoids φ a b (parts a b s))), false)) ∧
        ∀ p q a b : K, (∀ v ∈ Set.uIcc a b, HasValueAt f x v (p * v + q)) →
          (integrate cap (some s) f (some a) (some b)).run false =
            (.ok (some (p * (b ^ 2 - a ^ 2) / 2 + q * (b - a))), false)) ∧
      ((∀ k < cap.getD unbounded, Simplification.round^[k + 1] f ≠ Simplification.round^[k] f) →
        ∀ a b : K, a ≠ b →
          (integrate cap (some s) f (some a) (some b)).run false =
            (.error (.notConverged (cap.getD unbounded)
              (Simplification.round^[cap.getD unbounded] f)), false)) := by
  constructor
  · obtain ⟨k, hk, -⟩ := simplify_terminates f
    exact ⟨k, hk⟩
  intro cap
  constructor
  · rintro ⟨k, hlt, hk⟩
    have hg : Simplification.simplify cap f = .ok (Simplification.round^[k] f) :=
      converge_eq_ok ((Function.iterate_succ_apply' _ k f).symm.trans hk) hlt
    constructor
    · intro φ a b hab h
      exact ⟨gridPoint_last a b (parts_pos a b s), run_integrate hf hwf hx hs hg hab h⟩
    · intro p q a b h
      exact run_integrate_affine hf hwf hx hs hg h
  · intro h a b hab
    have hg :
        Simplification.simplify cap f = .error (Simplification.round^[cap.getD unbounded] f) :=
      converge_eq_error h
    exact run_integrate_error hf hx hs hg hab

end

/-! ### Under a parabola -/

/-- The square of the variable `x`, spelled out. -/
def square : Expr := .prod [.var "x", .var "x"]

/-- A variable has the value that it is given. -/
theorem hasValueAt_var (v : ℝ) : HasValueAt (.var "x") "x" v v := by
  have hname : NamedConstant.ofName? "x" = none := by decide
  simp [HasValueAt, evaluate, Bindings.value?, hname]

theorem hasValueAt_square (v : ℝ) : HasValueAt square "x" v (v * v) := by
  have hvar : (Expr.var "x").evaluate [("x", some v)] = .ok (some v) := hasValueAt_var v
  have hvars : evaluateAll [("x", some v)] [.var "x", .var "x"] = .ok ([v, v].map some) := by
    rw [evaluateAll, evaluateAll, evaluateAll, hvar]
    rfl
  rw [HasValueAt, square, evaluate, hvars]
  exact congrArg _ (ExactNumbers.foldl_mul_eq_some.mpr ⟨_, rfl, by simp⟩)

/-- Between `0` and `1` two steps of `1/2` fit, and the two trapezoids under the parabola have the
area `3/8`. With no round allowed there is no integral. -/
theorem integrate_trapezoids_square :
    (integrate none (some (2⁻¹ : ℝ)) square (some 0) (some 1)).run false =
      (.ok (some (3 / 8)), false) ∧
    (integrate none (some (2⁻¹ : ℝ)) square (some 1) (some 0)).run false =
      (.ok (some (-(3 / 8))), false) ∧
    (integrate none (some (10 : ℝ)) (.var "x") (some 3) (some 1)).run false =
      (.ok (some (-4)), false) ∧
    (integrate (some 0) (some (2⁻¹ : ℝ)) square (some 0) (some 1)).run false =
      (.error (.notConverged 0 square), false) := by
  have hround : Simplification.round^[1 + 1] square = Simplification.round^[1] square := by decide
  have hround' : Simplification.round^[0 + 1] (.var "x") = Simplification.round^[0] (.var "x") := by
    decide
  have hparts : parts (0 : ℝ) 1 2⁻¹ = 2 := by
    have hfloor : ⌊((1 : ℝ) - 0) / 2⁻¹⌋₊ = 2 := by norm_num
    rw [parts, hfloor]
    rfl
  have hsum : trapezoids (fun v : ℝ => v * v) 0 1 2 = 3 / 8 := by
    rw [trapezoids_square _ _ two_pos]
    norm_num
  have hwf : square.WellFormed := by simp [square]
  have hhalf := (integrate_trapezoids (f := square) (x := "x") (s := (2⁻¹ : ℝ)) rfl hwf rfl
    (by norm_num)).2
  have hten := (integrate_trapezoids (f := .var "x") (x := "x") (s := (10 : ℝ)) rfl (.var "x") rfl
    (by norm_num)).2
  obtain ⟨-, hup, hdown⟩ := ((hhalf none).1 ⟨1, by decide, hround⟩).1 (fun v => v * v) 0 1
    zero_lt_one fun i _ => hasValueAt_square _
  have hline := ((hten none).1 ⟨0, by decide, hround'⟩).2 1 0 3 1 fun v _ => by
    simpa using hasValueAt_var v
  rw [hparts, hsum] at hup hdown
  refine ⟨hup, hdown, ?_, (hhalf (some 0)).2 nofun 0 1 zero_ne_one⟩
  rw [hline]
  norm_num

/-- Two ways to miss the sum over as many trapezoids as steps fit: too few rounds for the
simplifier, and more steps than 64 bits count. -/
theorem integrate_ne_trapezoids :
    ((∀ v : ℝ, HasValueAt (.var "x") "x" v v) ∧
      (integrate (some 0) (some (1 : ℝ)) (.var "x") (some 0) (some 1)).run false =
        (.error (.notConverged 0 (.var "x")), false)) ∧
    (∀ v : ℝ, HasValueAt square "x" v (v * v)) ∧
      (integrate none (some ((2 ^ 65)⁻¹ : ℝ)) square (some 0) (some 1)).run false ≠
        (.ok (some (trapezoids (fun v => v * v) 0 1 (max 1 ⌊(1 - 0) / ((2 ^ 65)⁻¹ : ℝ)⌋₊))),
          false) := by
  refine ⟨⟨hasValueAt_var, run_integrate_error rfl rfl zero_lt_one rfl zero_ne_one⟩,
    hasValueAt_square, ?_⟩
  have hfloor : ⌊((1 : ℝ) - 0) / (2 ^ 65)⁻¹⌋₊ = 2 ^ 65 := by
    rw [sub_zero, one_div, inv_inv]
    exact_mod_cast Nat.floor_natCast (2 ^ 65)
  have hparts : parts (0 : ℝ) 1 (2 ^ 65)⁻¹ = 2 ^ 64 - 1 := by
    rw [parts, hfloor]
    rfl
  have hg : Simplification.simplify none square = .ok (.pow (.var "x") (.num 2)) := by decide
  have hrun := (run_integrate (φ := fun v => v * v) rfl (by simp [square]) rfl
    (by positivity : (0 : ℝ) < (2 ^ 65)⁻¹) hg zero_lt_one fun i _ => hasValueAt_square _).1
  have hmax : max 1 (2 ^ 65) = 2 ^ 65 := rfl
  rw [hrun, hparts, hfloor, hmax, trapezoids_square _ _ (by decide),
    trapezoids_square _ _ (by decide)]
  intro heq
  have hvalue := Option.some.inj (Except.ok.inj (Prod.mk.inj heq).1)
  norm_num at hvalue

end Trapezoid

end ComputerAlgebra
