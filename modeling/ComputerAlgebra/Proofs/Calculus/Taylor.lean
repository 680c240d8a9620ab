import ComputerAlgebra.Calculus.Taylor
import ComputerAlgebra.Proofs.Job.Outcome
import ComputerAlgebra.Proofs.Simplification.NormalForm

/-!
# Runs of a Taylor expansion

A Taylor expansion is refused at once, or it simplifies and differentiates by turns and simplifies
the sum of the terms. The derivatives in a run that succeeds are those of `nthDerivative`, and the
numbers below the terms are the factorials (`run_taylor`).
-/

namespace ComputerAlgebra

namespace Calculus

open Job

/-- Is there a Taylor polynomial to compute? -/
def Expandable (f p : Expr) (order : Nat) : Prop :=
  f.isEquation = false ∧ p.isEquation = false ∧ order ≤ maxTaylorOrder

variable {f p : Expr} {order : Nat} {fails : Failure → Prop}

/-- A point or an order out of the domain is refused at once. -/
theorem taylor_eq_throw (h : ¬ Expandable f p order) (cap : Option Nat) (x : String) :
    ∃ err, taylor cap f x p order = throw (.domain err) := by
  by_cases heqn : (f.isEquation || p.isEquation) = true
  · exact ⟨.expandedEquation, by simp only [taylor, heqn]; rfl⟩
  · by_cases horder : maxTaylorOrder < order
    · exact ⟨.orderTooLarge order maxTaylorOrder, by simp only [taylor, heqn, horder]; rfl⟩
    · simp only [Bool.or_eq_true, not_or, Bool.not_eq_true] at heqn
      exact absurd ⟨heqn.1, heqn.2, Nat.le_of_not_lt horder⟩ h

/-- What is left of the definition once the checks have passed. -/
theorem taylor_eq (h : Expandable f p order) (cap : Option Nat) (x : String) :
    taylor cap f x p order = (do
      let f ← Job.simplify cap f
      let terms ← taylorTerms cap x p order 0 1 f
      Job.simplify cap (.sumOf (f.substitute [(x, p)] :: terms))) := by
  obtain ⟨hf, hp, horder⟩ := h
  simp [taylor, hf, hp, Nat.not_lt.mpr horder]

/-- In its domain the Taylor polynomial begins with a checkpoint, so a request to stop ends it. -/
theorem heeds_taylor (h : Expandable f p order) (cap : Option Nat) (x : String) :
    Heeds (taylor cap f x p order) := by
  rw [taylor_eq h]
  exact (heeds_simplify cap f).bind

/-- The terms of a Taylor polynomial fail only if a simplification runs out of rounds. -/
theorem ensures_taylorTerms (hfails : ∀ n e, fails (.notConverged n e)) (cap : Option Nat)
    (x : String) (p : Expr) (count n : Nat) (factorial : Int64) (derivative : Expr) :
    Ensures (taylorTerms cap x p count n factorial derivative) (fun _ => True) fails := by
  induction count generalizing n factorial derivative with
  | zero => exact ensures_pure trivial
  | succ count ih =>
    apply (ensures_differentiate_any hfails cap derivative x).bind
    intro derivative _
    apply (ih _ _ _).bind
    intro terms _
    exact ensures_pure trivial

/-- A Taylor polynomial fails only if a simplification runs out of rounds. -/
theorem ensures_taylor (h : Expandable f p order) (hfails : ∀ n e, fails (.notConverged n e))
    (cap : Option Nat) (x : String) :
    Ensures (taylor cap f x p order) (fun _ => True) fails := by
  rw [taylor_eq h]
  apply (ensures_simplify_any hfails cap f).bind
  intro f _
  apply (ensures_taylorTerms hfails cap x p order 0 1 f).bind
  intro terms _
  exact ensures_simplify_any hfails cap _

/-! ### Derivatives of higher order -/

/-- The derivatives of an expression, each simplified before the next one is taken. -/
def nthDerivative (cap : Option Nat) (x : String) (f : Expr) : Nat → Except Expr Expr
  | 0 => Simplification.simplify cap f
  | n + 1 => do Simplification.simplify cap (derivative x (← nthDerivative cap x f n))

variable {cap : Option Nat} {x : String} {e e' d s : Expr} {n count : Nat} {terms : List Expr}
  {left pending : Bool}

/-- The next derivative is the simplified derivative of the one before. -/
theorem simplify_of_nthDerivative (h : nthDerivative cap x f n = .ok e)
    (h' : nthDerivative cap x f (n + 1) = .ok e') :
    Simplification.simplify cap (derivative x e) = .ok e' := by
  rw [nthDerivative, h] at h'
  exact h'

/-- Every derivative is one that the passes leave alone. -/
theorem round_nthDerivative (h : nthDerivative cap x f n = .ok e) : Simplification.round e = e := by
  cases n with
  | zero => exact Simplification.step_eq_of_converge h
  | succ n =>
    cases hn : nthDerivative cap x f n with
    | error e' =>
      rw [nthDerivative, hn] at h
      cases h
    | ok e' => exact Simplification.step_eq_of_converge (simplify_of_nthDerivative hn h)

/-- To simplify what no round changes is to leave it as it is. -/
theorem eq_of_simplify_eq_ok (hfix : Simplification.round e = e)
    (h : Simplification.simplify cap e = .ok e') : e' = e := by
  obtain ⟨k, rfl⟩ := Simplification.converge_eq_iterate (.inl h)
  exact Function.iterate_fixed hfix k

/-! ### Runs -/

/-- What a differentiation in the session returns is the next derivative. -/
theorem nthDerivative_succ_of_run (h : nthDerivative cap x f n = .ok e)
    (hrun : (differentiate cap e x).run false = (.ok e', left)) :
    nthDerivative cap x f (n + 1) = .ok e' := by
  obtain ⟨e₁, hfirst, -, hsecond⟩ :=
    (ensures_simplify_any (fun _ _ => trivial) cap e).run_bind_eq_ok hrun
  obtain rfl := eq_of_simplify_eq_ok (round_nthDerivative h) (simplify_eq_ok_of_run hfirst)
  rw [nthDerivative, h]
  exact simplify_eq_ok_of_run hsecond

/-- The terms after the one of order `n` hold the next derivatives and their factorials. -/
theorem run_taylorTerms (hd : nthDerivative cap x f n = .ok d)
    (hrun : (taylorTerms cap x p count n (.ofNat n.factorial) d).run false = (.ok terms, left)) :
    ∃ D : Nat → Expr, (∀ k ≤ count, nthDerivative cap x f (n + k) = .ok (D k)) ∧
      terms = (List.range count).map fun k =>
        taylorTerm x p (n + (k + 1)) (.ofNat (n + (k + 1)).factorial) (D (k + 1)) := by
  -- the derivative and its factorial are carried along, so both are generalized
  induction count generalizing n d terms left with
  | zero =>
    cases hrun
    exact ⟨fun _ => d, by simpa using hd, rfl⟩
  | succ count ih =>
    obtain ⟨d', hderivative, -, hrun⟩ :=
      (ensures_differentiate_any (fun _ _ => trivial) cap d x).run_bind_eq_ok hrun
    obtain ⟨rest, hrest, -, hrun⟩ :=
      (ensures_taylorTerms (fun _ _ => trivial) cap x p count _ _ d').run_bind_eq_ok hrun
    cases hrun
    -- the loop multiplies its factorial by the next number instead of computing it anew
    have hfactorial : Int64.ofNat n.factorial * .ofNat (n + 1) = .ofNat (n + 1).factorial := by
      rw [← Int64.ofNat_mul, Nat.factorial_succ, Nat.mul_comm]
    rw [hfactorial] at hrest
    have hd' := nthDerivative_succ_of_run hd hderivative
    obtain ⟨D, hD, rfl⟩ := ih hd' hrest
    obtain rfl : d' = D 0 := Except.ok.inj (hd'.symm.trans (hD 0 (Nat.zero_le _)))
    have hshift (k : Nat) : n + 1 + k = n + (k + 1) := by omega
    refine ⟨fun k => k.casesOn d D, fun k hk => ?_, ?_⟩
    · cases k with
      | zero => exact hd
      | succ k => exact hshift k ▸ hD k (by omega)
    · rw [hfactorial, List.range_succ_eq_map, List.map_cons, List.map_map]
      refine congrArg (_ :: ·) (List.map_congr_left fun k _ => ?_)
      rw [hshift]
      rfl

/-- The sum of all terms. The first one, of order `0`, is written without power and factorial. -/
def taylorSum (x : String) (p : Expr) (order : Nat) (D : Nat → Expr) : Expr :=
  .sumOf ((D 0).substitute [(x, p)] :: (List.range order).map fun k =>
    taylorTerm x p (k + 1) (.ofNat (k + 1).factorial) (D (k + 1)))

/-- A run that succeeds was not asked to stop; it simplifies the sum of the terms that the
derivatives and the factorials give. -/
theorem run_taylor (hrun : ((taylor cap f x p order).run pending).1 = .ok s) :
    order ≤ maxTaylorOrder ∧ ∃ D : Nat → Expr,
      (∀ k ≤ order, nthDerivative cap x f k = .ok (D k)) ∧
        Simplification.simplify cap (taylorSum x p order D) = .ok s := by
  by_cases h : Expandable f p order
  swap
  · obtain ⟨err, heq⟩ := taylor_eq_throw h cap x
    rw [heq, run_throw] at hrun
    cases hrun
  refine ⟨h.2.2, ?_⟩
  cases pending with
  | true =>
    rw [heeds_taylor h] at hrun
    cases hrun
  | false =>
    obtain ⟨left, hrun'⟩ : ∃ left, (taylor cap f x p order).run false = (.ok s, left) :=
      ⟨_, Prod.ext hrun rfl⟩
    rw [taylor_eq h] at hrun'
    obtain ⟨d, hd, -, hrun'⟩ :=
      (ensures_simplify_any (fun _ _ => trivial) cap f).run_bind_eq_ok hrun'
    obtain ⟨terms, hterms, -, hrun'⟩ :=
      (ensures_taylorTerms (fun _ _ => trivial) cap x p order 0 1 d).run_bind_eq_ok hrun'
    have hd' : nthDerivative cap x f 0 = .ok d := simplify_eq_ok_of_run hd
    obtain ⟨D, hD, rfl⟩ := run_taylorTerms hd' hterms
    obtain rfl : d = D 0 := Except.ok.inj (hd'.symm.trans (hD 0 (Nat.zero_le _)))
    refine ⟨D, fun k hk => by simpa using hD k hk, ?_⟩
    simpa [taylorSum] using simplify_eq_ok_of_run hrun'

end Calculus

end ComputerAlgebra
