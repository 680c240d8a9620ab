import ComputerAlgebra.Numeric.Roots
import ComputerAlgebra.Numeric.Trapezoid
import ComputerAlgebra.Proofs.Job.Outcome

/-!
# Outcomes of numeric jobs

The search for roots and the integral simplify, differentiate and evaluate over and over. What they
rely on is a property of trees that every one of these steps keeps, and that makes an evaluation
fail in tolerated ways only. A search hides one root after the other in the function, so there the
property depends on the number of roots found.
-/

namespace ComputerAlgebra

variable {α : Type} [Arithmetic α] {fails : Failure → Prop}

namespace Job

theorem heeds_evaluate (bs : Bindings α) (e : Expr) : Heeds (evaluate bs e) := heeds_checkpoint.bind

/-- The only failures of an evaluation that is left alone are those of the expression. -/
theorem ensures_evaluate {bs : Bindings α} {e : Expr}
    (h : ∀ err, e.evaluate bs = .error err → fails (.valueless err)) :
    Ensures (evaluate bs e) (fun _ => True) fails := by
  apply ensures_checkpoint.bind
  intro _ _
  cases hv : e.evaluate bs with
  | ok v => exact ensures_pure trivial
  | error err => exact ensures_throw (h err hv)

end Job

open Job

namespace Roots

/-- A property of functions with a number of hidden roots that each step of a search keeps, and that
rules out every failure but those in `fails`. -/
structure Invariant (α : Type) [Arithmetic α] (x : String) (fails : Failure → Prop)
    (inv : Nat → Expr → Prop) : Prop where
  round : ∀ n e, inv n e → inv n (Simplification.round e)
  derivative : ∀ n e, inv n e → inv n (Calculus.derivative x e)
  deflate : ∀ n e, inv n e → inv (n + 1) (deflate e x n)
  notConverged : ∀ n e allowed, inv n e → fails (.notConverged allowed e)
  evaluate : ∀ (roots : List α) v e err, inv roots.length e →
    e.evaluate ((x, v) :: placeholderBindings roots) = .error err → fails (.valueless err)

variable {x : String} {inv : Nat → Expr → Prop}

/-- A number that is small enough for a root. -/
def InRange (settings : NewtonSettings α) (v : α) : Prop :=
  Arithmetic.le (Arithmetic.apply .abs v) settings.maxMagnitude = true

theorem Run.inRange_of_mem_result? {settings : NewtonSettings α} {run : Run α} {root : α}
    (h : root ∈ run.result? settings) : InRange settings root := by
  rw [Option.mem_def, Run.result?] at h
  split at h
  · next hcond =>
    cases h
    exact (Bool.and_eq_true_iff.mp hcond).1
  · cases h

/-- Newton's method fails only if an evaluation fails, and what it finds is in range. -/
theorem ensures_newton (settings : NewtonSettings α) {evaluate : α → Job (α × α)}
    (h : ∀ v, Ensures (evaluate v) (fun _ => True) fails) (count : Nat) (run : Run α) :
    Ensures (newton settings evaluate count run)
      (fun found => ∀ root ∈ found, InRange settings root) fails := by
  induction count generalizing run with
  | zero => exact ensures_pure fun root => run.inRange_of_mem_result?
  | succ count ih =>
    apply (h run.point).bind
    rintro ⟨value, slope⟩ _
    dsimp only
    cases run.step settings value slope with
    | failed => exact ensures_pure (by simp)
    | converged run => exact ensures_pure fun root => run.inRange_of_mem_result?
    | continues run => exact ih run

/-- An evaluation of function and derivative fails only as the invariant allows. -/
theorem Invariant.ensures_evaluateAt (hinv : Invariant α x fails inv) {roots : List α} {f f' : Expr}
    (hf : inv roots.length f) (hf' : inv roots.length f') (v : α) :
    Ensures (evaluateAt x roots f f' v) (fun _ => True) fails := by
  apply (Job.ensures_evaluate fun err => hinv.evaluate roots v f err hf).bind
  intro value _
  apply (Job.ensures_evaluate fun err => hinv.evaluate roots v f' err hf').bind
  intro slope _
  exact ensures_pure trivial

/-- Each found root is hidden in the function before the next one is searched. -/
theorem Invariant.ensures_search (hinv : Invariant α x fails inv) (settings : NewtonSettings α)
    (cap : Option Nat) (fuel : Nat) {f : Expr} {roots : List α} (h : inv roots.length f) :
    Ensures (search settings cap x fuel f roots) (fun _ => True) fails := by
  induction fuel generalizing f roots with
  | zero => exact ensures_pure trivial
  | succ fuel ih =>
    have hfails n e := fun he => hinv.notConverged roots.length e n he
    apply (ensures_differentiate (hinv.round roots.length) hfails
      (hinv.derivative roots.length) cap h).bind
    intro f' hf'
    apply (ensures_newton settings (hinv.ensures_evaluateAt h hf') _ _).bind
    intro found _
    cases found with
    | none => exact ensures_pure trivial
    | some root =>
      apply (ensures_simplify (hinv.round (roots.length + 1))
        (fun n e he => hinv.notConverged (roots.length + 1) e n he) cap
        (hinv.deflate roots.length f h)).bind
      intro g hg
      apply ih
      simpa using hg

/-- Does an expression have roots to search? -/
def Solvable : Expr → Prop
  | .eqn a b => ∃ x, (Expr.eqn a b).unknowns = [x]
  | _ => False

/-- What is no equation in one unknown is refused at once. -/
theorem solve_eq_throw {e : Expr} (h : ¬ Solvable e) (settings : NewtonSettings α)
    (cap : Option Nat) : ∃ err, solve settings cap e = throw (.domain err) := by
  cases e with
  | eqn a b =>
    refine ⟨.equationUnknowns, ?_⟩
    rw [solve]
    split
    · next x hx => exact absurd ⟨x, hx⟩ h
    · rfl
  | _ => exact ⟨.notAnEquation, rfl⟩

/-- In its domain the search for roots begins with a checkpoint, so a request to stop ends it. -/
theorem heeds_solve {e : Expr} (h : Solvable e) (settings : NewtonSettings α) (cap : Option Nat) :
    Heeds (solve settings cap e) := by
  cases e with
  | eqn a b =>
    obtain ⟨x, hx⟩ := h
    simp only [solve, hx]
    exact (heeds_simplify cap _).bind
  | _ => exact h.elim

/-- Solving an equation fails only as the invariant allows, which has to hold of the difference of
the sides. -/
theorem ensures_solve {a b : Expr} (hx : (Expr.eqn a b).unknowns = [x])
    (hinv : Invariant α x fails inv) (h : inv 0 (.subtract a b)) (settings : NewtonSettings α)
    (cap : Option Nat) : Ensures (solve settings cap (.eqn a b)) (fun _ => True) fails := by
  simp only [solve, hx]
  apply (ensures_simplify (hinv.round 0) (fun n e he => hinv.notConverged 0 e n he) cap h).bind
  intro f hf
  have hf : inv ([] : List α).length f := hf
  apply (hinv.ensures_search settings cap Simplification.unbounded hf).bind
  intro roots _
  exact ensures_pure trivial

end Roots

namespace Trapezoid

open Arithmetic

variable {cap : Option Nat} {step lower upper : α} {f : Expr} {x : String} {inv : Expr → Prop}

/-- Adding up parts fails only if an evaluation fails. -/
theorem ensures_sumParts {evaluate : α → Job α}
    (h : ∀ v, Ensures (evaluate v) (fun _ => True) fails)
    (lower width : α) (remaining index : Nat) (sum left : α) :
    Ensures (sumParts evaluate lower width remaining index sum left) (fun _ => True) fails := by
  induction remaining generalizing index sum left with
  | zero => exact ensures_pure trivial
  | succ remaining ih =>
    apply (h _).bind
    intro right _
    exact ih _ _ _

/-- The trapezoid rule fails only if an evaluation fails. -/
theorem ensures_area {evaluate : α → Job α} (h : ∀ v, Ensures (evaluate v) (fun _ => True) fails)
    (lower upper step : α) : Ensures (area evaluate lower upper step) (fun _ => True) fails := by
  apply (h lower).bind
  intro left _
  apply (ensures_sumParts h _ _ _ _ _ _).bind
  intro sum _
  exact ensures_pure trivial

/-- Integration upwards begins with a checkpoint. -/
theorem heeds_ascending (cap : Option Nat) (step : α) (f : Expr) (x : String) (lower upper : α) :
    Heeds (ascending cap step f x lower upper) :=
  (heeds_simplify cap f).bind

/-- Integration upwards fails only as the invariant allows. -/
theorem ensures_ascending (hround : ∀ e, inv e → inv (Simplification.round e))
    (hfails : ∀ n e, inv e → fails (.notConverged n e))
    (hevaluate : ∀ (v : α) e err, inv e → e.evaluate [(x, v)] = .error err →
      fails (.valueless err)) (h : inv f) :
    Ensures (ascending cap step f x lower upper) (fun _ => True) fails := by
  apply (ensures_simplify hround hfails cap h).bind
  intro f hf
  exact ensures_area (fun v => Job.ensures_evaluate fun err => hevaluate v f err hf) _ _ _

/-- Is there an integral to compute, be it trivial? -/
def Integrable (step : α) (f : Expr) (lower upper : α) : Prop :=
  f.isEquation = false ∧ (∃ x, f.unknowns = [x]) ∧
    (isFinite step = true ∧ lt (ofInt 0) step = true) ∧
    isFinite lower = true ∧ isFinite upper = true

/-- What is no function of one unknown, or has bounds or a step out of the domain, is refused at
once. -/
theorem integrate_eq_throw (h : ¬ Integrable step f lower upper) (cap : Option Nat) :
    ∃ err, integrate cap step f lower upper = throw (.domain err) := by
  by_cases hf : f.isEquation = true
  · exact ⟨.integratedEquation, by simp only [integrate, hf]; rfl⟩
  by_cases hx : ∃ x, f.unknowns = [x]
  · obtain ⟨x, hx⟩ := hx
    by_cases hstep : (isFinite step && lt (ofInt 0) step) = true
    · by_cases hbounds : (isFinite lower && isFinite upper) = true
      · simp only [Bool.and_eq_true] at hstep hbounds
        exact absurd ⟨by simpa using hf, ⟨x, hx⟩, hstep, hbounds⟩ h
      · exact ⟨.infiniteBounds, by simp only [integrate, hf, hx, hstep, hbounds]; rfl⟩
    · exact ⟨.invalidStep (text step), by simp only [integrate, hf, hx, hstep]; rfl⟩
  · refine ⟨.integrandUnknowns, ?_⟩
    rcases hxs : f.unknowns with _ | ⟨x, _ | ⟨y, ys⟩⟩
    · simp only [integrate, hf, hxs]; rfl
    · exact absurd ⟨x, hxs⟩ hx
    · simp only [integrate, hf, hxs]; rfl

/-- What is left of the definition once the checks have passed. -/
theorem integrate_eq (h : Integrable step f lower upper) (hx : f.unknowns = [x])
    (cap : Option Nat) :
    integrate cap step f lower upper =
      if eq lower upper then pure (ofInt 0)
      else if lt upper lower then (do return -(← ascending cap step f x upper lower))
      else ascending cap step f x lower upper := by
  obtain ⟨hf, -, hstep, hbounds⟩ := h
  simp [integrate, hf, hx, hstep, hbounds]

/-- In its domain, integration between different bounds begins with a checkpoint. -/
theorem heeds_integrate (h : Integrable step f lower upper) (hne : eq lower upper = false)
    (cap : Option Nat) : Heeds (integrate cap step f lower upper) := by
  obtain ⟨x, hx⟩ := h.2.1
  rw [integrate_eq h hx, hne, if_neg Bool.false_ne_true]
  split
  · exact (heeds_ascending cap step f x upper lower).bind
  · exact heeds_ascending cap step f x lower upper

/-- Integration fails only as the invariant allows. -/
theorem ensures_integrate (inv : Expr → Prop) (h : Integrable step f lower upper)
    (hx : f.unknowns = [x]) (hround : ∀ e, inv e → inv (Simplification.round e))
    (hfails : ∀ n e, inv e → fails (.notConverged n e))
    (hevaluate : ∀ (v : α) e err, inv e → e.evaluate [(x, v)] = .error err →
      fails (.valueless err)) (hf : inv f) (cap : Option Nat) :
    Ensures (integrate cap step f lower upper) (fun _ => True) fails := by
  rw [integrate_eq h hx]
  split
  · exact ensures_pure trivial
  split
  · apply (ensures_ascending hround hfails hevaluate hf).bind
    intro v _
    exact ensures_pure trivial
  · exact ensures_ascending hround hfails hevaluate hf

end Trapezoid

end ComputerAlgebra
