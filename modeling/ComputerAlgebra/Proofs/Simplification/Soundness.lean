import ComputerAlgebra.Proofs.Real.Exact
import ComputerAlgebra.Proofs.Simplification.Value

/-!
# Soundness of the simplifier

However many rounds are made, the tree reached has the value of the tree given. An equation has no
value of its own: its sides are simplified apart from each other, and each keeps its value.
-/

namespace ComputerAlgebra

namespace Simplification

open ComputerAlgebra.Expr

variable {cap : Option Nat} {e e' l r : Expr}

/-! ### Repeated rounds -/

/-- Wherever a repetition stops, it stops after some number of steps. -/
theorem converge_eq_iterate {α : Type*} [DecidableEq α] {step : α → α} {limit : Nat} {a b : α}
    (h : converge step limit a = .ok b ∨ converge step limit a = .error b) :
    ∃ k, b = step^[k] a := by
  induction limit generalizing a with
  | zero =>
    rcases h with h | h <;> cases h
    exact ⟨0, rfl⟩
  | succ limit ih =>
    simp only [converge] at h
    split at h
    · rcases h with h | h <;> cases h
      exact ⟨0, rfl⟩
    · obtain ⟨k, hk⟩ := ih h
      exact ⟨k + 1, hk⟩

theorem wellFormed_iterate_round (h : e.WellFormed) (k : Nat) : (round^[k] e).WellFormed := by
  cases k with
  | zero => exact h
  | succ k =>
    rw [Function.iterate_succ_apply']
    exact wellFormed_round _

/-- Rounds refine exactly, whatever the numbers are. -/
theorem exact_refines_iterate_round {K : Type} [Field K] [LinearOrder K] [ExactNumbers K]
    (h : e.WellFormed) (k : Nat) : Exact.Refines K e (round^[k] e) := by
  induction k with
  | zero => exact .refl e
  | succ k ih =>
    rw [Function.iterate_succ_apply']
    exact ih.trans (refines_round (wellFormed_iterate_round h k))

/-- Rounds refine over the real numbers. -/
theorem refines_iterate_round (h : e.WellFormed) (k : Nat) : Refines e (round^[k] e) :=
  exact_refines_iff.mp (exact_refines_iterate_round h k)

/-! ### Equations -/

/-- A round goes through the sides of an equation one by one. -/
theorem round_eqn (l r : Expr) : round (.eqn l r) = .eqn (round l) (round r) := by
  simp [round, passes, flatten_eq_bottomUp, applyIdentities, mergeFractions, collect, fold,
    sortOperands, Flatten.splice, Identities.rule, Fractions.rule, Collect.rule, Fold.rule,
    Sorting.rule]

/-- Rounds go through the sides of an equation one by one. -/
theorem iterate_round_eqn (l r : Expr) (k : Nat) :
    round^[k] (.eqn l r) = .eqn (round^[k] l) (round^[k] r) := by
  induction k with
  | zero => rfl
  | succ k ih => simp only [Function.iterate_succ_apply', ih, round_eqn]

/-! ### The simplifier -/

/-- Whether or not the simplifier reaches a tree that no round changes, the tree it gives has a
value wherever the original has one, and the same. Of an equation this holds side by side. -/
theorem refines_simplify (hwf : e.WellFormed)
    (h : simplify cap e = .ok e' ∨ simplify cap e = .error e') :
    Refines e e' ∧
      ∀ l r, e = .eqn l r → ∃ l' r', e' = .eqn l' r' ∧ Refines l l' ∧ Refines r r' := by
  obtain ⟨k, rfl⟩ := converge_eq_iterate h
  refine ⟨refines_iterate_round hwf k, ?_⟩
  rintro l r rfl
  obtain ⟨hl, hr⟩ := WellFormed.eqn_iff.1 hwf
  exact ⟨round^[k] l, round^[k] r, iterate_round_eqn l r k, refines_iterate_round hl k,
    refines_iterate_round hr k⟩

/-- One round takes `x + x` to `2 * x`; a second one would find nothing left to do. -/
theorem refines_simplify_double :
    simplify (some 1) (.sum [.var "x", .var "x"]) = .error (.prod [.num 2, .var "x"]) ∧
      Refines (.sum [.var "x", .var "x"]) (.prod [.num 2, .var "x"]) := by
  have h : simplify (some 1) (.sum [.var "x", .var "x"]) = .error (.prod [.num 2, .var "x"]) := by
    decide
  exact ⟨h, (refines_simplify (by simp) (.inr h)).1⟩

end Simplification

end ComputerAlgebra
