import ComputerAlgebra.Proofs.Job.Outcome
import ComputerAlgebra.Proofs.Simplification.NormalForm

/-!
# The cap on rounds

A repetition with a cap is the sequence of iterates cut off: it ends at the first iterate that the
step does not change, if there is one before the cap, and otherwise reports the iterate at the cap
(`converge_eq_ok_iff`, `converge_eq_error`). So a cap decides whether a simplification succeeds but
never what it returns (`run_simplify_cap`).
-/

namespace ComputerAlgebra

namespace Simplification

variable {α : Type*} [DecidableEq α] {step : α → α} {limit k : ℕ} {a b : α}

/-- Without a fixed point among the first iterates, all of them are gone through. -/
theorem converge_eq_error (h : ∀ k < limit, step^[k + 1] a ≠ step^[k] a) :
    converge step limit a = .error (step^[limit] a) := by
  induction limit generalizing a with
  | zero => rfl
  | succ limit ih =>
    have hstep : step a ≠ a := h 0 (by omega)
    rw [converge, if_neg hstep]
    exact ih fun k hk => h (k + 1) (by omega)

/-- A repetition succeeds exactly if there is a fixed point among the iterates before the limit, and
then with the first one. -/
theorem converge_eq_ok_iff : converge step limit a = .ok b ↔
    ∃ k < limit, step^[k + 1] a = step^[k] a ∧ (∀ j < k, step^[j + 1] a ≠ step^[j] a) ∧
      b = step^[k] a := by
  constructor
  · intro h
    have hex : ∃ k, k < limit ∧ step^[k + 1] a = step^[k] a := by
      by_contra hne
      rw [converge_eq_error fun k hk heq => hne ⟨k, hk, heq⟩] at h
      cases h
    obtain ⟨hlt, heq⟩ := Nat.find_spec hex
    refine ⟨Nat.find hex, hlt, heq, fun j hj heq' => Nat.find_min hex hj ⟨hj.trans hlt, heq'⟩, ?_⟩
    rw [converge_eq_ok ((Function.iterate_succ_apply' _ _ _).symm.trans heq) hlt] at h
    exact (Except.ok.inj h).symm
  · rintro ⟨k, hlt, heq, -, rfl⟩
    exact converge_eq_ok ((Function.iterate_succ_apply' _ _ _).symm.trans heq) hlt

/-- More steps do not change where a repetition has stopped. -/
theorem converge_mono {limit' : ℕ} (hle : limit ≤ limit') (h : converge step limit a = .ok b) :
    converge step limit' a = .ok b := by
  obtain ⟨k, hlt, hfix⟩ := converge_eq_ok_iff.1 h
  exact converge_eq_ok_iff.2 ⟨k, by omega, hfix⟩

/-- A single step shows that a repetition has nothing to do on a fixed point. -/
theorem converge_fixed (h : step a = a) (hpos : 0 < limit) : converge step limit a = .ok a :=
  converge_eq_ok (k := 0) h hpos

/-! ### Simplification -/

/-- Without a request, simplification succeeds in the session if and only if the rounds converge
under the cap. -/
theorem run_simplify_eq_ok_iff {cap : Option ℕ} {e e' : Expr} :
    (Job.simplify cap e).run false = (.ok e', false) ↔
      converge round (cap.getD unbounded) e = .ok e' := by
  rw [Job.run_simplify, simplify]
  cases converge round (cap.getD unbounded) e with
  | ok e'' =>
    show (Except.ok e'', false) = (Except.ok e', false) ↔ _
    simp
  | error e'' =>
    show (Except.error (Failure.notConverged _ e''), false) = (Except.ok e', false) ↔ _
    simp

/-- Left alone, a simplification of `v` with at most `c` rounds succeeds exactly if one of the trees
reached by fewer than `c` rounds is kept by one more, and then with the first of these; otherwise it
reports the cap and the tree that `c` rounds reach. So a higher cap, or none, leaves a successful
outcome as it is, what is returned is a fixed point, and it is simplified to itself by any
simplification that may take a round. -/
theorem run_simplify_cap (v t : Expr) (c : ℕ) :
    ((Job.simplify (some c) v).run false = (.ok t, false) ↔
      ∃ k < c, round^[k + 1] v = round^[k] v ∧ (∀ j < k, round^[j + 1] v ≠ round^[j] v) ∧
        t = round^[k] v) ∧
    ((∀ k < c, round^[k + 1] v ≠ round^[k] v) ↔
      (Job.simplify (some c) v).run false = (.error (.notConverged c (round^[c] v)), false)) ∧
    ∀ cap : Option ℕ, (Job.simplify cap v).run false = (.ok t, false) →
      (∀ cap' : Option ℕ, cap.getD unbounded ≤ cap'.getD unbounded →
        (Job.simplify cap' v).run false = (.ok t, false)) ∧
      round t = t ∧
      ∀ cap' : Option ℕ, 1 ≤ cap'.getD unbounded →
        (Job.simplify cap' t).run false = (.ok t, false) := by
  refine ⟨?_, ⟨?_, ?_⟩, ?_⟩
  · rw [run_simplify_eq_ok_iff, Option.getD_some, converge_eq_ok_iff]
  · intro h
    rw [Job.run_simplify, simplify, Option.getD_some, converge_eq_error h]
    rfl
  · intro h k hlt heq
    rw [Job.run_simplify, simplify, Option.getD_some,
      converge_eq_ok ((Function.iterate_succ_apply' _ _ _).symm.trans heq) hlt] at h
    cases h
  · intro cap h
    rw [run_simplify_eq_ok_iff] at h
    have hfix : round t = t := step_eq_of_converge h
    refine ⟨fun cap' hle => ?_, hfix, fun cap' hpos => ?_⟩
    · exact run_simplify_eq_ok_iff.2 (converge_mono hle h)
    · exact run_simplify_eq_ok_iff.2 (converge_fixed hfix hpos)

end Simplification

end ComputerAlgebra
