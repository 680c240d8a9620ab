import ComputerAlgebra.Proofs.Simplification.Cap

/-!
# Equations member by member

A round of an equation is a round of each of its sides (`round_eqn`), and so are any number of
rounds. A side that a round keeps stays as it is while the other side goes on, so an equation is
simplified exactly if both of its sides are (`converge_eqn_iff`). The derivative of an equation is
that of its sides, and what holds for simplification holds for differentiation
(`run_eqn_memberwise`).
-/

namespace ComputerAlgebra

namespace Simplification

variable {cap : Option ℕ} {limit k m : ℕ} {e l r l' r' s d : Expr} {x : String}

/-- From a fixed point on nothing changes. -/
theorem iterate_eq_of_le {α : Type*} {step : α → α} {a : α} (h : step^[k + 1] a = step^[k] a)
    (hle : k ≤ m) : step^[m] a = step^[k] a := by
  obtain ⟨j, rfl⟩ := Nat.exists_eq_add_of_le' hle
  rw [Function.iterate_add_apply]
  exact Function.iterate_fixed ((Function.iterate_succ_apply' step k a).symm.trans h) j

/-! ### Simplification -/

/-- A round keeps an equation if it keeps both sides. -/
theorem iterate_round_eqn_fixed_iff :
    round^[k + 1] (.eqn l r) = round^[k] (.eqn l r) ↔
      round^[k + 1] l = round^[k] l ∧ round^[k + 1] r = round^[k] r := by
  rw [iterate_round_eqn, iterate_round_eqn, Expr.eqn.injEq]

/-- Both sides are kept from the round on that keeps the second of them. -/
theorem exists_iterate_round_eqn (hl : converge round limit l = .ok l')
    (hr : converge round limit r = .ok r') :
    ∃ k < limit, round^[k + 1] (.eqn l r) = round^[k] (.eqn l r) ∧
      round^[k] (.eqn l r) = .eqn l' r' := by
  obtain ⟨i, hi, hfixl, -, rfl⟩ := converge_eq_ok_iff.1 hl
  obtain ⟨j, hj, hfixr, -, rfl⟩ := converge_eq_ok_iff.1 hr
  have hl : ∀ m, max i j ≤ m → round^[m] l = round^[i] l :=
    fun m hm => iterate_eq_of_le hfixl ((le_max_left i j).trans hm)
  have hr : ∀ m, max i j ≤ m → round^[m] r = round^[j] r :=
    fun m hm => iterate_eq_of_le hfixr ((le_max_right i j).trans hm)
  refine ⟨max i j, max_lt hi hj, iterate_round_eqn_fixed_iff.2 ⟨?_, ?_⟩, ?_⟩
  · rw [hl _ (Nat.le_succ _), hl _ le_rfl]
  · rw [hr _ (Nat.le_succ _), hr _ le_rfl]
  · rw [iterate_round_eqn, hl _ le_rfl, hr _ le_rfl]

/-- An equation is simplified to the simplified sides, if both of them are reached. -/
theorem converge_eqn_iff : converge round limit (.eqn l r) = .ok (.eqn l' r') ↔
    converge round limit l = .ok l' ∧ converge round limit r = .ok r' := by
  constructor
  · intro h
    obtain ⟨k, hk, hfix, -, heq⟩ := converge_eq_ok_iff.1 h
    obtain ⟨hl, hr⟩ := iterate_round_eqn_fixed_iff.1 hfix
    rw [iterate_round_eqn] at heq
    obtain ⟨rfl, rfl⟩ := Expr.eqn.inj heq
    rw [Function.iterate_succ_apply'] at hl hr
    exact ⟨converge_eq_ok hl hk, converge_eq_ok hr hk⟩
  · rintro ⟨hl, hr⟩
    obtain ⟨k, hk, hfix, heq⟩ := exists_iterate_round_eqn hl hr
    rw [← heq]
    rw [Function.iterate_succ_apply'] at hfix
    exact converge_eq_ok hfix hk

/-- Where the rounds of an equation converge, they do to an equation. -/
theorem exists_eqn_of_converge (h : converge round limit (.eqn l r) = .ok e) :
    ∃ l' r', e = .eqn l' r' := by
  obtain ⟨k, rfl⟩ := converge_eq_iterate (.inl h)
  exact ⟨_, _, iterate_round_eqn l r k⟩

/-- If one of the sides is not reached, neither is the equation, and both sides have made all the
rounds. -/
theorem converge_eqn_eq_error
    (h : ¬∃ l' r', converge round limit l = .ok l' ∧ converge round limit r = .ok r') :
    converge round limit (.eqn l r) = .error (.eqn (round^[limit] l) (round^[limit] r)) := by
  rw [← iterate_round_eqn]
  refine converge_eq_error fun k hk hfix => h ?_
  obtain ⟨hl, hr⟩ := iterate_round_eqn_fixed_iff.1 hfix
  rw [Function.iterate_succ_apply'] at hl hr
  exact ⟨_, _, converge_eq_ok hl hk, converge_eq_ok hr hk⟩

/-! ### Differentiation -/

/-- Differentiation succeeds if and only if both simplifications do, that of the tree and that of
its derivative. -/
theorem run_differentiate_eq_ok_iff : (Job.differentiate cap e x).run false = (.ok d, false) ↔
    ∃ s, (Job.simplify cap e).run false = (.ok s, false) ∧
      (Job.simplify cap (Calculus.derivative x s)).run false = (.ok d, false) := by
  constructor
  · intro h
    obtain ⟨s, hs, -, hd⟩ := (Job.ensures_simplify_any (fun _ _ => trivial) cap e).run_bind_eq_ok h
    exact ⟨s, hs, hd⟩
  · rintro ⟨s, hs, hd⟩
    rw [Job.differentiate, Job.run_bind, hs]
    exact hd

/-- The sides of an equation are simplified and differentiated apart from each other. -/
theorem run_eqn_memberwise (l r : Expr) (x : String) :
    (∀ (cap : Option ℕ) (l' r' : Expr),
      (Job.simplify cap (.eqn l r)).run false = (.ok (.eqn l' r'), false) ↔
        (Job.simplify cap l).run false = (.ok l', false) ∧
          (Job.simplify cap r).run false = (.ok r', false)) ∧
    (∀ cap : Option ℕ, (¬∃ l' r', (Job.simplify cap l).run false = (.ok l', false) ∧
        (Job.simplify cap r).run false = (.ok r', false)) →
      (Job.simplify cap (.eqn l r)).run false =
        (.error (.notConverged (cap.getD unbounded)
          (.eqn (round^[cap.getD unbounded] l) (round^[cap.getD unbounded] r))), false)) ∧
    ∀ (cap : Option ℕ) (dl dr : Expr),
      (Job.differentiate cap (.eqn l r) x).run false = (.ok (.eqn dl dr), false) ↔
        (Job.differentiate cap l x).run false = (.ok dl, false) ∧
          (Job.differentiate cap r x).run false = (.ok dr, false) := by
  simp only [run_differentiate_eq_ok_iff, run_simplify_eq_ok_iff]
  refine ⟨fun cap l' r' => converge_eqn_iff, fun cap h => ?_, fun cap dl dr => ⟨?_, ?_⟩⟩
  · rw [Job.run_simplify, simplify, converge_eqn_eq_error h]
    rfl
  · rintro ⟨s, hs, hd⟩
    obtain ⟨l', r', rfl⟩ := exists_eqn_of_converge hs
    obtain ⟨hl, hr⟩ := converge_eqn_iff.1 hs
    obtain ⟨hdl, hdr⟩ := converge_eqn_iff.1 hd
    exact ⟨⟨l', hl, hdl⟩, ⟨r', hr, hdr⟩⟩
  · rintro ⟨⟨l', hl, hdl⟩, ⟨r', hr, hdr⟩⟩
    exact ⟨.eqn l' r', converge_eqn_iff.2 ⟨hl, hr⟩, converge_eqn_iff.2 ⟨hdl, hdr⟩⟩

end Simplification

end ComputerAlgebra
