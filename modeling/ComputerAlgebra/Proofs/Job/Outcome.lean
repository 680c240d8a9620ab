import ComputerAlgebra.Job.Symbolic

/-!
# Outcomes of jobs

What a job does depends on whether a request to stop is pending when it starts. `Job.Heeds` says
that the job comes to a checkpoint before anything else that shows, so that a request ends it.
`Job.Ensures` says how the job ends if there is no request. Both are closed under what jobs are made
of, and the repetition in a simplification has one lemma for each.
-/

namespace ComputerAlgebra

namespace Job

variable {α β : Type} {job : Job α} {next : α → Job β} {post : α → Prop} {fails : Failure → Prop}

@[simp] theorem run_map (g : α → β) (job : Job α) (pending : Bool) :
    run (g <$> job) pending = ((run job pending).1.map g, (run job pending).2) := by
  rw [map_eq_pure_bind, run_bind]
  cases run job pending with
  | mk result left => cases result <;> rfl

/-! ### Jobs that heed a request -/

/-- A pending request ends the job, and is forgotten. -/
def Heeds (job : Job α) : Prop := run job true = (.error .aborted, false)

theorem heeds_checkpoint : Heeds checkpoint := run_checkpoint true

/-- A job that heeds requests still does so if something follows it. -/
theorem Heeds.bind (h : Heeds job) : Heeds (job >>= next) := by
  unfold Heeds at h ⊢
  rw [run_bind, h]

theorem Heeds.map (h : Heeds job) (g : α → β) : Heeds (g <$> job) := by
  rw [map_eq_pure_bind]
  exact h.bind

/-! ### Jobs that are left alone -/

/-- Without a request the job leaves none; its result satisfies `post`, its failure `fails`. -/
def Ensures (job : Job α) (post : α → Prop) (fails : Failure → Prop) : Prop :=
  (∃ a, run job false = (.ok a, false) ∧ post a) ∨
    ∃ f, run job false = (.error f, false) ∧ fails f

theorem ensures_pure {a : α} (h : post a) : Ensures (pure a) post fails :=
  .inl ⟨a, rfl, h⟩

/-- A job that fails ensures anything, if it may fail in this way. -/
theorem ensures_throw {f : Failure} (h : fails f) : Ensures (throw f) post fails :=
  .inr ⟨f, rfl, h⟩

/-- Without a request a checkpoint does nothing. -/
theorem ensures_checkpoint : Ensures checkpoint (fun _ => True) fails :=
  .inl ⟨(), rfl, trivial⟩

/-- What follows a job may rely on what that ensures. -/
theorem Ensures.bind {post' : β → Prop} (h : Ensures job post fails)
    (hnext : ∀ a, post a → Ensures (next a) post' fails) : Ensures (job >>= next) post' fails := by
  obtain ⟨a, hrun, ha⟩ | ⟨f, hrun, hf⟩ := h
  · simpa only [Ensures, run_bind, hrun] using hnext a ha
  · exact .inr ⟨f, by rw [run_bind, hrun], hf⟩

theorem Ensures.map (h : Ensures job (fun _ => True) fails) (g : α → β) :
    Ensures (g <$> job) (fun _ => True) fails := by
  rw [map_eq_pure_bind]
  exact h.bind fun _ _ => ensures_pure trivial

/-- What is known of the results of a job holds of the result of a run that is left alone. -/
theorem Ensures.of_run_eq_ok (h : Ensures job post fun _ => True) {a : α} {pending : Bool}
    (hrun : run job false = (.ok a, pending)) : pending = false ∧ post a := by
  obtain ⟨a', hrun', ha⟩ | ⟨f, hrun', -⟩ := h
  · rw [hrun] at hrun'
    cases hrun'
    exact ⟨rfl, ha⟩
  · rw [hrun] at hrun'
    cases hrun'

/-- A successful run that is left alone consists of two such runs. -/
theorem Ensures.run_bind_eq_ok (h : Ensures job post fun _ => True) {b : β} {pending : Bool}
    (hrun : run (job >>= next) false = (.ok b, pending)) :
    ∃ a, run job false = (.ok a, false) ∧ post a ∧ run (next a) false = (.ok b, pending) := by
  obtain ⟨a, hfirst, ha⟩ | ⟨f, hfirst, -⟩ := h
  · rw [run_bind, hfirst] at hrun
    exact ⟨a, hfirst, ha, hrun⟩
  · rw [run_bind, hfirst] at hrun
    cases hrun

/-! ### Simplification and differentiation -/

variable {inv : Expr → Prop}

/-- A simplification heeds a request even if it may take no round at all. -/
theorem heeds_rounds (allowed left : Nat) (e : Expr) : Heeds (rounds allowed left e) := by
  cases left <;> exact heeds_checkpoint.bind

/-- Every simplification begins with a checkpoint. -/
theorem heeds_simplify (cap : Option Nat) (e : Expr) : Heeds (simplify cap e) := heeds_rounds _ _ e

/-- Every differentiation begins with a checkpoint. -/
theorem heeds_differentiate (cap : Option Nat) (e : Expr) (x : String) :
    Heeds (differentiate cap e x) :=
  (heeds_simplify cap e).bind

/-- The checkpoints of a simplification that is left alone do not show: its outcome is that of the
rounds. -/
theorem run_rounds (allowed left : Nat) (e : Expr) :
    run (rounds allowed left e) false =
      ((Simplification.converge Simplification.round left e).mapError (.notConverged allowed),
        false) := by
  induction left generalizing e with
  | zero => rfl
  | succ left ih =>
    simp only [rounds, run_bind, run_checkpoint, Simplification.converge]
    by_cases h : Simplification.round e = e
    · simp only [if_pos h]
      rfl
    · simpa [h] using ih (Simplification.round e)

/-- Without a request, simplification in the session is the pure simplification, whose result
without convergence becomes a failure with the number of rounds. -/
theorem run_simplify (cap : Option Nat) (e : Expr) :
    run (simplify cap e) false =
      ((Simplification.simplify cap e).mapError
        (.notConverged (cap.getD Simplification.unbounded)), false) :=
  run_rounds _ _ e

/-- A simplification that succeeds in the session is a pure simplification that converges. -/
theorem simplify_eq_ok_of_run {cap : Option Nat} {e e' : Expr} {pending : Bool}
    (h : run (simplify cap e) false = (.ok e', pending)) :
    Simplification.simplify cap e = .ok e' := by
  rw [run_simplify] at h
  cases hs : Simplification.simplify cap e with
  | ok e'' =>
    rw [hs] at h
    cases h
    rfl
  | error e'' =>
    rw [hs] at h
    cases h

/-- Rounds keep whatever one round keeps, and fail only if there are not enough of them. -/
theorem ensures_rounds (hround : ∀ e, inv e → inv (Simplification.round e))
    (hfails : ∀ n e, inv e → fails (.notConverged n e)) (allowed left : Nat) {e : Expr}
    (h : inv e) : Ensures (rounds allowed left e) inv fails := by
  induction left generalizing e with
  | zero => exact ensures_checkpoint.bind fun _ _ => ensures_throw (hfails allowed e h)
  | succ left ih =>
    apply ensures_checkpoint.bind
    intro _ _
    show Ensures (if _ then _ else _) _ _
    split
    · exact ensures_pure h
    · exact ih (hround e h)

/-- What the rounds preserve holds of the simplified tree, and of the tree reached if they run
out. -/
theorem ensures_simplify (hround : ∀ e, inv e → inv (Simplification.round e))
    (hfails : ∀ n e, inv e → fails (.notConverged n e)) (cap : Option Nat) {e : Expr}
    (h : inv e) : Ensures (simplify cap e) inv fails :=
  ensures_rounds hround hfails _ _ h

/-- Differentiation keeps whatever rounds and the derivative keep, and fails only if there are not
enough rounds. -/
theorem ensures_differentiate {x : String} (hround : ∀ e, inv e → inv (Simplification.round e))
    (hfails : ∀ n e, inv e → fails (.notConverged n e))
    (hderivative : ∀ e, inv e → inv (Calculus.derivative x e)) (cap : Option Nat) {e : Expr}
    (h : inv e) : Ensures (differentiate cap e x) inv fails :=
  (ensures_simplify hround hfails cap h).bind fun e he =>
    ensures_simplify hround hfails cap (hderivative e he)

theorem ensures_simplify_any (hfails : ∀ n e, fails (.notConverged n e)) (cap : Option Nat)
    (e : Expr) : Ensures (simplify cap e) (fun _ => True) fails :=
  ensures_simplify (fun _ _ => trivial) (fun n e _ => hfails n e) cap trivial

theorem ensures_differentiate_any (hfails : ∀ n e, fails (.notConverged n e)) (cap : Option Nat)
    (e : Expr) (x : String) : Ensures (differentiate cap e x) (fun _ => True) fails :=
  (ensures_simplify_any hfails cap e).bind fun _ _ => ensures_simplify_any hfails cap _

end Job

end ComputerAlgebra
