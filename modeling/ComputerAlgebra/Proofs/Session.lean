import ComputerAlgebra.Session
import Mathlib.Data.List.Induction
import ComputerAlgebra.Proofs.Calculus.Taylor
import ComputerAlgebra.Proofs.Numeric.Outcome

/-!
# Requests in a session

A request to stop is delivered once. It waits until a call comes to a checkpoint, ends that call,
and is gone; all other calls answer as if it had never been made. Whether a call comes to a
checkpoint can be told from what it is given: it does unless it is refused at once or there is
nothing to compute.
-/

namespace ComputerAlgebra

open Job

namespace Session

variable {s : Settings} {c : Call}

/-- Is a call a request to stop? -/
def Call.IsRequest : Call → Prop
  | abort => True
  | abortByHandle => True
  | _ => False

/-- Does a call pass the checks of what it is given? Only some operations have any. -/
def Call.InDomain (s : Settings) : Call → Prop
  | solve e => Roots.Solvable e
  | integrate f lower upper => Trapezoid.Integrable s.integrationStep f lower upper
  | taylor f _ p order => Calculus.Expandable f p order
  | _ => True

/-- Does a call come to a checkpoint? -/
def Call.ReachesCheckpoint (s : Settings) : Call → Prop
  | simplify _ => True
  | differentiate _ _ => True
  | evaluate _ _ => True
  | solve e => (solve e).InDomain s
  | integrate f lower upper =>
    (integrate f lower upper).InDomain s ∧ Arithmetic.eq lower upper = false
  | taylor f x p order => (taylor f x p order).InDomain s
  | _ => False

/-! ### One call -/

/-- A request to stop succeeds, whether one waits already or not, and leaves one behind. -/
theorem Call.run_of_isRequest (h : c.IsRequest) (pending : Bool) :
    Job.run (c.job s) pending = (.ok .done, true) := by
  cases c <;> first | rfl | exact h.elim

/-- A failure of a call that has passed all checks and was not asked to stop. -/
def Late (f : Failure) : Prop := f ≠ .aborted ∧ ∀ err, f ≠ .domain err

/-- Running out of rounds is a failure after a checkpoint. -/
theorem late_notConverged (n : Nat) (e : Expr) : Late (.notConverged n e) := by simp [Late]

/-- A missing value is a failure after a checkpoint. -/
theorem late_valueless (err : EvaluationError) : Late (.valueless err) := by simp [Late]

/-- For the failures after a checkpoint nothing needs to be known about what is searched for
roots. -/
theorem invariant_true (x : String) :
    Roots.Invariant Float x Late (fun _ _ => True) where
  round _ _ _ := trivial
  derivative _ _ _ := trivial
  deflate _ _ _ := trivial
  notConverged _ e allowed _ := late_notConverged allowed e
  evaluate _ _ _ err _ _ := late_valueless err

/-- A call that comes to a checkpoint does so before anything else shows. -/
theorem Call.heeds (h : c.ReachesCheckpoint s) : Heeds (c.job s) := by
  cases c with
  | simplify e => exact (heeds_simplify s.rounds e).map _
  | differentiate e x => exact (heeds_differentiate s.rounds e x).map _
  | evaluate e bs => exact (heeds_evaluate bs e).map _
  | solve e => exact (Roots.heeds_solve h s.newton s.rounds).map _
  | integrate f lower upper =>
    exact (Trapezoid.heeds_integrate h.1 h.2 s.rounds).map _
  | taylor f x p order => exact (Calculus.heeds_taylor h s.rounds x).map _
  | _ => exact h.elim

/-- A call that comes to a checkpoint and finds no request there leaves none, and is not refused
later. -/
theorem Call.ensures (h : c.ReachesCheckpoint s) : Ensures (c.job s) (fun _ => True) Late := by
  cases c with
  | simplify e => exact (ensures_simplify_any late_notConverged s.rounds e).map _
  | differentiate e x => exact (ensures_differentiate_any late_notConverged s.rounds e x).map _
  | evaluate e bs => exact (ensures_evaluate fun err _ => late_valueless err).map _
  | solve e =>
    cases e with
    | eqn a b =>
      obtain ⟨x, hx⟩ := h
      exact (Roots.ensures_solve hx (invariant_true x) trivial s.newton s.rounds).map _
    | _ => exact h.elim
  | integrate f lower upper =>
    obtain ⟨x, hx⟩ := h.1.2.1
    apply Ensures.map
    exact Trapezoid.ensures_integrate (fun _ => True) h.1 hx (fun _ _ => trivial)
      (fun n e _ => late_notConverged n e) (fun _ _ err _ _ => late_valueless err) trivial s.rounds
  | taylor f x p order => exact (Calculus.ensures_taylor h late_notConverged s.rounds x).map _
  | _ => exact h.elim

/-- What comes of a call that comes to no checkpoint and is no request, whether one is pending or
not. -/
def Call.Unseeing (s : Settings) (c : Call) (answer : Except Failure Answer) : Prop :=
  answer ≠ .error .aborted ∧ ((∃ err, answer = .error (.domain err)) ↔ ¬ c.InDomain s) ∧
    ∀ pending, Job.run (c.job s) pending = (answer, pending)

/-- A call that is no request and comes to no checkpoint, such as parsing, answers the same with and
without a request, and leaves it where it is. -/
theorem Call.exists_unseeing (hreaches : ¬ c.ReachesCheckpoint s) (hrequest : ¬ c.IsRequest) :
    ∃ answer, c.Unseeing s answer := by
  -- the algorithms that are refused for what they are given
  have refused {α : Type} {job : Job α} {g : α → Answer} (hjob : c.job s = g <$> job)
      (h : ∃ err, job = throw (.domain err)) (hdomain : ¬ c.InDomain s) :
      ∃ answer, c.Unseeing s answer := by
    obtain ⟨err, rfl⟩ := h
    refine ⟨.error (.domain err), by simp, by simpa using hdomain, fun pending => ?_⟩
    rw [hjob]
    rfl
  cases c with
  | abort => exact absurd trivial hrequest
  | abortByHandle => exact absurd trivial hrequest
  | parse text =>
    cases h : Expr.parse text with
    | ok e =>
      refine ⟨.ok (.expr e), by simp, by simp [InDomain], fun pending => ?_⟩
      simp [Call.job, h]
    | error err =>
      refine ⟨.error (.unreadable err), by simp, by simp [InDomain], fun pending => ?_⟩
      simp [Call.job, h]
  | plainText e => exact ⟨.ok _, by simp, by simp [InDomain], fun _ => rfl⟩
  | latex e => exact ⟨.ok _, by simp, by simp [InDomain], fun _ => rfl⟩
  | substitute e σ => exact ⟨.ok _, by simp, by simp [InDomain], fun _ => rfl⟩
  | unknowns e => exact ⟨.ok _, by simp, by simp [InDomain], fun _ => rfl⟩
  | simplify e => exact absurd trivial hreaches
  | differentiate e x => exact absurd trivial hreaches
  | evaluate e bs => exact absurd trivial hreaches
  | solve e => exact refused rfl (Roots.solve_eq_throw hreaches s.newton s.rounds) hreaches
  -- in its domain, only an integral between equal bounds comes to no checkpoint
  | integrate f lower upper =>
    by_cases h : Trapezoid.Integrable s.integrationStep f lower upper
    · obtain ⟨x, hx⟩ := h.2.1
      have heq : Arithmetic.eq lower upper = true := by
        simpa using fun hne => hreaches ⟨h, hne⟩
      refine ⟨.ok (.number (Arithmetic.ofInt 0)), by simp, by simpa [InDomain] using h, ?_⟩
      intro pending
      simp [Call.job, Trapezoid.integrate_eq h hx, heq]
    · exact refused rfl (Trapezoid.integrate_eq_throw h s.rounds) h
  | taylor f x p order => exact refused rfl (Calculus.taylor_eq_throw hreaches s.rounds x) hreaches

/-- A call that comes to a checkpoint has passed the checks of what it is given. -/
theorem Call.InDomain.of_reaches (h : c.ReachesCheckpoint s) : c.InDomain s := by
  cases c with
  | integrate f lower upper => exact h.1
  | solve e => exact h
  | taylor f x p order => exact h
  | _ => exact trivial

/-- The answer to a call that no request disturbs. -/
def Call.alone (s : Settings) (c : Call) : Except Failure Answer := (Job.run (c.job s) false).1

/-- Without a request no call is aborted. -/
theorem Call.alone_ne_aborted (s : Settings) (c : Call) : c.alone s ≠ .error .aborted := by
  by_cases hrequest : c.IsRequest
  · simp [alone, run_of_isRequest hrequest]
  by_cases hreaches : c.ReachesCheckpoint s
  · obtain ⟨a, hrun, -⟩ | ⟨f, hrun, hlate⟩ := Call.ensures hreaches
    · simp [alone, hrun]
    · simpa [alone, hrun] using hlate.1
  · obtain ⟨answer, hanswer, -, hrun⟩ := exists_unseeing hreaches hrequest
    simpa [alone, hrun] using hanswer

/-- The checks of a call are the only source of domain errors. -/
theorem Call.alone_refused_iff (s : Settings) (c : Call) :
    (∃ err, c.alone s = .error (.domain err)) ↔ ¬ c.InDomain s := by
  by_cases hrequest : c.IsRequest
  · have hdomain : c.InDomain s := by
      cases c <;> first | exact trivial | exact hrequest.elim
    simp [alone, run_of_isRequest hrequest, hdomain]
  by_cases hreaches : c.ReachesCheckpoint s
  · obtain ⟨a, hrun, -⟩ | ⟨f, hrun, hlate⟩ := Call.ensures hreaches
    · simp [alone, hrun, Call.InDomain.of_reaches hreaches]
    · simpa [alone, hrun, Call.InDomain.of_reaches hreaches] using hlate.2
  · obtain ⟨answer, -, hiff, hrun⟩ := exists_unseeing hreaches hrequest
    simpa [alone, hrun] using hiff

/-- A call either heeds a pending request or answers as if there were none. -/
theorem Call.answer_eq (s : Settings) (c : Call) (pending : Bool) :
    (pending = true ∧ c.ReachesCheckpoint s → (Job.run (c.job s) pending).1 = .error .aborted) ∧
      (¬ (pending = true ∧ c.ReachesCheckpoint s) →
        (Job.run (c.job s) pending).1 = c.alone s) := by
  constructor
  · rintro ⟨rfl, hreaches⟩
    rw [Call.heeds hreaches]
  · intro h
    cases pending with
    | false => rfl
    | true =>
      have hreaches : ¬ c.ReachesCheckpoint s := fun hc => h ⟨rfl, hc⟩
      by_cases hrequest : c.IsRequest
      · simp [alone, run_of_isRequest hrequest]
      · obtain ⟨answer, -, -, hrun⟩ := exists_unseeing hreaches hrequest
        simp [alone, hrun]

/-- A request is pending after a call if the call makes one or leaves an earlier one where it is. -/
theorem Call.pending_iff (s : Settings) (c : Call) (pending : Bool) :
    (Job.run (c.job s) pending).2 = true ↔
      c.IsRequest ∨ pending = true ∧ ¬ c.ReachesCheckpoint s := by
  by_cases hrequest : c.IsRequest
  · simp [run_of_isRequest hrequest, hrequest]
  by_cases hreaches : c.ReachesCheckpoint s
  · cases pending with
    | false =>
      obtain ⟨a, hrun, -⟩ | ⟨f, hrun, -⟩ := Call.ensures hreaches <;> simp [hrun, hrequest]
    | true =>
      rw [Call.heeds hreaches]
      simp [hrequest, hreaches]
  · obtain ⟨answer, -, -, hrun⟩ := exists_unseeing hreaches hrequest
    simp [hrun, hrequest, hreaches]

/-! ### A whole session -/

/-- Among the calls so far is a request after which no call has come to a checkpoint. -/
def Waits (s : Settings) (before : List Call) : Prop :=
  ∃ earlier request later, before = earlier ++ request :: later ∧ request.IsRequest ∧
    ∀ c ∈ later, ¬ c.ReachesCheckpoint s

theorem not_waits_nil : ¬ Waits s [] := by
  rintro ⟨earlier, request, later, h, -⟩
  simp at h

/-- After one more call a request waits if this call made it, or if it waited before and the call
came to no checkpoint. -/
theorem waits_concat {before : List Call} :
    Waits s (before ++ [c]) ↔ c.IsRequest ∨ Waits s before ∧ ¬ c.ReachesCheckpoint s := by
  constructor
  · rintro ⟨earlier, request, later, h, hrequest, hlater⟩
    rcases List.eq_nil_or_concat later with rfl | ⟨later, last, rfl⟩
    · obtain ⟨-, hc⟩ := List.append_inj' h rfl
      simp only [List.cons.injEq, and_true] at hc
      exact .inl (hc ▸ hrequest)
    · rw [List.concat_eq_append, ← List.cons_append, ← List.append_assoc] at h
      obtain ⟨hbefore, hc⟩ := List.append_inj' h rfl
      simp only [List.cons.injEq, and_true] at hc
      refine .inr ⟨⟨earlier, request, later, hbefore, hrequest, fun d hd => ?_⟩, ?_⟩
      · exact hlater d (by simp [hd])
      · exact hc ▸ hlater last (by simp)
  · rintro (hrequest | ⟨⟨earlier, request, later, rfl, hrequest, hlater⟩, hc⟩)
    · exact ⟨before, c, [], rfl, hrequest, by simp⟩
    · refine ⟨earlier, request, later ++ [c], by simp, hrequest, fun d hd => ?_⟩
      rcases List.mem_append.mp hd with hd | hd
      · exact hlater d hd
      · rwa [List.mem_singleton.mp hd]

/-- A session is run call by call: what its second part does depends on its first part only through
the request that this leaves. -/
theorem run_append (s : Settings) (cs ds : List Call) (pending : Bool) :
    run s (cs ++ ds) pending =
      ((run s cs pending).1 ++ (run s ds (run s cs pending).2).1,
        (run s ds (run s cs pending).2).2) := by
  induction cs generalizing pending with
  | nil => rfl
  | cons c cs ih => simp [run, ih]

/-- Every call has an answer. -/
theorem length_run (s : Settings) (cs : List Call) (pending : Bool) :
    (run s cs pending).1.length = cs.length := by
  induction cs generalizing pending with
  | nil => rfl
  | cons c cs ih => simp [run, ih]

/-- The flag says what the calls so far have to say about it. -/
theorem pending_iff_waits (s : Settings) (before : List Call) :
    (run s before false).2 = true ↔ Waits s before := by
  induction before using List.reverseRecOn with
  | nil => simpa [run] using not_waits_nil
  | append_singleton before c ih =>
    rw [waits_concat, run_append, ← ih]
    exact Call.pending_iff s c _

/-- The answer to a call in a session is that of the call alone, with or without the request that
the calls before it leave. -/
theorem answer_getElem? (s : Settings) (before : List Call) (c : Call) (after : List Call) :
    (run s (before ++ c :: after) false).1[before.length]? =
      some (Job.run (c.job s) (run s before false).2).1 := by
  have hlength := length_run s before false
  rw [run_append, List.getElem?_append_right (Nat.le_of_eq hlength), hlength]
  simp [run]

/-- A call answers as it does alone unless a request waits that it comes to see. -/
theorem answer_eq_alone {before : List Call} (h : ¬ (Waits s before ∧ c.ReachesCheckpoint s))
    (after : List Call) :
    (run s (before ++ c :: after) false).1[before.length]? = some (c.alone s) := by
  rw [← pending_iff_waits] at h
  rw [answer_getElem?, (Call.answer_eq s c _).2 h]

/-- Where no request was made, none waits. -/
theorem not_waits_of_no_request {before : List Call} (h : ∀ d ∈ before, ¬ d.IsRequest) :
    ¬ Waits s before := by
  rintro ⟨earlier, request, later, rfl, hrequest, -⟩
  exact h request (by simp) hrequest

/-- Calls that come to no checkpoint answer as they would alone, whether a request waits or not. -/
theorem answers_of_not_reaches {cs : List Call} (h : ∀ d ∈ cs, ¬ d.ReachesCheckpoint s)
    (pending : Bool) : (run s cs pending).1 = cs.map (Call.alone s) := by
  induction cs generalizing pending with
  | nil => rfl
  | cons d cs ih =>
    have hd : (Job.run (d.job s) pending).1 = d.alone s :=
      (Call.answer_eq s d pending).2 fun hp => h d List.mem_cons_self hp.2
    simp only [run, List.map_cons, hd, ih fun d' hd' => h d' (List.mem_cons_of_mem d hd')]

/-- With a second request to come before any checkpoint, it does not matter whether one is
pending. -/
theorem run_before_request {r : Call} {between : List Call} (hr : r.IsRequest)
    (hbetween : ∀ d ∈ between, ¬ d.ReachesCheckpoint s) (after : List Call) (pending : Bool) :
    run s (between ++ r :: after) pending = run s (between ++ r :: after) false := by
  rw [run_append, run_append, answers_of_not_reaches hbetween, answers_of_not_reaches hbetween]
  simp only [run, Call.run_of_isRequest hr]

/-- A request to stop is delivered once, to the right call.

A call is aborted if and only if a request waits and the call comes to a checkpoint; the request is
then gone, and until then it waits, whatever else is called. A call that is not aborted answers as
in any session without requests. It is refused for what it is given if and only if that does not
pass its checks. Of two requests with no checkpoint between them, the first one makes no
difference. -/
theorem request_delivered_once (s : Settings) (before : List Call) (c : Call) (after : List Call) :
    let answer := (run s (before ++ c :: after) false).1[before.length]?
    (answer = some (.error .aborted) ↔ Waits s before ∧ c.ReachesCheckpoint s) ∧
      ((run s before false).2 = true ↔ Waits s before) ∧
      (Waits s (before ++ [c]) ↔ c.IsRequest ∨ Waits s before ∧ ¬ c.ReachesCheckpoint s) ∧
      (answer ≠ some (.error .aborted) → ∀ calm later, (∀ d ∈ calm, ¬ d.IsRequest) →
        answer = (run s (calm ++ c :: later) false).1[calm.length]?) ∧
      ((∃ err, c.alone s = .error (.domain err)) ↔ ¬ c.InDomain s) ∧
      (∀ between r, c.IsRequest → r.IsRequest → (∀ d ∈ between, ¬ d.ReachesCheckpoint s) →
        (run s (before ++ c :: (between ++ r :: after)) false).1.drop (before.length + 1) =
          (run s (before ++ (between ++ r :: after)) false).1.drop before.length) := by
  have aborted_iff : (run s (before ++ c :: after) false).1[before.length]? =
      some (.error .aborted) ↔ Waits s before ∧ c.ReachesCheckpoint s := by
    constructor
    · intro h
      by_contra hne
      rw [answer_eq_alone hne after] at h
      exact c.alone_ne_aborted s (Option.some.inj h)
    · intro h
      rw [answer_getElem?, (Call.answer_eq s c _).1 ⟨(pending_iff_waits s before).mpr h.1, h.2⟩]
  refine ⟨aborted_iff, pending_iff_waits s before, waits_concat, ?_, c.alone_refused_iff s, ?_⟩
  · intro hne calm later hcalm
    have hcalm : ¬ (Waits s calm ∧ c.ReachesCheckpoint s) := fun h =>
      not_waits_of_no_request hcalm h.1
    rw [answer_eq_alone (mt aborted_iff.mpr hne), answer_eq_alone hcalm]
  · intro between r hc hr hbetween
    have hlength := length_run s before false
    rw [run_append s before, run_append s before]
    simp only [run, Call.run_of_isRequest hc, ← hlength]
    rw [List.drop_append, List.drop_append]
    simp [run_before_request hr hbetween after true,
      run_before_request hr hbetween after (run s before false).2]

end Session

end ComputerAlgebra
