import ComputerAlgebra.Proofs.Simplification.NormalForm

/-!
# Flattening turn by turn

The loop of `Flatten.run`, one turn after the other. What keeps it going is that the steps that are
left fit the number of finished trees (`Flatten.Fits`): then a node that is left finds all of its
operands on the stack, and the last step leaves one tree. Every turn keeps that, and takes one from
the number of turns to come, so the loop ends with the tree that is spliced from the leaves up
(`flatten_traversal`).
-/

namespace ComputerAlgebra

namespace Simplification

namespace Flatten

open ComputerAlgebra.Expr

variable {e : Expr} {es finished : List Expr} {step : Step} {steps : List Step} {fuel n : ℕ}

/-- What the loop holds between two turns. -/
structure State where
  /-- What is left to do, first step first. -/
  steps : List Step
  /-- The finished trees, last one first. -/
  finished : List Expr

/-- Before the first turn the root is to be entered. -/
def State.start (e : Expr) : State := ⟨[.enter e], []⟩

/-- One turn of the loop. As in the loop itself, nothing asks whether as many trees are finished as
are taken from the stack. -/
inductive Turn : State → State → Prop where
  | enter (e : Expr) (steps : List Step) (finished : List Expr) :
      Turn ⟨.enter e :: steps, finished⟩
        ⟨e.operands.map .enter ++ .leave e :: steps, finished⟩
  | leave (e : Expr) (steps : List Step) (finished : List Expr) {e' : Expr}
      (h : e.withOperands? (finished.take e.operands.length).reverse = some e') :
      Turn ⟨.leave e :: steps, finished⟩
        ⟨steps, splice e' :: finished.drop e.operands.length⟩

/-- A number of turns. -/
inductive Turns : ℕ → State → State → Prop where
  | zero (s : State) : Turns 0 s s
  | succ {n : ℕ} {s s' s'' : State} (turn : Turn s s') (turns : Turns n s' s'') :
      Turns (n + 1) s s''

/-- The loop has a result exactly if there is a turn after which it has this result. -/
theorem run_succ_eq_some_iff :
    run (fuel + 1) (step :: steps) finished = some e ↔
      ∃ s, Turn ⟨step :: steps, finished⟩ s ∧ run fuel s.steps s.finished = some e := by
  cases step with
  | enter e' =>
    rw [run]
    constructor
    · exact fun h => ⟨_, .enter e' steps finished, h⟩
    · rintro ⟨_, hturn, h⟩
      cases hturn
      exact h
  | leave e' =>
    rw [run]
    constructor
    · intro h
      split at h
      · next hnode => exact ⟨_, .leave e' steps finished hnode, h⟩
      · cases h
    · rintro ⟨_, hturn, h⟩
      cases hturn with
      | leave _ _ _ hnode =>
        rw [hnode]
        exact h

/-- A run of some turns can be put in front of one that finishes. -/
theorem run_of_turns {s s' : State} (h : Turns n s s')
    (hrun : run fuel s'.steps s'.finished = some e) :
    run (fuel + n) s.steps s.finished = some e := by
  induction h with
  | zero s => exact hrun
  | @succ n s s' s'' turn _ ih =>
    have hturn : ∃ s', Turn s s' ∧ run (fuel + n) s'.steps s'.finished = some e :=
      ⟨s', turn, ih hrun⟩
    cases turn with
    | enter e' steps finished => exact run_succ_eq_some_iff.2 hturn
    | leave e' steps finished hnode => exact run_succ_eq_some_iff.2 hturn

/-! ### Enough finished trees -/

/-- The steps can be done on a stack of so many finished trees, and leave one. -/
inductive Fits : List Step → ℕ → Prop where
  | done : Fits [] 1
  | enter {e : Expr} {steps : List Step} {n : ℕ} (h : Fits steps (n + 1)) :
      Fits (.enter e :: steps) n
  | leave {e : Expr} {steps : List Step} {n : ℕ} (h : Fits steps (n + 1)) :
      Fits (.leave e :: steps) (n + e.operands.length)

/-- Each node that is entered adds one tree. -/
theorem Fits.enter_all (h : Fits steps (n + es.length)) : Fits (es.map .enter ++ steps) n := by
  induction es generalizing n with
  | nil => exact h
  | cons e es ih =>
    refine .enter (ih ?_)
    rwa [List.length_cons, ← Nat.add_assoc, Nat.add_right_comm] at h

/-- A node can be rebuilt over as many operands as it has. -/
theorem exists_withOperands? (h : es.length = e.operands.length) :
    ∃ e', e.withOperands? es = some e' := by
  cases e with
  | sum fs => exact ⟨_, rfl⟩
  | prod fs => exact ⟨_, rfl⟩
  | var x | num n =>
    cases List.length_eq_zero_iff.1 h
    exact ⟨_, rfl⟩
  | app f a =>
    obtain ⟨a', rfl⟩ := List.length_eq_one_iff.1 h
    exact ⟨_, rfl⟩
  | quot a b | pow a b | eqn a b =>
    obtain ⟨a', b', rfl⟩ := List.length_eq_two.1 h
    exact ⟨_, rfl⟩

/-- The steps that are left fit the finished trees. -/
def State.Fits (s : State) : Prop := Flatten.Fits s.steps s.finished.length

/-- If a node is to be left, then all of its operands are on the stack, and it is rebuilt over
them. -/
def State.Supplied (s : State) : Prop :=
  ∀ e steps, s.steps = .leave e :: steps → e.operands.length ≤ s.finished.length ∧
    ∃ e', e.withOperands? (s.finished.take e.operands.length).reverse = some e'

/-- At the start the one step fits the empty stack. -/
theorem State.fits_start (e : Expr) : (start e).Fits := .enter .done

namespace State.Fits

variable {s s' : State}

/-- A state that fits has the operands that its next step takes. -/
theorem supplied (h : s.Fits) : s.Supplied := by
  obtain ⟨steps, finished⟩ := s
  rintro e steps ⟨⟩
  have hle : e.operands.length ≤ finished.length := by
    have h : Flatten.Fits (.leave e :: steps) finished.length := h
    generalize finished.length = n at h
    cases h
    exact Nat.le_add_left _ _
  exact ⟨hle, exists_withOperands? (by simp [hle])⟩

/-- One turn keeps the steps fitting. -/
theorem turn (h : s.Fits) (hturn : Turn s s') : s'.Fits := by
  cases hturn with
  | enter e steps finished =>
    have h : Flatten.Fits (.enter e :: steps) finished.length := h
    cases h with
    | enter h => exact .enter_all (.leave h)
  | leave e steps finished hnode =>
    have h : Flatten.Fits (.leave e :: steps) finished.length := h
    generalize hlen : finished.length = m at h
    cases h with
    | @leave _ _ n h =>
      have hdrop : (finished.drop e.operands.length).length = n := by
        rw [List.length_drop, hlen, Nat.add_sub_cancel]
      rw [State.Fits, List.length_cons, hdrop]
      exact h

/-- Any number of turns keeps the steps fitting. -/
theorem turns (h : s.Fits) (hturns : Turns n s s') : s'.Fits := by
  induction hturns with
  | zero s => exact h
  | succ hturn _ ih => exact ih (h.turn hturn)

/-- The loop does not get stuck. -/
theorem exists_turn (h : s.Fits) (hsteps : s.steps ≠ []) : ∃ s', Turn s s' := by
  obtain ⟨steps, finished⟩ := s
  cases steps with
  | nil => contradiction
  | cons step steps =>
    cases step with
    | enter e => exact ⟨_, .enter e steps finished⟩
    | leave e =>
      obtain ⟨-, e', hnode⟩ := h.supplied e steps rfl
      exact ⟨_, .leave e steps finished hnode⟩

/-- With nothing left to do, one tree is finished. -/
theorem exists_finished (h : s.Fits) (hsteps : s.steps = []) : ∃ e, s = ⟨[], [e]⟩ := by
  obtain ⟨steps, finished⟩ := s
  obtain rfl : steps = [] := hsteps
  have h : Flatten.Fits [] finished.length := h
  generalize hlen : finished.length = m at h
  cases h with
  | done =>
    obtain ⟨e, rfl⟩ := List.length_eq_one_iff.1 hlen
    exact ⟨e, rfl⟩

end State.Fits

/-! ### The number of turns -/

/-- How many turns the steps take: two for each node that is still to be entered, and one for each
that is only to be left. -/
def turnsLeft : List Step → ℕ
  | [] => 0
  | .enter e :: steps => 2 * e.nodeCount + turnsLeft steps
  | .leave _ :: steps => 1 + turnsLeft steps

/-- Entering several nodes takes two turns for each node in them. -/
theorem turnsLeft_enter_all (es : List Expr) (steps : List Step) :
    turnsLeft (es.map .enter ++ steps) = 2 * nodeCountAll es + turnsLeft steps := by
  induction es with
  | nil => simp [nodeCountAll]
  | cons e es ih =>
    rw [List.map_cons, List.cons_append, turnsLeft, ih, nodeCountAll]
    omega

/-- Each turn is one of those that were left. -/
theorem turnsLeft_of_turn {s s' : State} (h : Turn s s') :
    turnsLeft s.steps = turnsLeft s'.steps + 1 := by
  cases h with
  | enter e steps finished =>
    rw [turnsLeft, turnsLeft_enter_all, turnsLeft, nodeCount_eq]
    omega
  | leave e steps finished hnode => exact Nat.add_comm 1 _

/-- After some turns there are as many fewer left. -/
theorem turnsLeft_of_turns {s s' : State} (h : Turns n s s') :
    turnsLeft s.steps = turnsLeft s'.steps + n := by
  induction h with
  | zero s => rfl
  | succ hturn _ ih => rw [turnsLeft_of_turn hturn, ih, Nat.add_assoc]

/-- Steps that fit the finished trees can be done, and leave one tree. -/
theorem State.Fits.exists_turns {s : State} (h : s.Fits) (hleft : turnsLeft s.steps = n) :
    ∃ e, Turns n s ⟨[], [e]⟩ := by
  induction n generalizing s with
  | zero =>
    by_cases hsteps : s.steps = []
    · obtain ⟨e, rfl⟩ := h.exists_finished hsteps
      exact ⟨e, .zero _⟩
    · obtain ⟨s', hturn⟩ := h.exists_turn hsteps
      have := turnsLeft_of_turn hturn
      omega
  | succ n ih =>
    have hsteps : s.steps ≠ [] := by
      intro hnil
      rw [hnil] at hleft
      cases hleft
    obtain ⟨s', hturn⟩ := h.exists_turn hsteps
    have hleft' := turnsLeft_of_turn hturn
    obtain ⟨e, he⟩ := ih (h.turn hturn) (by omega)
    exact ⟨e, .succ hturn he⟩

end Flatten

open ComputerAlgebra.Expr Flatten

/-- Flattening with a stack is flattening by recursion. However many turns the loop has taken on a
tree, a node that is to be left next finds all of its operands on the stack and is rebuilt over
them, so there is a next turn as long as anything is left to do; after two turns for each node
nothing is, and the result is the one tree on the stack. It is what one gets by flattening the
operands and splicing then those of the same operation into the root. No sum in it has a sum for an
addend and no product a product for a factor, so it is flattened to itself. -/
theorem flatten_traversal (e : Expr) :
    (∀ n s, Turns n (.start e) s →
      s.Supplied ∧ (s.steps ≠ [] → ∃ s', Turn s s') ∧ n ≤ 2 * e.nodeCount) ∧
    Turns (2 * e.nodeCount) (.start e) ⟨[], [flatten e]⟩ ∧
    run (2 * e.nodeCount) [.enter e] [] = some (flatten e) ∧
    flatten e = e.bottomUp splice ∧
    flatten e = splice (e.mapOperands flatten) ∧
    Everywhere Flat (flatten e) ∧
    flatten (flatten e) = flatten e := by
  have hfits := State.fits_start e
  have hleft : turnsLeft (State.start e).steps = 2 * e.nodeCount := rfl
  obtain ⟨t, hturns⟩ := hfits.exists_turns hleft
  have hrun : run (0 + 2 * e.nodeCount) [.enter e] [] = some t := run_of_turns hturns rfl
  rw [Nat.zero_add] at hrun
  have hflatten : flatten e = t := by rw [flatten, hrun, Option.getD_some]
  refine ⟨fun n s h => ⟨(hfits.turns h).supplied, (hfits.turns h).exists_turn, ?_⟩,
    hflatten ▸ hturns, hflatten ▸ hrun, flatten_eq_bottomUp e, flatten_eq_splice e, flat_flatten e,
    flatten_eq_self (flat_flatten e)⟩
  have := turnsLeft_of_turns h
  omega

end Simplification

end ComputerAlgebra
