import ComputerAlgebra.Proofs.Calculus.Vocabulary
import ComputerAlgebra.Proofs.Numeric.Outcome
import ComputerAlgebra.Proofs.Simplification.Soundness

/-!
# The numeric algorithms never fail to evaluate

Neither simplifying nor differentiating brings in a variable or an equation. So whatever the search
for roots and the integral make of the expression that they are given, there is a value for each of
its variables: the unknown is bound, and so is each placeholder from the moment on in which it hides
a root.
-/

namespace ComputerAlgebra

namespace Expr

variable {e : Expr} {P : String → Prop}

/-- No node is an equation. -/
def EquationFree (e : Expr) : Prop := Everywhere (fun node => node.isEquation = false) e

instance : DecidablePred EquationFree := fun e =>
  inferInstanceAs (Decidable (Everywhere (fun node => node.isEquation = false) e))

/-- Only an equation itself is an equation, so every tree without one is written in a vocabulary. -/
theorem vocabulary_equationFree : Vocabulary fun node => node.isEquation = false where
  num _ := rfl
  sum _ := rfl
  prod _ := rfl
  quot _ _ := rfl
  pow _ _ := rfl
  app _ _ := rfl
  eqn _ _ h := h

/-- Only variables bring names with them. -/
theorem vocabulary_names (P : String → Prop) :
    Vocabulary fun node => ∀ x, node = .var x → P x := by
  constructor <;> intros <;> contradiction

/-- A name of a node is that of the node, or one of an operand. -/
theorem mem_names {x : String} : x ∈ e.names ↔ e = .var x ∨ ∃ e' ∈ e.operands, x ∈ e'.names := by
  cases e <;> simp [names, operands, namesAll_eq_flatMap, eq_comm]

/-- A property of all variables in a tree is a property of all its names. -/
theorem everywhere_names :
    Everywhere (fun node => ∀ x, node = .var x → P x) e ↔ ∀ x ∈ e.names, P x := by
  induction e using operands_induct with
  | node e ih =>
    rw [everywhere_iff]
    constructor
    · rintro ⟨hroot, hoperands⟩ x hx
      obtain rfl | ⟨e', he', hx⟩ := mem_names.mp hx
      · exact hroot x rfl
      · exact (ih e' he').mp (hoperands e' he') x hx
    · intro h
      refine ⟨fun x hx => h x (mem_names.mpr (.inl hx)),
        fun e' he' => (ih e' he').mpr fun x hx => ?_⟩
      exact h x (mem_names.mpr (.inr ⟨e', he', hx⟩))

/-- One expression is written with the variables of another one, and without equations if that one
is. -/
def WrittenLike (e e' : Expr) : Prop := e.names ⊆ e'.names ∧ (e'.EquationFree → e.EquationFree)

/-- Keeping every property that only variables, functions and equations can fail to have is more
than writing with the same variables and without new equations. -/
theorem WrittenLike.of_everywhere {e e' : Expr}
    (h : ∀ p, Vocabulary p → (∀ f a, p (.app f a)) → Everywhere p e' → Everywhere p e) :
    WrittenLike e e' := by
  constructor
  · exact everywhere_names.mp (h _ (vocabulary_names (· ∈ e'.names)) (by simp)
      (everywhere_names.mpr fun _ => id))
  · exact h _ vocabulary_equationFree fun _ _ => rfl

end Expr

open ComputerAlgebra.Expr

variable {α : Type} [Arithmetic α]

/-! ### One evaluation -/

/-- Several trees with values have a list of values. -/
theorem Expr.evaluateAll_eq_ok {bs : Bindings α} {es : List Expr}
    (h : ∀ e ∈ es, ∃ v, e.evaluate bs = .ok v) : ∃ vs, evaluateAll bs es = .ok vs := by
  induction es with
  | nil => exact ⟨[], rfl⟩
  | cons e es ih =>
    obtain ⟨v, hv⟩ := h e List.mem_cons_self
    obtain ⟨vs, hvs⟩ := ih fun e' he' => h e' (List.mem_cons_of_mem e he')
    exact ⟨v :: vs, by rw [evaluateAll, hv, hvs]; rfl⟩

/-- Without equations, and with a value for each variable, an evaluation has a result. -/
theorem Expr.evaluate_eq_ok {bs : Bindings α} {e : Expr} (hfree : e.EquationFree)
    (hbound : ∀ x ∈ e.names, (bs.value? x).isSome) : ∃ v, e.evaluate bs = .ok v := by
  induction e using operands_induct with
  | node e ih =>
    have operand : ∀ e' ∈ e.operands, ∃ v, e'.evaluate bs = .ok v := fun e' he' =>
      ih e' he' (hfree.operand he') fun x hx => hbound x (mem_names.mpr (.inr ⟨e', he', hx⟩))
    cases e with
    | var x =>
      obtain ⟨v, hv⟩ := Option.isSome_iff_exists.mp (hbound x (by simp [names]))
      exact ⟨v, by simp [evaluate, hv]⟩
    | num n => exact ⟨_, rfl⟩
    | sum es =>
      obtain ⟨vs, hvs⟩ : ∃ vs, evaluateAll bs es = .ok vs := evaluateAll_eq_ok operand
      exact ⟨_, by rw [evaluate, hvs]; rfl⟩
    | prod es =>
      obtain ⟨vs, hvs⟩ : ∃ vs, evaluateAll bs es = .ok vs := evaluateAll_eq_ok operand
      exact ⟨_, by rw [evaluate, hvs]; rfl⟩
    | quot a b =>
      obtain ⟨v, hv⟩ := operand a (by simp [operands])
      obtain ⟨w, hw⟩ := operand b (by simp [operands])
      exact ⟨_, by rw [evaluate, hv, hw]; rfl⟩
    | pow a b =>
      obtain ⟨v, hv⟩ := operand a (by simp [operands])
      obtain ⟨w, hw⟩ := operand b (by simp [operands])
      exact ⟨_, by rw [evaluate, hv, hw]; rfl⟩
    | app f a =>
      obtain ⟨v, hv⟩ := operand a (by simp [operands])
      exact ⟨_, by rw [evaluate, hv]; rfl⟩
    | eqn a b => cases hfree.root

/-- Named constants always have a value. -/
theorem isSome_value?_of_isName {bs : Bindings α} {x : String}
    (h : NamedConstant.isName x = true) : (bs.value? x).isSome := by
  obtain ⟨c, hc⟩ := Option.isSome_iff_exists.mp h
  simp [Bindings.value?, hc]

/-- What is bound has a value. -/
theorem isSome_value?_of_mem {bs : Bindings α} {x : String} {v : α} (h : (x, v) ∈ bs) :
    (bs.value? x).isSome := by
  rw [Bindings.value?]
  split
  · rfl
  · by_contra hnone
    rw [Option.not_isSome_iff_eq_none, List.lookup_eq_none_iff] at hnone
    simpa using hnone _ h

/-! ### The search for roots -/

namespace Roots

variable {x : String} {n : Nat} {e e' : Expr}

/-- Every variable is the unknown, a named constant or the placeholder of one of the first `n`
roots. -/
def Named (x : String) (n : Nat) (e : Expr) : Prop :=
  ∀ y ∈ e.names, NamedConstant.isName y = true ∨ y = x ∨ ∃ i < n, y = placeholder i

theorem Named.of_writtenLike (h : Named x n e') (he : e.WrittenLike e') : Named x n e :=
  fun y hy => h y (he.1 hy)

/-- Dividing by a root's factor adds the unknown and one placeholder to the names. -/
theorem names_deflate (e : Expr) (x : String) (n : Nat) :
    (deflate e x n).names = e.names ++ [x, placeholder n] := by
  simp [deflate, subtract, negate, names, namesAll]

/-- With one more placeholder allowed, dividing by a root's factor keeps the names in bounds. -/
theorem Named.deflate (h : Named x n e) : Named x (n + 1) (deflate e x n) := by
  intro y hy
  rw [names_deflate, List.mem_append] at hy
  rcases hy with hy | hy
  · obtain hname | rfl | ⟨i, hi, rfl⟩ := h y hy
    · exact .inl hname
    · exact .inr (.inl rfl)
    · exact .inr (.inr ⟨i, by omega, rfl⟩)
  · simp only [List.mem_cons, List.not_mem_nil, or_false] at hy
    rcases hy with rfl | rfl
    · exact .inr (.inl rfl)
    · exact .inr (.inr ⟨n, by omega, rfl⟩)

/-- An expression in one unknown, named constants and the placeholders of the first `n` roots. -/
def Searchable (x : String) (n : Nat) (e : Expr) : Prop :=
  e.EquationFree ∧ Named x n e

theorem Searchable.of_writtenLike (h : Searchable x n e') (he : e.WrittenLike e') :
    Searchable x n e :=
  ⟨he.2 h.1, Named.of_writtenLike h.2 he⟩

/-- Dividing by a root's factor brings in no equation. -/
theorem equationFree_deflate (h : e.EquationFree) : (deflate e x n).EquationFree := by
  have leaf (y : String) : (var y).EquationFree := .node rfl (by simp [operands])
  have hp := vocabulary_equationFree
  exact hp.everywhere_quot.mpr ⟨h, Calculus.everywhere_subtract hp (leaf x) (leaf (placeholder n))⟩

theorem Searchable.deflate (h : Searchable x n e) : Searchable x (n + 1) (deflate e x n) :=
  ⟨equationFree_deflate h.1, Named.deflate h.2⟩

omit [Arithmetic α] in
/-- Every root found so far is bound to its placeholder. -/
theorem exists_mem_placeholderBindings {roots : List α} {i : Nat} (hi : i < roots.length) :
    ∃ v, (placeholder i, v) ∈ placeholderBindings roots := by
  refine ⟨roots[i], List.mem_map.mpr ⟨(roots[i], i), ?_, rfl⟩⟩
  exact List.mk_mem_zipIdx_iff_getElem?.mpr (List.getElem?_eq_getElem hi)

/-- With a value for the unknown and one for each placeholder there is a value for every
variable. -/
theorem Searchable.evaluate_eq_ok {roots : List α} (h : Searchable x roots.length e) (v : α) :
    ∃ w, e.evaluate ((x, v) :: placeholderBindings roots) = .ok w := by
  apply Expr.evaluate_eq_ok h.1
  intro y hy
  obtain hname | rfl | ⟨i, hi, rfl⟩ := h.2 y hy
  · exact isSome_value?_of_isName hname
  · exact isSome_value?_of_mem List.mem_cons_self
  · obtain ⟨w, hw⟩ := exists_mem_placeholderBindings hi
    exact isSome_value?_of_mem (List.mem_cons_of_mem _ hw)

end Roots

/-! ### Failures -/

/-- No pass brings in a variable or an equation. -/
theorem writtenLike_pass (e : Expr) {pass : Expr → Expr} (h : pass ∈ Simplification.passes) :
    (pass e).WrittenLike e :=
  .of_everywhere fun _ hp _ => Simplification.everywhere_pass hp h

theorem writtenLike_round (e : Expr) : (Simplification.round e).WrittenLike e :=
  .of_everywhere fun _ hp _ => Simplification.everywhere_round hp

/-- A derivative brings in no variable and no equation. -/
theorem writtenLike_derivative (x : String) (e : Expr) : (Calculus.derivative x e).WrittenLike e :=
  .of_everywhere fun _ hp happ => Calculus.everywhere_derivative hp happ x

/-- Neither a simplified tree nor one at which the rounds ran out has new variables or equations. -/
theorem writtenLike_simplify {cap : Option Nat} {e e' : Expr}
    (h : Simplification.simplify cap e = .ok e' ∨ Simplification.simplify cap e = .error e') :
    e'.WrittenLike e := by
  obtain ⟨k, rfl⟩ := Simplification.converge_eq_iterate h
  exact .of_everywhere fun _ hp _ he => Simplification.everywhere_iterate_round hp he k

/-- A failure that does not come from an evaluation or from reading a formula. -/
inductive Unevaluated : Failure → Prop where
  | domain (err : DomainError) : Unevaluated (.domain err)
  | aborted : Unevaluated .aborted
  | notConverged (rounds : Nat) (reached : Expr) : Unevaluated (.notConverged rounds reached)

/-- Simplifying, differentiating and dividing keep an expression searchable, and a searchable
expression has values: only running out of rounds is left as a failure. -/
theorem Roots.invariant_searchable (x : String) :
    Roots.Invariant α x Unevaluated (Roots.Searchable x) where
  round _ e h := h.of_writtenLike (writtenLike_round e)
  derivative _ e h := h.of_writtenLike (writtenLike_derivative x e)
  deflate _ _ h := h.deflate
  notConverged _ e allowed _ := .notConverged allowed e
  evaluate roots v e err h herr := by
    obtain ⟨w, hw⟩ := h.evaluate_eq_ok v
    rw [hw] at herr
    cases herr

/-- Whether a job is asked to stop or not, this is how it can fail. -/
theorem Job.unevaluated_of_heeds {β : Type} {job : Job β} {post : β → Prop} (hheeds : job.Heeds)
    (hensures : job.Ensures post Unevaluated) {pending : Bool} {f : Failure}
    (h : (job.run pending).1 = .error f) : Unevaluated f := by
  cases pending with
  | true =>
    rw [hheeds] at h
    cases h
    exact .aborted
  | false =>
    obtain ⟨a, hrun, -⟩ | ⟨f', hrun, hf'⟩ := hensures
    · rw [hrun] at h
      cases h
    · rw [hrun] at h
      cases h
      exact hf'

/-- With one unknown, every name is this unknown or a named constant. -/
theorem names_of_unknowns {e : Expr} {x : String} (hx : e.unknowns = [x]) :
    ∀ y ∈ e.names, NamedConstant.isName y = true ∨ y = x := by
  intro y hy
  cases hname : NamedConstant.isName y with
  | true => exact .inl rfl
  | false =>
    have hmem : y ∈ e.unknowns := mem_unknowns.mpr ⟨hy, hname⟩
    rw [hx, List.mem_singleton] at hmem
    exact .inr hmem

/-- Solving an equation of two sides without equations never fails for want of a value. -/
theorem Roots.unevaluated_solve {e : Expr} (hfree : ∀ e' ∈ e.operands, e'.EquationFree)
    (settings : NewtonSettings α) (cap : Option Nat) {pending : Bool} {f : Failure}
    (h : ((solve settings cap e).run pending).1 = .error f) : Unevaluated f := by
  by_cases hsolvable : Solvable e
  · cases e with
    | eqn a b =>
      obtain ⟨x, hx⟩ := hsolvable
      have hsolvable : Solvable (eqn a b) := ⟨x, hx⟩
      have hfree : (subtract a b).EquationFree :=
        Calculus.everywhere_subtract vocabulary_equationFree (hfree a (by simp [operands]))
          (hfree b (by simp [operands]))
      have hstart : Searchable x 0 (subtract a b) := by
        refine ⟨hfree, fun y hy => ?_⟩
        have hy : y ∈ (eqn a b).names := by
          simpa [subtract, negate, names, namesAll] using hy
        exact (names_of_unknowns hx y hy).imp_right .inl
      exact Job.unevaluated_of_heeds (heeds_solve hsolvable settings cap)
        (ensures_solve hx (invariant_searchable x) hstart settings cap) h
    | _ => exact hsolvable.elim
  · obtain ⟨err, hthrow⟩ := solve_eq_throw hsolvable settings cap
    rw [hthrow] at h
    cases h
    exact .domain err

/-- Integration of an expression without equations never fails for want of a value. -/
theorem Trapezoid.unevaluated_integrate {e : Expr} (hfree : ∀ e' ∈ e.operands, e'.EquationFree)
    (cap : Option Nat) (step lower upper : α) {pending : Bool} {f : Failure}
    (h : ((integrate cap step e lower upper).run pending).1 = .error f) : Unevaluated f := by
  by_cases hdomain : Integrable step e lower upper
  · obtain ⟨x, hx⟩ := hdomain.2.1
    by_cases hne : Arithmetic.eq lower upper = true
    · rw [integrate_eq hdomain hx, if_pos hne] at h
      cases h
    have hstart : Roots.Searchable x 0 e :=
      ⟨.node hdomain.1 hfree, fun y hy => (names_of_unknowns hx y hy).imp_right .inl⟩
    refine Job.unevaluated_of_heeds (heeds_integrate hdomain (by simpa using hne) cap)
      (ensures_integrate (Roots.Searchable x 0) hdomain hx ?_ ?_ ?_ hstart cap) h
    · exact fun e he => he.of_writtenLike (writtenLike_round e)
    · exact fun n e _ => .notConverged n e
    · intro v e err he herr
      have he : Roots.Searchable x ([] : List α).length e := he
      obtain ⟨w, hw⟩ := he.evaluate_eq_ok v
      rw [show e.evaluate [(x, v)] = .ok w from hw] at herr
      cases herr
  · obtain ⟨err, hthrow⟩ := integrate_eq_throw hdomain cap
    rw [hthrow] at h
    cases h
    exact .domain err

/-- Every pass, the simplifier (be it successful or not) and the derivative write with the variables
of what they are given, and without equations if that has none. As a consequence the search for
roots and the integral of an expression without equations below its root never fail to evaluate:
whatever the settings, the number system and the bounds, they fail because the expression or the
bounds are not in their domain, because they are asked to stop or because a simplification runs out
of rounds. -/
theorem numeric_failures (e : Expr) :
    (∀ pass ∈ Simplification.passes, (pass e).WrittenLike e) ∧
      (∀ cap e', Simplification.simplify cap e = .ok e' ∨
        Simplification.simplify cap e = .error e' → e'.WrittenLike e) ∧
      (∀ x, (Calculus.derivative x e).WrittenLike e) ∧
      ((∀ e' ∈ e.operands, e'.EquationFree) →
        ∀ (α : Type) [Arithmetic α] (cap : Option Nat) (pending : Bool) (f : Failure),
          (∀ settings : NewtonSettings α,
            ((Roots.solve settings cap e).run pending).1 = .error f → Unevaluated f) ∧
          (∀ step lower upper : α,
            ((Trapezoid.integrate cap step e lower upper).run pending).1 = .error f →
              Unevaluated f)) := by
  refine ⟨fun pass => writtenLike_pass e, fun cap e' => writtenLike_simplify,
    fun x => writtenLike_derivative x e, ?_⟩
  intro hfree α _ cap pending f
  constructor
  · intro settings h
    exact Roots.unevaluated_solve hfree settings cap h
  · intro step lower upper h
    exact Trapezoid.unevaluated_integrate hfree cap step lower upper h

end ComputerAlgebra
