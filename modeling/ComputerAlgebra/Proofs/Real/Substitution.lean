import ComputerAlgebra.Proofs.Numeric.Substitution
import ComputerAlgebra.Proofs.Real.Value

/-!
# Real values after substitution

The value of an expression depends on its own variables only, and to put expressions in place of
variables is to assign the values of these expressions to the variables.
-/

namespace ComputerAlgebra

namespace Expr

variable {ρ σ : String → ℝ} {e p : Expr} {g : Expr → Expr} {x : String}

/-- The value of a node that is no variable is made of the values of its operands. -/
theorem real_mapOperands (hvar : ∀ x, e ≠ .var x)
    (h : ∀ e' ∈ e.operands, (g e').real ρ = e'.real σ) : (e.mapOperands g).real ρ = e.real σ := by
  cases e with
  | var x => exact absurd rfl (hvar x)
  | num n => rw [mapOperands, real_num, real_num]
  | sum es =>
    rw [mapOperands, real_sum, real_sum, List.map_map]
    exact congrArg _ (List.map_congr_left h)
  | prod es =>
    rw [mapOperands, real_prod, real_prod, List.map_map]
    exact congrArg _ (List.map_congr_left h)
  | quot a b => simp [mapOperands, h a (by simp [operands]), h b (by simp [operands])]
  | pow a b => simp [mapOperands, h a (by simp [operands]), h b (by simp [operands])]
  | app f u => simp [mapOperands, h u (by simp [operands])]
  | eqn a b => rw [mapOperands, real, real]

/-- A node with changed operands is defined where the node is, if the operands keep their values and
are defined there too. -/
theorem defined_mapOperands (hvar : ∀ x, e ≠ .var x)
    (hreal : ∀ e' ∈ e.operands, (g e').real ρ = e'.real σ)
    (h : ∀ e' ∈ e.operands, (g e').Defined ρ ↔ e'.Defined σ) :
    (e.mapOperands g).Defined ρ ↔ e.Defined σ := by
  cases e with
  | var x => exact absurd rfl (hvar x)
  | num n => simp [mapOperands]
  | sum es =>
    rw [mapOperands, Defined.sum_iff, Defined.sum_iff, List.forall_mem_map]
    exact forall₂_congr h
  | prod es =>
    rw [mapOperands, Defined.prod_iff, Defined.prod_iff, List.forall_mem_map]
    exact forall₂_congr h
  | quot a b =>
    simp only [operands, List.forall_mem_cons] at h hreal
    simp [mapOperands, h, hreal]
  | pow a b =>
    simp only [operands, List.forall_mem_cons] at h hreal
    simp [mapOperands, h, hreal]
  | app f u =>
    simp only [operands, List.forall_mem_cons] at h hreal
    simp [mapOperands, h, hreal]
  | eqn a b => simp [mapOperands]

/-- Variables that do not occur do not matter. -/
theorem real_congr (h : ∀ x ∈ e.names, ρ x = σ x) : e.real ρ = e.real σ := by
  induction e using inner_induct with
  | var x => rw [real_var, real_var, realVar, realVar, h x (by simp [names])]
  | inner e hvar ih =>
    have hid : e.mapOperands id = e := mapOperands_eq_self fun _ _ => rfl
    have hops : ∀ e' ∈ e.operands, (id e').real ρ = e'.real σ := fun e' he' =>
      ih e' he' fun x hx => h x (mem_names.2 (.inr ⟨e', he', hx⟩))
    have hreal := real_mapOperands hvar hops
    rwa [hid] at hreal

/-- An expression in place of a variable, which is not the name of a constant, acts as its value. -/
theorem real_substitute (hx : NamedConstant.isName x = false) (e p : Expr) :
    (e.substitute [(x, p)]).real ρ = e.real (Function.update ρ x (p.real ρ)) := by
  induction e using inner_induct with
  | var y =>
    rw [substitute_var, List.lookup_cons, List.lookup_nil, real_var, realVar]
    by_cases hy : y = x
    · have hnone : NamedConstant.ofName? x = none := by simpa [NamedConstant.isName] using hx
      simp [hy, hnone]
    · rw [beq_false_of_ne hy, Function.update_of_ne hy]
      exact real_var y
  | inner e hvar ih =>
    rw [substitute_eq_mapOperands _ hvar]
    exact real_mapOperands hvar ih

/-- Replacing a variable is defined where the tree is, with the value of the point for the
variable. -/
theorem defined_substitute (hx : NamedConstant.isName x = false) (hp : p.Defined ρ) (e : Expr) :
    (e.substitute [(x, p)]).Defined ρ ↔ e.Defined (Function.update ρ x (p.real ρ)) := by
  induction e using inner_induct with
  | var y =>
    rw [substitute_var, List.lookup_cons, List.lookup_nil]
    cases y == x <;> simp [hp]
  | inner e hvar ih =>
    rw [substitute_eq_mapOperands _ hvar]
    exact defined_mapOperands hvar (fun e' _ => real_substitute hx e' p) ih

end Expr

end ComputerAlgebra
