import ComputerAlgebra.Expr.Substitution
import ComputerAlgebra.Numeric.FloatingPoint
import ComputerAlgebra.Proofs.Numeric.Offence

/-!
# Evaluation after substitution

To put expressions in place of variables and then evaluate is to evaluate with the values of these
expressions bound to the variables, and to substitute twice is to substitute once, by what the
second substitution makes of the first one (`Expr.substitute_simultaneous`).
-/

namespace ComputerAlgebra

variable {α β γ : Type}

/-- Looking up in a list with changed values is changing what is looked up. -/
theorem lookup_map (l : List (String × β)) (f : String → β → γ) (x : String) :
    (l.map fun p => (p.1, f p.1 p.2)).lookup x = (l.lookup x).map (f x) := by
  induction l with
  | nil => rfl
  | cons p l ih =>
    rw [List.map_cons, List.lookup_cons, List.lookup_cons, ih]
    cases hx : x == p.1 with
    | true =>
      rw [eq_of_beq hx]
      rfl
    | false => rfl

/-- One substitution after another one: what replaces a variable is substituted in, and other
variables are replaced as the second one has it. -/
def Substitution.andThen (σ τ : Substitution) : Substitution :=
  σ.map (fun p => (p.1, p.2.substitute τ)) ++ τ

/-- After two replacements a variable stands for what the first one puts for it, with the second one
made in it, or else for what the second one puts. -/
theorem Substitution.lookup_andThen (σ τ : Substitution) (x : String) :
    (σ.andThen τ).lookup x = ((σ.lookup x).map (·.substitute τ)).or (τ.lookup x) := by
  rw [andThen, List.lookup_append, lookup_map σ fun _ e => e.substitute τ]

/-- The bindings with a value for each variable that a substitution replaces. -/
def Bindings.update (bs : Bindings α) (σ : Substitution) (w : String → α) : Bindings α :=
  σ.map (fun p => (p.1, w p.1)) ++ bs

/-- Updated bindings give the new values to replaced variables, and the old ones to the others. -/
theorem Bindings.lookup_update (bs : Bindings α) (σ : Substitution) (w : String → α) (x : String) :
    (bs.update σ w).lookup x = ((σ.lookup x).map fun _ => w x).or (bs.lookup x) := by
  rw [update, List.lookup_append, lookup_map σ fun x _ => w x]

namespace Expr

variable {e : Expr} {σ τ : Substitution}

/-! ### One pass -/

/-- Replacing variables in a node that is none replaces them in its operands. -/
theorem substitute_eq_mapOperands (σ : Substitution) (hvar : ∀ x, e ≠ .var x) :
    e.substitute σ = e.mapOperands (substitute · σ) := by
  cases e with
  | var x => exact absurd rfl (hvar x)
  | _ => simp [mapOperands]

theorem mapOperands_ne_var {f : Expr → Expr} (hvar : ∀ x, e ≠ .var x) (x : String) :
    e.mapOperands f ≠ .var x := by
  cases e with
  | var y => exact absurd rfl (hvar y)
  | _ => exact nofun

/-- Expressions that are put in are not looked at again. -/
theorem substitute_substitute (σ τ : Substitution) (e : Expr) :
    (e.substitute σ).substitute τ = e.substitute (σ.andThen τ) := by
  induction e using inner_induct with
  | var x =>
    rw [substitute_var, substitute_var, Substitution.lookup_andThen]
    cases σ.lookup x with
    | some r => rfl
    | none => exact substitute_var τ x
  | inner e hvar ih =>
    rw [substitute_eq_mapOperands σ hvar, substitute_eq_mapOperands τ (mapOperands_ne_var hvar),
      mapOperands_mapOperands, substitute_eq_mapOperands _ hvar]
    exact mapOperands_congr ih

/-! ### Values -/

variable [Arithmetic α] {bs cs : Bindings α}

/-- If what stands for each variable has the value, or the error, of the variable under other
bindings, so has the whole expression. -/
theorem evaluate_substitute (h : ∀ x, ((var x).substitute σ).evaluate bs = (var x).evaluate cs)
    (e : Expr) : (e.substitute σ).evaluate bs = e.evaluate cs := by
  induction e using inner_induct with
  | var x => exact h x
  | inner e hvar ih =>
    rw [substitute_eq_mapOperands σ hvar]
    exact evaluate_mapOperands hvar ih

/-- A replaced variable is evaluated to the updated value. Names of constants must not be replaced,
since those have their own values whatever is bound. -/
theorem evaluate_substitute_var {w : String → α}
    (hkeys : ∀ x ∈ σ.map Prod.fst, x ∉ ["e", "pi", "π"])
    (hvalues : ∀ x r, σ.lookup x = some r → r.evaluate bs = .ok (w x)) (x : String) :
    ((var x).substitute σ).evaluate bs = (var x).evaluate (bs.update σ w) := by
  rw [substitute_var, evaluate, Bindings.value?, Bindings.lookup_update]
  cases hx : σ.lookup x with
  | none =>
    rw [Option.getD_none, evaluate, Bindings.value?]
    rfl
  | some r =>
    have hmem : x ∈ σ.map Prod.fst := by
      obtain ⟨l, l', hσ, -⟩ := List.lookup_eq_some_iff.1 hx
      rw [hσ]
      simp
    have hname : NamedConstant.ofName? x = none := by
      have hnot := hkeys x hmem
      rwa [← NamedConstant.isName_iff, NamedConstant.isName, Bool.not_eq_true,
        Option.isSome_eq_false_iff, Option.isNone_iff_eq_none] at hnot
    rw [Option.getD_some, hvalues x r hx, hname]
    rfl

/-- A substitution of variables that name no constants is made up for by binding the values of what
is put in: the value is the same, and so is the error if there is none. What is put in is put in
once: a second substitution finds it as it is. -/
theorem substitute_simultaneous (σ : Substitution) (e : Expr) :
    (∀ (α : Type) [Arithmetic α] (bs : Bindings α) (w : String → α),
      (∀ x ∈ σ.map Prod.fst, x ∉ ["e", "pi", "π"]) →
        (∀ x r, σ.lookup x = some r → r.evaluate bs = .ok (w x)) →
          (e.substitute σ).evaluate bs = e.evaluate (bs.update σ w)) ∧
      ∀ τ, (e.substitute σ).substitute τ = e.substitute (σ.andThen τ) := by
  constructor
  · intro α _ bs w hkeys hvalues
    exact evaluate_substitute (evaluate_substitute_var hkeys hvalues) e
  · intro τ
    exact substitute_substitute σ τ e

/-- Replacing `x` by `2 * x` in `x + y` evaluates with twice the value of `x`, and fails alike for
want of a value of `y`. Replacing `x` by `3` and `y` by `1` afterwards is one replacement. -/
theorem substitute_simultaneous_double :
    let σ : Substitution := [("x", .prod [2, .var "x"])]
    let w : String → Float := fun _ => Arithmetic.ofInt 1 * Arithmetic.ofInt 2 * 0.5
    ((sum [var "x", var "y"]).substitute σ).evaluate [("x", 0.5)] =
        (sum [var "x", var "y"]).evaluate (Bindings.update [("x", 0.5)] σ w) ∧
      ((var "x").substitute σ).substitute [("x", 3), ("y", 1)] =
        (var "x").substitute (σ.andThen [("x", 3), ("y", 1)]) := by
  intro σ w
  refine ⟨(substitute_simultaneous σ _).1 Float _ w (by decide) ?_,
    (substitute_simultaneous σ _).2 _⟩
  intro x r hx
  by_cases hname : x = "x"
  · subst hname
    cases hx
    rfl
  · rw [List.lookup_cons, beq_false_of_ne hname] at hx
    cases hx

end Expr

end ComputerAlgebra
