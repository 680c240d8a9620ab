import ComputerAlgebra.Expr.Basic
import ComputerAlgebra.NamedConstant
import Mathlib

/-!
# Real values of expressions

Expressions as partial functions on the real numbers. `Expr.Defined` says where an expression has a
value, and `Expr.real` is that value; where an expression is not defined, `Expr.real` means nothing.
An equation is never defined.

One expression refines another if it is defined wherever the other one is, with the same value
(`Expr.Refines`).
-/

namespace ComputerAlgebra

/-- The real number that a named constant stands for. -/
noncomputable def NamedConstant.real : NamedConstant → ℝ
  | pi => Real.pi
  | e => Real.exp 1

namespace Func

/-- Where a function has a value. -/
def Domain : Func → ℝ → Prop
  | tan, x => Real.cos x ≠ 0
  | asin, x => -1 ≤ x ∧ x ≤ 1
  | acos, x => -1 ≤ x ∧ x ≤ 1
  | ln, x => 0 < x
  | sqrt, x => 0 ≤ x
  | _, _ => True

/-- The value of a function on its domain. -/
noncomputable def real : Func → ℝ → ℝ
  | sin => Real.sin
  | cos => Real.cos
  | tan => Real.tan
  | asin => Real.arcsin
  | acos => Real.arccos
  | atan => Real.arctan
  | ln => Real.log
  | abs => fun x => |x|
  | sqrt => Real.sqrt

end Func

/-- Where a power has a value: at a positive base, at the base `0` under an exponent that is not
negative, and at a negative base under an integer. -/
def PowerDomain (b x : ℝ) : Prop := 0 < b ∨ b = 0 ∧ 0 ≤ x ∨ b < 0 ∧ ∃ k : ℤ, x = k

namespace Expr

/-- The value of a variable: named constants have fixed values, and the assignment gives the
others. -/
noncomputable def realVar (ρ : String → ℝ) (x : String) : ℝ :=
  (NamedConstant.ofName? x).elim (ρ x) NamedConstant.real

mutual

/-- The value of an expression under an assignment of real numbers to its variables. -/
noncomputable def real (ρ : String → ℝ) : Expr → ℝ
  | .var x => realVar ρ x
  | .num n => n.toInt
  | .sum es => (realAll ρ es).sum
  | .prod es => (realAll ρ es).prod
  | .quot a b => real ρ a / real ρ b
  | .pow a b => real ρ a ^ real ρ b
  | .app f a => f.real (real ρ a)
  | .eqn _ _ => 0

/-- The values of several expressions. -/
noncomputable def realAll (ρ : String → ℝ) : List Expr → List ℝ
  | [] => []
  | e :: es => real ρ e :: realAll ρ es

end

/-- The expression has a value under the assignment. -/
inductive Defined (ρ : String → ℝ) : Expr → Prop where
  | var (x : String) : Defined ρ (.var x)
  | num (n : Int64) : Defined ρ (.num n)
  | sum {es : List Expr} (h : ∀ e ∈ es, Defined ρ e) : Defined ρ (.sum es)
  | prod {es : List Expr} (h : ∀ e ∈ es, Defined ρ e) : Defined ρ (.prod es)
  | quot {a b : Expr} (ha : Defined ρ a) (hb : Defined ρ b) (h : b.real ρ ≠ 0) :
      Defined ρ (.quot a b)
  | pow {a b : Expr} (ha : Defined ρ a) (hb : Defined ρ b)
      (h : PowerDomain (a.real ρ) (b.real ρ)) : Defined ρ (.pow a b)
  | app {f : Func} {a : Expr} (ha : Defined ρ a) (h : f.Domain (a.real ρ)) : Defined ρ (.app f a)

variable {ρ : String → ℝ} {a b e : Expr} {es es' : List Expr}

theorem realAll_eq_map (ρ : String → ℝ) (es : List Expr) : realAll ρ es = es.map (real ρ) := by
  induction es with
  | nil => rfl
  | cons e es ih => simp [realAll, ih]

@[simp] theorem real_var (x : String) : (var x).real ρ = realVar ρ x := (rfl)

@[simp] theorem real_num (n : Int64) : (num n).real ρ = n.toInt := (rfl)

@[simp] theorem real_zero : (0 : Expr).real ρ = 0 := by
  change (num 0).real ρ = 0
  simp

@[simp] theorem real_one : (1 : Expr).real ρ = 1 := by
  change (num 1).real ρ = 1
  simp [Int64.toInt_one]

@[simp] theorem real_sum (es : List Expr) : (sum es).real ρ = (es.map (real ρ)).sum :=
  congrArg List.sum (realAll_eq_map ρ es)

@[simp] theorem real_prod (es : List Expr) : (prod es).real ρ = (es.map (real ρ)).prod :=
  congrArg List.prod (realAll_eq_map ρ es)

@[simp] theorem real_quot (a b : Expr) : (quot a b).real ρ = a.real ρ / b.real ρ := (rfl)

@[simp] theorem real_pow (a b : Expr) : (pow a b).real ρ = a.real ρ ^ b.real ρ := (rfl)

@[simp] theorem real_app (f : Func) (a : Expr) : (app f a).real ρ = f.real (a.real ρ) := (rfl)

@[simp] theorem real_sumOf (es : List Expr) : (sumOf es).real ρ = (es.map (real ρ)).sum := by
  match es with
  | [] | [_] | _ :: _ :: _ => simp [sumOf]

/-- The product of no factors is written `0`, so only products of some factors have their value. -/
theorem real_prodOf (h : es ≠ []) : (prodOf es).real ρ = (es.map (real ρ)).prod := by
  match es, h with
  | [_], _ | _ :: _ :: _, _ => simp [prodOf]

namespace Defined

@[simp] theorem var_iff {x : String} : Defined ρ (.var x) ↔ True := iff_true_intro (.var x)

@[simp] theorem num_iff {n : Int64} : Defined ρ (.num n) ↔ True := iff_true_intro (.num n)

@[simp] theorem zero : Defined ρ 0 := .num 0

@[simp] theorem one : Defined ρ 1 := .num 1

@[simp] theorem sum_iff : Defined ρ (.sum es) ↔ ∀ e ∈ es, Defined ρ e :=
  ⟨fun | .sum h => h, .sum⟩

@[simp] theorem prod_iff : Defined ρ (.prod es) ↔ ∀ e ∈ es, Defined ρ e :=
  ⟨fun | .prod h => h, .prod⟩

@[simp] theorem quot_iff :
    Defined ρ (.quot a b) ↔ Defined ρ a ∧ Defined ρ b ∧ b.real ρ ≠ 0 :=
  ⟨fun | .quot ha hb h => ⟨ha, hb, h⟩, fun ⟨ha, hb, h⟩ => .quot ha hb h⟩

@[simp] theorem pow_iff :
    Defined ρ (.pow a b) ↔ Defined ρ a ∧ Defined ρ b ∧ PowerDomain (a.real ρ) (b.real ρ) :=
  ⟨fun | .pow ha hb h => ⟨ha, hb, h⟩, fun ⟨ha, hb, h⟩ => .pow ha hb h⟩

@[simp] theorem app_iff {f : Func} :
    Defined ρ (.app f a) ↔ Defined ρ a ∧ f.Domain (a.real ρ) :=
  ⟨fun | .app ha h => ⟨ha, h⟩, fun ⟨ha, h⟩ => .app ha h⟩

@[simp] theorem not_eqn : ¬Defined ρ (.eqn a b) := nofun

@[simp] theorem sumOf_iff : Defined ρ (.sumOf es) ↔ ∀ e ∈ es, Defined ρ e := by
  match es with
  | [] | [_] | _ :: _ :: _ => simp [sumOf]

@[simp] theorem prodOf_iff : Defined ρ (.prodOf es) ↔ ∀ e ∈ es, Defined ρ e := by
  match es with
  | [] | [_] | _ :: _ :: _ => simp [prodOf]

end Defined

/-! ### Refinement -/

/-- Wherever the first expression has a value, the second one has the same value. -/
def Refines (e e' : Expr) : Prop := ∀ ρ, e.Defined ρ → e'.Defined ρ ∧ e'.real ρ = e.real ρ

namespace Refines

theorem refl (e : Expr) : Refines e e := fun _ h => ⟨h, rfl⟩

theorem trans {e e' e'' : Expr} (h : Refines e e') (h' : Refines e' e'') : Refines e e'' := by
  intro ρ hdef
  obtain ⟨hdef', heq'⟩ := h ρ hdef
  obtain ⟨hdef'', heq''⟩ := h' ρ hdef'
  exact ⟨hdef'', heq''.trans heq'⟩

theorem quot {a' b' : Expr} (ha : Refines a a') (hb : Refines b b') :
    Refines (.quot a b) (.quot a' b') := by
  intro ρ hdef
  obtain ⟨hda, hdb, h⟩ := Defined.quot_iff.1 hdef
  obtain ⟨hda', hra⟩ := ha ρ hda
  obtain ⟨hdb', hrb⟩ := hb ρ hdb
  exact ⟨.quot hda' hdb' (by rwa [hrb]), by simp [hra, hrb]⟩

theorem pow {a' b' : Expr} (ha : Refines a a') (hb : Refines b b') :
    Refines (.pow a b) (.pow a' b') := by
  intro ρ hdef
  obtain ⟨hda, hdb, h⟩ := Defined.pow_iff.1 hdef
  obtain ⟨hda', hra⟩ := ha ρ hda
  obtain ⟨hdb', hrb⟩ := hb ρ hdb
  exact ⟨.pow hda' hdb' (by rwa [hra, hrb]), by simp [hra, hrb]⟩

theorem app {f : Func} {a' : Expr} (ha : Refines a a') : Refines (.app f a) (.app f a') := by
  intro ρ hdef
  obtain ⟨hda, h⟩ := Defined.app_iff.1 hdef
  obtain ⟨hda', hra⟩ := ha ρ hda
  exact ⟨.app hda' (by rwa [hra]), by simp [hra]⟩

/-- Everything refines an equation, which has no value to keep. -/
theorem eqn (a b e : Expr) : Refines (.eqn a b) e := fun _ h => absurd h Defined.not_eqn

end Refines

end Expr

end ComputerAlgebra
