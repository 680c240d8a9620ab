import ComputerAlgebra.Expr.BottomUp
import ComputerAlgebra.Proofs.Exact.Numbers
import ComputerAlgebra.Proofs.Expr.Arity

/-!
# Values in exact arithmetic

Expressions as partial functions on an ordered field with exact powers and functions. `Defined` says
where an expression has a value, and `value` is that value; where an expression is not defined,
`value` means nothing. An equation is never defined.

One expression refines another if it is defined wherever the other one is, with the same value
(`Refines`). A rule that refines single nodes refines whole trees (`Refines.bottomUp`).
-/

namespace ComputerAlgebra

namespace Exact

open ComputerAlgebra.Expr

variable {K : Type} [Field K] [LinearOrder K] [ExactNumbers K]

/-- The value of a variable: named constants have fixed values, and the assignment gives the
others. -/
def varValue (ρ : String → K) (x : String) : K :=
  (NamedConstant.ofName? x).elim (ρ x) ExactNumbers.constant

mutual

/-- The value of an expression under an assignment of numbers to its variables. -/
def value (ρ : String → K) : Expr → K
  | .var x => varValue ρ x
  | .num n => n.toInt
  | .sum es => (valueAll ρ es).sum
  | .prod es => (valueAll ρ es).prod
  | .quot a b => value ρ a / value ρ b
  | .pow a b => ExactNumbers.power (value ρ a) (value ρ b)
  | .app f a => ExactNumbers.apply f (value ρ a)
  | .eqn _ _ => 0

/-- The values of several expressions. -/
def valueAll (ρ : String → K) : List Expr → List K
  | [] => []
  | e :: es => value ρ e :: valueAll ρ es

end

/-- The expression has a value under the assignment. -/
inductive Defined (ρ : String → K) : Expr → Prop where
  | var (x : String) : Defined ρ (.var x)
  | num (n : Int64) : Defined ρ (.num n)
  | sum {es : List Expr} (h : ∀ e ∈ es, Defined ρ e) : Defined ρ (.sum es)
  | prod {es : List Expr} (h : ∀ e ∈ es, Defined ρ e) : Defined ρ (.prod es)
  | quot {a b : Expr} (ha : Defined ρ a) (hb : Defined ρ b) (h : value ρ b ≠ 0) :
      Defined ρ (.quot a b)
  | pow {a b : Expr} (ha : Defined ρ a) (hb : Defined ρ b)
      (h : ExactNumbers.PowerDomain (value ρ a) (value ρ b)) : Defined ρ (.pow a b)
  | app {f : Func} {a : Expr} (ha : Defined ρ a) (h : ExactNumbers.Domain f (value ρ a)) :
      Defined ρ (.app f a)

variable {ρ : String → K} {a b e : Expr} {es es' : List Expr}

theorem valueAll_eq_map (ρ : String → K) (es : List Expr) : valueAll ρ es = es.map (value ρ) := by
  induction es with
  | nil => rfl
  | cons e es ih => simp [valueAll, ih]

@[simp] theorem value_var (x : String) : value ρ (var x) = varValue ρ x := (rfl)

@[simp] theorem value_num (n : Int64) : value ρ (num n) = n.toInt := (rfl)

@[simp] theorem value_zero : value ρ (0 : Expr) = 0 := by
  change value ρ (num 0) = 0
  simp

@[simp] theorem value_one : value ρ (1 : Expr) = 1 := by
  change value ρ (num 1) = 1
  simp [Int64.toInt_one]

@[simp] theorem value_sum (es : List Expr) : value ρ (sum es) = (es.map (value ρ)).sum :=
  congrArg List.sum (valueAll_eq_map ρ es)

@[simp] theorem value_prod (es : List Expr) : value ρ (prod es) = (es.map (value ρ)).prod :=
  congrArg List.prod (valueAll_eq_map ρ es)

@[simp] theorem value_quot (a b : Expr) : value ρ (quot a b) = value ρ a / value ρ b := (rfl)

@[simp] theorem value_pow (a b : Expr) :
    value ρ (pow a b) = ExactNumbers.power (value ρ a) (value ρ b) := (rfl)

@[simp] theorem value_app (f : Func) (a : Expr) :
    value ρ (app f a) = ExactNumbers.apply f (value ρ a) := (rfl)

@[simp] theorem value_sumOf (es : List Expr) : value ρ (sumOf es) = (es.map (value ρ)).sum := by
  match es with
  | [] | [_] | _ :: _ :: _ => simp [sumOf]

/-- The product of no factors is written `0`, so only products of some factors have their value. -/
theorem value_prodOf (h : es ≠ []) : value ρ (prodOf es) = (es.map (value ρ)).prod := by
  match es, h with
  | [_], _ | _ :: _ :: _, _ => simp [prodOf]

@[simp] theorem value_subtract (a b : Expr) :
    value ρ (subtract a b) = value ρ a - value ρ b := by
  simp [subtract, negate, sub_eq_add_neg]

namespace Defined

@[simp] theorem var_iff {x : String} : Defined ρ (.var x) ↔ True := iff_true_intro (.var x)

@[simp] theorem num_iff {n : Int64} : Defined ρ (.num n) ↔ True := iff_true_intro (.num n)

@[simp] theorem zero : Defined ρ 0 := .num 0

@[simp] theorem one : Defined ρ 1 := .num 1

/-- A sum is defined where all its addends are, and conversely. -/
@[simp] theorem sum_iff : Defined ρ (.sum es) ↔ ∀ e ∈ es, Defined ρ e :=
  ⟨fun | .sum h => h, .sum⟩

@[simp] theorem prod_iff : Defined ρ (.prod es) ↔ ∀ e ∈ es, Defined ρ e :=
  ⟨fun | .prod h => h, .prod⟩

/-- A quotient is defined where both of its parts are and the denominator is not `0`. -/
@[simp] theorem quot_iff :
    Defined ρ (.quot a b) ↔ Defined ρ a ∧ Defined ρ b ∧ value ρ b ≠ 0 :=
  ⟨fun | .quot ha hb h => ⟨ha, hb, h⟩, fun ⟨ha, hb, h⟩ => .quot ha hb h⟩

@[simp] theorem pow_iff : Defined ρ (.pow a b) ↔
    Defined ρ a ∧ Defined ρ b ∧ ExactNumbers.PowerDomain (value ρ a) (value ρ b) :=
  ⟨fun | .pow ha hb h => ⟨ha, hb, h⟩, fun ⟨ha, hb, h⟩ => .pow ha hb h⟩

@[simp] theorem app_iff {f : Func} :
    Defined ρ (.app f a) ↔ Defined ρ a ∧ ExactNumbers.Domain f (value ρ a) :=
  ⟨fun | .app ha h => ⟨ha, h⟩, fun ⟨ha, h⟩ => .app ha h⟩

/-- An equation has no value. -/
@[simp] theorem not_eqn : ¬Defined ρ (.eqn a b) := nofun

@[simp] theorem sumOf_iff : Defined ρ (.sumOf es) ↔ ∀ e ∈ es, Defined ρ e := by
  match es with
  | [] | [_] | _ :: _ :: _ => simp [sumOf]

@[simp] theorem prodOf_iff : Defined ρ (.prodOf es) ↔ ∀ e ∈ es, Defined ρ e := by
  match es with
  | [] | [_] | _ :: _ :: _ => simp [prodOf]

@[simp] theorem subtract_iff : Defined ρ (subtract a b) ↔ Defined ρ a ∧ Defined ρ b := by
  simp [subtract, negate]

end Defined

/-! ### Refinement -/

variable (K) in
/-- Wherever the first expression has a value, the second one has the same value. -/
def Refines (e e' : Expr) : Prop :=
  ∀ ρ : String → K, Defined ρ e → Defined ρ e' ∧ value ρ e' = value ρ e

namespace Refines

theorem refl (e : Expr) : Refines K e e := fun _ h => ⟨h, rfl⟩

theorem trans {e e' e'' : Expr} (h : Refines K e e') (h' : Refines K e' e'') :
    Refines K e e'' := by
  intro ρ hdef
  obtain ⟨hdef', heq'⟩ := h ρ hdef
  obtain ⟨hdef'', heq''⟩ := h' ρ hdef'
  exact ⟨hdef'', heq''.trans heq'⟩

/-- Refined operands have the same values, one by one. -/
theorem map_eq {f : Expr → Expr} (h : ∀ e ∈ es, Refines K e (f e)) (hdef : ∀ e ∈ es, Defined ρ e) :
    (∀ e ∈ es.map f, Defined ρ e) ∧ (es.map f).map (value ρ) = es.map (value ρ) := by
  refine ⟨List.forall_mem_map.2 fun e he => (h e he ρ (hdef e he)).1, ?_⟩
  rw [List.map_map]
  exact List.map_congr_left fun e he => (h e he ρ (hdef e he)).2

theorem sum {f : Expr → Expr} (h : ∀ e ∈ es, Refines K e (f e)) :
    Refines K (.sum es) (.sum (es.map f)) := by
  intro ρ hdef
  obtain ⟨hdef', heq⟩ := map_eq h (Defined.sum_iff.1 hdef)
  exact ⟨.sum hdef', by rw [value_sum, value_sum, heq]⟩

theorem prod {f : Expr → Expr} (h : ∀ e ∈ es, Refines K e (f e)) :
    Refines K (.prod es) (.prod (es.map f)) := by
  intro ρ hdef
  obtain ⟨hdef', heq⟩ := map_eq h (Defined.prod_iff.1 hdef)
  exact ⟨.prod hdef', by rw [value_prod, value_prod, heq]⟩

/-- A quotient is refined by refining its parts; the denominator keeps its value, so it stays other
than `0`. -/
theorem quot {a' b' : Expr} (ha : Refines K a a') (hb : Refines K b b') :
    Refines K (.quot a b) (.quot a' b') := by
  intro ρ hdef
  obtain ⟨hda, hdb, h⟩ := Defined.quot_iff.1 hdef
  obtain ⟨hda', hra⟩ := ha ρ hda
  obtain ⟨hdb', hrb⟩ := hb ρ hdb
  exact ⟨.quot hda' hdb' (by rwa [hrb]), by simp [hra, hrb]⟩

theorem pow {a' b' : Expr} (ha : Refines K a a') (hb : Refines K b b') :
    Refines K (.pow a b) (.pow a' b') := by
  intro ρ hdef
  obtain ⟨hda, hdb, h⟩ := Defined.pow_iff.1 hdef
  obtain ⟨hda', hra⟩ := ha ρ hda
  obtain ⟨hdb', hrb⟩ := hb ρ hdb
  exact ⟨.pow hda' hdb' (by rwa [hra, hrb]), by simp [hra, hrb]⟩

theorem app {f : Func} {a' : Expr} (ha : Refines K a a') : Refines K (.app f a) (.app f a') := by
  intro ρ hdef
  obtain ⟨hda, h⟩ := Defined.app_iff.1 hdef
  obtain ⟨hda', hra⟩ := ha ρ hda
  exact ⟨.app hda' (by rwa [hra]), by simp [hra]⟩

/-- Everything refines an equation, which has no value to keep. -/
theorem eqn (a b e : Expr) : Refines K (.eqn a b) e := fun _ h => absurd h Defined.not_eqn

/-- A rule that refines nodes, and keeps them well formed, refines trees. -/
theorem bottomUp {rule : Expr → Expr} (hwf : ∀ e, e.WellFormed → (rule e).WellFormed)
    (hrule : ∀ e, e.WellFormed → Refines K e (rule e)) (h : e.WellFormed) :
    Refines K e (e.bottomUp rule) := by
  induction h with
  | var x => simpa using hrule _ (.var x)
  | num n => simpa using hrule _ (.num n)
  | sum hlen h ih =>
    have hwf' := List.forall_mem_map.2 fun e he => (h e he).bottomUp hwf
    rw [bottomUp_sum]
    exact (sum ih).trans (hrule _ (.sum (by simpa using hlen) hwf'))
  | prod hlen h ih =>
    have hwf' := List.forall_mem_map.2 fun e he => (h e he).bottomUp hwf
    rw [bottomUp_prod]
    exact (prod ih).trans (hrule _ (.prod (by simpa using hlen) hwf'))
  | quot ha hb iha ihb =>
    rw [bottomUp_quot]
    exact (quot iha ihb).trans (hrule _ (.quot (ha.bottomUp hwf) (hb.bottomUp hwf)))
  | pow ha hb iha ihb =>
    rw [bottomUp_pow]
    exact (pow iha ihb).trans (hrule _ (.pow (ha.bottomUp hwf) (hb.bottomUp hwf)))
  | app f ha iha =>
    rw [bottomUp_app]
    exact (app iha).trans (hrule _ (.app f (ha.bottomUp hwf)))
  | eqn ha hb iha ihb => exact eqn _ _ _

end Refines

end Exact

end ComputerAlgebra
