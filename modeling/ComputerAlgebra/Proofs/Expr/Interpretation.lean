import ComputerAlgebra.Parsing.Formula
import ComputerAlgebra.Proofs.Expr.Operands
import ComputerAlgebra.Proofs.Integer.Exact

/-!
# Values in commutative rings

An interpretation evaluates sums and products in a commutative ring, and reads quotients, powers and
functions as any functions of the values of their operands. Expressions are equivalent if they have
the same value under all interpretations in all commutative rings (`Expr.Equivalent`).

The least 64-bit integer is the only one without a negative. Where a sum or a product is regrouped,
or a sign is taken out of it, the value stays and no least integer comes or goes
(`Expr.Interchangeable`).
-/

namespace ComputerAlgebra

universe u

/-- What the parts of an expression mean that a commutative ring does not fix. -/
structure Interpretation (R : Type u) where
  var : String → R
  quot : R → R → R
  pow : R → R → R
  app : Func → R → R

namespace Interpretation

variable {R : Type u} [CommRing R] (I : Interpretation R)

mutual

/-- The value of an expression. An equation has none of its own, and counts as `0`. -/
def value : Expr → R
  | .var x => I.var x
  | .num n => (n.toInt : R)
  | .sum es => (valueAll es).sum
  | .prod es => (valueAll es).prod
  | .quot a b => I.quot (value a) (value b)
  | .pow a b => I.pow (value a) (value b)
  | .app f a => I.app f (value a)
  | .eqn _ _ => 0

/-- The values of several expressions. -/
def valueAll : List Expr → List R
  | [] => []
  | e :: es => value e :: valueAll es

end

theorem valueAll_eq_map (es : List Expr) : I.valueAll es = es.map I.value := by
  induction es with
  | nil => rfl
  | cons e es ih => simp [valueAll, ih]

@[simp] theorem value_num (n : Int64) : I.value (.num n) = (n.toInt : R) := (rfl)

@[simp] theorem value_sum (es : List Expr) : I.value (.sum es) = (es.map I.value).sum :=
  congrArg List.sum (I.valueAll_eq_map es)

@[simp] theorem value_prod (es : List Expr) : I.value (.prod es) = (es.map I.value).prod :=
  congrArg List.prod (I.valueAll_eq_map es)

@[simp] theorem value_quot (a b : Expr) : I.value (.quot a b) = I.quot (I.value a) (I.value b) :=
  (rfl)

@[simp] theorem value_pow (a b : Expr) : I.value (.pow a b) = I.pow (I.value a) (I.value b) :=
  (rfl)

@[simp] theorem value_app (f : Func) (a : Expr) : I.value (.app f a) = I.app f (I.value a) := (rfl)

@[simp] theorem value_negate (e : Expr) : I.value (.negate e) = -I.value e := by
  simp [Expr.negate]

end Interpretation

namespace Expr

/-! ### Equivalence -/

/-- Two expressions have the same value under every interpretation in a commutative ring. -/
def Equivalent (e e' : Expr) : Prop :=
  ∀ (R : Type u) [CommRing R] (I : Interpretation R), I.value e = I.value e'

variable {a a' b b' c e e' e'' : Expr} {es : List Expr} {m n : Int64} {op : Operator}

namespace Equivalent

theorem refl (e : Expr) : Equivalent.{u} e e := fun _ _ _ => rfl

theorem symm (h : Equivalent.{u} e e') : Equivalent.{u} e' e := fun R _ I => (h R I).symm

theorem trans (h : Equivalent.{u} e e') (h' : Equivalent.{u} e' e'') : Equivalent.{u} e e'' :=
  fun R _ I => (h R I).trans (h' R I)

/-- Functions of equivalent arguments are equivalent. -/
theorem app (f : Func) (h : Equivalent.{u} a a') : Equivalent.{u} (.app f a) (.app f a') :=
  fun R _ I => by simp [h R I]

theorem negate (h : Equivalent.{u} a a') : Equivalent.{u} (.negate a) (.negate a') :=
  fun R _ I => by simp [h R I]

/-- Operators make equivalent trees of equivalent operands. -/
theorem combine (ha : Equivalent.{u} a a') (hb : Equivalent.{u} b b') :
    Equivalent.{u} (Parsing.combine op a b) (Parsing.combine op a' b') := by
  intro R _ I
  cases op <;> simp [Parsing.combine, subtract, ha R I, hb R I]

end Equivalent

/-! ### The least integer -/

/-- The least integer does not occur. -/
def OmitsLeast (e : Expr) : Prop := Everywhere (· ≠ .num Int64.minValue) e

namespace OmitsLeast

@[simp] theorem var_iff {x : String} : OmitsLeast (.var x) ↔ True := by
  simp [OmitsLeast, everywhere_iff (e := .var x), operands]

@[simp] theorem num_iff : OmitsLeast (.num n) ↔ n ≠ Int64.minValue := by
  simp [OmitsLeast, everywhere_iff (e := .num n), operands]

@[simp] theorem sum_iff : OmitsLeast (.sum es) ↔ ∀ e ∈ es, e.OmitsLeast := by
  simp [OmitsLeast, everywhere_iff (e := .sum es), operands]

@[simp] theorem prod_iff : OmitsLeast (.prod es) ↔ ∀ e ∈ es, e.OmitsLeast := by
  simp [OmitsLeast, everywhere_iff (e := .prod es), operands]

@[simp] theorem quot_iff : OmitsLeast (.quot a b) ↔ a.OmitsLeast ∧ b.OmitsLeast := by
  simp [OmitsLeast, everywhere_iff (e := .quot a b), operands]

@[simp] theorem pow_iff : OmitsLeast (.pow a b) ↔ a.OmitsLeast ∧ b.OmitsLeast := by
  simp [OmitsLeast, everywhere_iff (e := .pow a b), operands]

@[simp] theorem app_iff {f : Func} : OmitsLeast (.app f a) ↔ a.OmitsLeast := by
  simp [OmitsLeast, everywhere_iff (e := .app f a), operands]

@[simp] theorem eqn_iff : OmitsLeast (.eqn a b) ↔ a.OmitsLeast ∧ b.OmitsLeast := by
  simp [OmitsLeast, everywhere_iff (e := .eqn a b), operands]

@[simp] theorem negate_iff : OmitsLeast (.negate a) ↔ a.OmitsLeast := by
  have h : (-1 : Int64) ≠ Int64.minValue := by decide
  simp [Expr.negate, h]

/-- The tree of an operator has exactly the integers of its operands. -/
@[simp] theorem combine_iff :
    OmitsLeast (Parsing.combine op a b) ↔ a.OmitsLeast ∧ b.OmitsLeast := by
  cases op <;> simp [Parsing.combine, subtract]

end OmitsLeast

/-! ### Regrouping -/

/-- One expression may stand for the other: they are equivalent, and the least integer occurs in
both or in none. -/
structure Interchangeable (e e' : Expr) : Prop where
  equivalent : Equivalent.{u} e e'
  omitsLeast_iff : e.OmitsLeast ↔ e'.OmitsLeast

namespace Interchangeable

theorem symm (h : Interchangeable.{u} e e') : Interchangeable.{u} e' e :=
  ⟨h.equivalent.symm, h.omitsLeast_iff.symm⟩

theorem sum_singleton (e : Expr) : Interchangeable.{u} (.sum [e]) e :=
  ⟨fun _ _ _ => by simp, by simp⟩

theorem prod_singleton (e : Expr) : Interchangeable.{u} (.prod [e]) e :=
  ⟨fun _ _ _ => by simp, by simp⟩

/-- The inner sum of two addends can be written out. -/
theorem sum_sum (a b : Expr) (es : List Expr) :
    Interchangeable.{u} (.sum (.sum [a, b] :: es)) (.sum (a :: b :: es)) :=
  ⟨fun _ _ _ => by simp [add_assoc], by simp [and_assoc]⟩

/-- The inner product of two factors can be written out. -/
theorem prod_prod (a b : Expr) (es : List Expr) :
    Interchangeable.{u} (.prod (.prod [a, b] :: es)) (.prod (a :: b :: es)) :=
  ⟨fun _ _ _ => by simp [mul_assoc], by simp [and_assoc]⟩

theorem sum_pair (a : Expr) (h : Interchangeable.{u} b b') :
    Interchangeable.{u} (.sum [a, b]) (.sum [a, b']) :=
  ⟨fun R _ I => by simp [h.equivalent R I], by simp [h.omitsLeast_iff]⟩

/-! ### Signs -/

/-- The opposite of a number is the number of opposite sign, unless this does not fit into 64
bits. -/
theorem negate_num (h : n.neg? = some m) : Interchangeable.{u} (.negate (.num m)) (.num n) := by
  have hleast := Int64.ne_minValue_of_neg? h
  rw [Int64.neg?_eq_some_iff] at h
  exact ⟨fun R _ I => by simp [h], by simp [hleast]⟩

/-- A sign in front of a product can be written into its coefficient. -/
theorem negate_prod (h : n.neg? = some m) (es : List Expr) :
    Interchangeable.{u} (.negate (.prod (.num m :: es))) (.prod (.num n :: es)) := by
  have hnum := negate_num.{u} h
  constructor
  · intro R _ I
    have hvalue := hnum.equivalent R I
    simp only [Interpretation.value_negate] at hvalue
    simp [← hvalue, Interpretation.value_negate]
  · have homits := hnum.omitsLeast_iff
    simp only [OmitsLeast.negate_iff] at homits
    simp [homits, -OmitsLeast.num_iff]

/-- A sign in front of a product is a factor `-1`. -/
theorem negate_prodOf (h : es ≠ []) :
    Interchangeable.{u} (.negate (.prodOf es)) (.prod (.num (-1) :: es)) := by
  match es, h with
  | [e], _ => exact ⟨.refl _, .rfl⟩
  | e :: e' :: es, _ => exact ⟨fun R _ I => by simp [prodOf], by simp [prodOf]⟩

end Interchangeable

end Expr

end ComputerAlgebra
