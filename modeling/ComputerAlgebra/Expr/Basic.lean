import ComputerAlgebra.Func
import ComputerAlgebra.Integer.Fraction

/-!
# Expressions

Expressions are finite trees over variables and 64-bit integers, with sums and products of any
number of operands. A fraction is a quotient of two integers, a negative is a product with `-1`,
and a decimal has no form of its own: every number of the language is exact.

An equation is a node like any other, so that an operation need not ask whether it was given one;
operations that make no sense for equations refuse them at the root.
-/

namespace ComputerAlgebra

/-- Expression trees. -/
inductive Expr where
  /-- A name that stands for an unknown or for a named constant. -/
  | var (name : String)
  /-- An exact integer. -/
  | num (value : Int64)
  /-- The sum of its addends; well-formed trees have at least two. -/
  | sum (addends : List Expr)
  /-- The product of its factors; well-formed trees have at least two. -/
  | prod (factors : List Expr)
  /-- A numerator over a denominator. -/
  | quot (numerator denominator : Expr)
  /-- A base raised to an exponent. -/
  | pow (base exponent : Expr)
  /-- An elementary function of an argument. -/
  | app (f : Func) (argument : Expr)
  /-- Two sides that are said to be equal. -/
  | eqn (left right : Expr)
  deriving Inhabited

namespace Expr

/-! ### Induction and equality -/

/-- Induction on expressions, where the operands of sums and products come as a membership
hypothesis. -/
@[elab_as_elim]
theorem induct {motive : Expr → Prop} (var : ∀ name, motive (.var name))
    (num : ∀ value, motive (.num value))
    (sum : ∀ es, (∀ e ∈ es, motive e) → motive (.sum es))
    (prod : ∀ es, (∀ e ∈ es, motive e) → motive (.prod es))
    (quot : ∀ a b, motive a → motive b → motive (.quot a b))
    (pow : ∀ a b, motive a → motive b → motive (.pow a b))
    (app : ∀ f a, motive a → motive (.app f a))
    (eqn : ∀ a b, motive a → motive b → motive (.eqn a b)) (e : Expr) : motive e :=
  Expr.rec (motive_1 := motive) (motive_2 := fun es => ∀ e ∈ es, motive e)
    var num sum prod quot pow app eqn (by simp) (by simp +contextual) e

mutual

/-- Structural equality, decided. -/
def beq : Expr → Expr → Bool
  | .var x, .var y => x == y
  | .num m, .num n => m == n
  | .sum as, .sum bs => beqAll as bs
  | .prod as, .prod bs => beqAll as bs
  | .quot a b, .quot c d => beq a c && beq b d
  | .pow a b, .pow c d => beq a c && beq b d
  | .app f a, .app g b => f == g && beq a b
  | .eqn a b, .eqn c d => beq a c && beq b d
  | _, _ => false

/-- Structural equality of lists of expressions, decided. -/
def beqAll : List Expr → List Expr → Bool
  | [], [] => true
  | a :: as, b :: bs => beq a b && beqAll as bs
  | _, _ => false

end

mutual

/-- Trees that the comparison finds equal are equal. -/
theorem eq_of_beq : ∀ {a b : Expr}, beq a b = true → a = b
  | .var _, b, h => by cases b <;> simp_all [beq]
  | .num _, b, h => by cases b <;> simp_all [beq]
  | .sum as, b, h => by
    cases b <;> simp [beq] at h
    rw [eqAll_of_beqAll h]
  | .prod as, b, h => by
    cases b <;> simp [beq] at h
    rw [eqAll_of_beqAll h]
  | .quot _ _, b, h => by
    cases b <;> simp [beq] at h
    rw [eq_of_beq h.1, eq_of_beq h.2]
  | .pow _ _, b, h => by
    cases b <;> simp [beq] at h
    rw [eq_of_beq h.1, eq_of_beq h.2]
  | .app _ _, b, h => by
    cases b <;> simp [beq] at h
    rw [h.1, eq_of_beq h.2]
  | .eqn _ _, b, h => by
    cases b <;> simp [beq] at h
    rw [eq_of_beq h.1, eq_of_beq h.2]

/-- Lists of trees that the comparison finds equal are equal. -/
theorem eqAll_of_beqAll : ∀ {as bs : List Expr}, beqAll as bs = true → as = bs
  | [], bs, h => by cases bs <;> simp_all [beqAll]
  | _ :: _, [], h => by simp [beqAll] at h
  | _ :: _, _ :: _, h => by
    simp only [beqAll, Bool.and_eq_true] at h
    rw [eq_of_beq h.1, eqAll_of_beqAll h.2]

end

theorem beqAll_self : ∀ {as : List Expr}, (∀ a ∈ as, beq a a = true) → beqAll as as = true
  | [], _ => rfl
  | a :: as, h => by
    have hs : beqAll as as = true := beqAll_self fun b hb => h b (List.mem_cons_of_mem a hb)
    simp [beqAll, h a List.mem_cons_self, hs]

/-- The comparison finds every tree equal to itself. -/
theorem beq_self (e : Expr) : beq e e = true := by
  induction e using induct with
  | sum es ih => simpa [beq] using beqAll_self ih
  | prod es ih => simpa [beq] using beqAll_self ih
  | _ => simp_all [beq]

instance : DecidableEq Expr := fun a b =>
  if h : beq a b = true then isTrue (eq_of_beq h)
  else isFalse fun hab => h (hab ▸ beq_self a)

/-! ### Numbers and variables -/

instance (n : Nat) : OfNat Expr n := ⟨.num (OfNat.ofNat n)⟩

/-- The integer that a number leaf holds. -/
def num? : Expr → Option Int64
  | .num value => some value
  | _ => none

/-- The name that a variable leaf holds. -/
def var? : Expr → Option String
  | .var name => some name
  | _ => none

/-- The fraction that an integer or a quotient of two integers writes, as it stands. -/
def fraction? : Expr → Option Fraction
  | .num value => some ⟨value, 1⟩
  | .quot (.num n) (.num d) => some ⟨n, d⟩
  | _ => none

/-- Is the root an equation? -/
def isEquation : Expr → Bool
  | .eqn _ _ => true
  | _ => false

/-! ### Derived forms -/

/-- The sum of any number of addends: none is `0`, and a single one stands for itself. -/
def sumOf : List Expr → Expr
  | [] => 0
  | [e] => e
  | es => .sum es

/-- The product of any number of factors: none is written `0`, as for a sum, and a single one stands
for itself. -/
def prodOf : List Expr → Expr
  | [] => 0
  | [e] => e
  | es => .prod es

/-- The negative of an expression, as a product with `-1`. -/
def negate (e : Expr) : Expr := .prod [.num (-1), e]

/-- A difference, as a sum with a negative. -/
def subtract (a b : Expr) : Expr := .sum [a, negate b]

/-- One over an expression. -/
def reciprocal (e : Expr) : Expr := .quot 1 e

/-- A fraction as an expression, not reduced; over `1` it is an integer. -/
def ofFraction (q : Fraction) : Expr :=
  if q.den = 1 then .num q.num else .quot (.num q.num) (.num q.den)

/-! ### Size -/

mutual

/-- The number of nodes. -/
def nodeCount : Expr → Nat
  | .var _ => 1
  | .num _ => 1
  | .sum es => 1 + nodeCountAll es
  | .prod es => 1 + nodeCountAll es
  | .quot a b => 1 + (a.nodeCount + b.nodeCount)
  | .pow a b => 1 + (a.nodeCount + b.nodeCount)
  | .app _ a => 1 + a.nodeCount
  | .eqn a b => 1 + (a.nodeCount + b.nodeCount)

/-- The number of nodes of a list of expressions. -/
def nodeCountAll : List Expr → Nat
  | [] => 0
  | e :: es => e.nodeCount + nodeCountAll es

end

end Expr

end ComputerAlgebra
