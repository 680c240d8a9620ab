import ComputerAlgebra.Expr.BottomUp
import Mathlib

/-!
# Operands of sums and products

A tree is well formed if every sum and every product in it has at least two operands. The derived
forms `Expr.sumOf` and `Expr.prodOf` build well-formed trees from any number of operands, and a rule
that keeps nodes well formed keeps whole trees well formed (`Expr.WellFormed.bottomUp`).
-/

namespace ComputerAlgebra

namespace Expr

/-- Every sum and every product has at least two operands. -/
inductive WellFormed : Expr → Prop where
  | var (x : String) : WellFormed (.var x)
  | num (n : Int64) : WellFormed (.num n)
  | sum {es : List Expr} (hlen : 2 ≤ es.length) (h : ∀ e ∈ es, WellFormed e) :
      WellFormed (.sum es)
  | prod {es : List Expr} (hlen : 2 ≤ es.length) (h : ∀ e ∈ es, WellFormed e) :
      WellFormed (.prod es)
  | quot {a b : Expr} (ha : WellFormed a) (hb : WellFormed b) : WellFormed (.quot a b)
  | pow {a b : Expr} (ha : WellFormed a) (hb : WellFormed b) : WellFormed (.pow a b)
  | app (f : Func) {a : Expr} (ha : WellFormed a) : WellFormed (.app f a)
  | eqn {a b : Expr} (ha : WellFormed a) (hb : WellFormed b) : WellFormed (.eqn a b)

variable {a b e : Expr} {es : List Expr}

/-- From two factors on, a product of several trees is a product. -/
theorem prodOf_of_two_le (h : 2 ≤ es.length) : prodOf es = .prod es := by
  match es, h with
  | _ :: _ :: _, _ => rfl

/-- From two addends on, a sum of several trees is a sum. -/
theorem sumOf_of_two_le (h : 2 ≤ es.length) : sumOf es = .sum es := by
  match es, h with
  | _ :: _ :: _, _ => rfl

namespace WellFormed

@[simp] theorem var_iff {x : String} : WellFormed (.var x) ↔ True := iff_true_intro (.var x)

@[simp] theorem num_iff {n : Int64} : WellFormed (.num n) ↔ True := iff_true_intro (.num n)

theorem zero : WellFormed 0 := .num 0

theorem one : WellFormed 1 := .num 1

/-- A sum is well-formed if it has two or more addends and all of them are well-formed. -/
@[simp] theorem sum_iff :
    WellFormed (.sum es) ↔ 2 ≤ es.length ∧ ∀ e ∈ es, WellFormed e :=
  ⟨fun | .sum hlen h => ⟨hlen, h⟩, fun ⟨hlen, h⟩ => .sum hlen h⟩

@[simp] theorem prod_iff :
    WellFormed (.prod es) ↔ 2 ≤ es.length ∧ ∀ e ∈ es, WellFormed e :=
  ⟨fun | .prod hlen h => ⟨hlen, h⟩, fun ⟨hlen, h⟩ => .prod hlen h⟩

@[simp] theorem quot_iff : WellFormed (.quot a b) ↔ WellFormed a ∧ WellFormed b :=
  ⟨fun | .quot ha hb => ⟨ha, hb⟩, fun ⟨ha, hb⟩ => .quot ha hb⟩

@[simp] theorem pow_iff : WellFormed (.pow a b) ↔ WellFormed a ∧ WellFormed b :=
  ⟨fun | .pow ha hb => ⟨ha, hb⟩, fun ⟨ha, hb⟩ => .pow ha hb⟩

@[simp] theorem app_iff {f : Func} : WellFormed (.app f a) ↔ WellFormed a :=
  ⟨fun | .app _ ha => ha, .app f⟩

@[simp] theorem eqn_iff : WellFormed (.eqn a b) ↔ WellFormed a ∧ WellFormed b :=
  ⟨fun | .eqn ha hb => ⟨ha, hb⟩, fun ⟨ha, hb⟩ => .eqn ha hb⟩

theorem sumOf (h : ∀ e ∈ es, WellFormed e) : WellFormed (.sumOf es) := by
  match es with
  | [] => exact .num 0
  | [e] => exact h e List.mem_cons_self
  | e :: e' :: es => exact .sum (by simp) h

theorem prodOf (h : ∀ e ∈ es, WellFormed e) : WellFormed (.prodOf es) := by
  match es with
  | [] => exact .num 0
  | [e] => exact h e List.mem_cons_self
  | e :: e' :: es => exact .prod (by simp) h

/-- A rule that keeps nodes well formed keeps trees well formed. -/
theorem bottomUp {rule : Expr → Expr} (hrule : ∀ e, WellFormed e → WellFormed (rule e))
    (h : WellFormed e) : WellFormed (e.bottomUp rule) := by
  induction h with
  | var x => simpa using hrule _ (.var x)
  | num n => simpa using hrule _ (.num n)
  | sum hlen _ ih =>
    rw [bottomUp_sum]
    exact hrule _ (.sum (by simpa using hlen) (List.forall_mem_map.2 ih))
  | prod hlen _ ih =>
    rw [bottomUp_prod]
    exact hrule _ (.prod (by simpa using hlen) (List.forall_mem_map.2 ih))
  | quot _ _ iha ihb =>
    rw [bottomUp_quot]
    exact hrule _ (.quot iha ihb)
  | pow _ _ iha ihb =>
    rw [bottomUp_pow]
    exact hrule _ (.pow iha ihb)
  | app f _ iha =>
    rw [bottomUp_app]
    exact hrule _ (.app f iha)
  | eqn _ _ iha ihb =>
    rw [bottomUp_eqn]
    exact hrule _ (.eqn iha ihb)

end WellFormed

end Expr

end ComputerAlgebra
