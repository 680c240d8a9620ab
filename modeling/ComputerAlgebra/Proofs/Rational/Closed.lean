import ComputerAlgebra.Expr.BottomUp
import ComputerAlgebra.Proofs.Rational.Magnitude

/-!
# Closed trees

Trees of integers with sums, products, quotients and powers under positive integers. Such a tree has
a magnitude, which bounds the numerators and denominators that its evaluation comes across
(`Expr.magnitude`). A rule that raises the magnitude of no node raises that of no tree
(`Shrinks.bottomUp`).
-/

namespace ComputerAlgebra

open Magnitude

namespace Expr

mutual

/-- The magnitude of a closed tree. An exponent counts as the integer that its numerator bounds. -/
def magnitude : Expr → Magnitude
  | .num n => .ofInt n.toInt
  | .sum es => (magnitudeAll es).sum
  | .prod es => (magnitudeAll es).prod
  | .quot a b => magnitude a * (magnitude b)⁻¹
  | .pow a b => magnitude a ^ (magnitude b).num
  | .var _ => 1
  | .app _ _ => 1
  | .eqn _ _ => 1

/-- The magnitudes of several trees. -/
def magnitudeAll : List Expr → List Magnitude
  | [] => []
  | e :: es => magnitude e :: magnitudeAll es

end

variable {a b e e' e'' : Expr} {es : List Expr}

theorem magnitudeAll_eq_map (es : List Expr) : magnitudeAll es = es.map magnitude := by
  induction es with
  | nil => rfl
  | cons e es ih => simp [magnitudeAll, ih]

@[simp] theorem magnitude_num (n : Int64) : (num n).magnitude = .ofInt n.toInt :=
  (rfl)

@[simp] theorem magnitude_zero : (0 : Expr).magnitude = .ofInt 0 := magnitude_num 0

@[simp] theorem magnitude_one : (1 : Expr).magnitude = 1 := magnitude_num 1

@[simp] theorem magnitude_sum (es : List Expr) : (sum es).magnitude = (es.map magnitude).sum :=
  congrArg List.sum (magnitudeAll_eq_map es)

@[simp] theorem magnitude_prod (es : List Expr) :
    (prod es).magnitude = (es.map magnitude).prod :=
  congrArg List.prod (magnitudeAll_eq_map es)

@[simp] theorem magnitude_quot (a b : Expr) :
    (quot a b).magnitude = a.magnitude * b.magnitude⁻¹ := (rfl)

@[simp] theorem magnitude_pow (a b : Expr) :
    (pow a b).magnitude = a.magnitude ^ b.magnitude.num := (rfl)

/-- A sum of one or more addends has the sum of their magnitudes. -/
theorem magnitude_sumOf (h : es ≠ []) : (sumOf es).magnitude = (es.map magnitude).sum := by
  match es, h with
  | [e], _ => simp [sumOf]
  | e :: e' :: es, _ => simp [sumOf]

/-- A product of one or more factors has the product of their magnitudes. -/
theorem magnitude_prodOf (h : es ≠ []) : (prodOf es).magnitude = (es.map magnitude).prod := by
  match es, h with
  | [e], _ => simp [prodOf]
  | e :: e' :: es, _ => simp [prodOf]

/-- Trees of integers with sums, products, quotients, and powers under positive integers. -/
inductive Closed : Expr → Prop where
  | num (n : Int64) : Closed (.num n)
  | sum {es : List Expr} (hlen : 2 ≤ es.length) (h : ∀ e ∈ es, Closed e) : Closed (.sum es)
  | prod {es : List Expr} (hlen : 2 ≤ es.length) (h : ∀ e ∈ es, Closed e) : Closed (.prod es)
  | quot {a b : Expr} (ha : Closed a) (hb : Closed b) : Closed (.quot a b)
  | pow {a b : Expr} (ha : Closed a) (hb : Closed b) (hpos : b.magnitude.IsPositive) :
      Closed (.pow a b)

namespace Closed

theorem zero : Closed 0 := .num 0

theorem one : Closed 1 := .num 1

theorem sumOf (h : ∀ e ∈ es, Closed e) : Closed (.sumOf es) := by
  match es with
  | [] => exact zero
  | [e] => exact h e List.mem_cons_self
  | e :: e' :: es => exact .sum (by simp) h

theorem prodOf (h : ∀ e ∈ es, Closed e) : Closed (.prodOf es) := by
  match es with
  | [] => exact zero
  | [e] => exact h e List.mem_cons_self
  | e :: e' :: es => exact .prod (by simp) h

theorem wellFormed (h : Closed e) : e.WellFormed := by
  induction h with
  | num n => exact .num n
  | sum hlen _ ih => exact .sum hlen ih
  | prod hlen _ ih => exact .prod hlen ih
  | quot _ _ iha ihb => exact .quot iha ihb
  | pow _ _ _ iha ihb => exact .pow iha ihb

/-- Numerator and denominator of a magnitude are at least `1`, so products of magnitudes grow. -/
theorem one_le_magnitude (h : Closed e) : 1 ≤ e.magnitude := by
  induction h with
  | num n => simpa using one_le_ofInt n.toInt
  | @sum es hlen _ ih =>
    rw [magnitude_sum]
    exact one_le_sum (by simpa using List.ne_nil_of_length_pos (by omega : 0 < es.length))
      (List.forall_mem_map.2 ih)
  | prod _ _ ih =>
    rw [magnitude_prod]
    exact List.one_le_prod_of_one_le (List.forall_mem_map.2 ih)
  | quot _ _ iha ihb =>
    rw [magnitude_quot]
    exact one_le_mul iha (one_le_inv ihb)
  | pow _ _ _ iha _ =>
    rw [magnitude_pow]
    exact one_le_pow_of_one_le' iha _

end Closed

theorem le_sum_magnitude (h : ∀ e ∈ es, Closed e) (he : e ∈ es) :
    e.magnitude ≤ (es.map magnitude).sum :=
  List.single_le_sum
    (List.forall_mem_map.2 fun e he => zero_le_of_one_le (h e he).one_le_magnitude) _
    (List.mem_map_of_mem he)

theorem le_prod_magnitude (h : ∀ e ∈ es, Closed e) (he : e ∈ es) :
    e.magnitude ≤ (es.map magnitude).prod :=
  List.single_le_prod (List.forall_mem_map.2 fun e he => (h e he).one_le_magnitude) _
    (List.mem_map_of_mem he)

/-! ### Shrinking -/

/-- The second tree is closed and has no larger magnitude than the first one. -/
structure Shrinks (e e' : Expr) : Prop where
  closed : Closed e'
  le : e'.magnitude ≤ e.magnitude

namespace Shrinks

/-- A closed tree shrinks to itself. -/
theorem refl (h : Closed e) : Shrinks e e := ⟨h, le_rfl⟩

/-- What has shrunk can shrink further. -/
theorem trans (h : Shrinks e e') (h' : Shrinks e' e'') : Shrinks e e'' :=
  ⟨h'.closed, h'.le.trans h.le⟩

/-- The literal `1` is smaller than any closed tree. -/
theorem to_one (h : Closed e) : Shrinks e 1 := ⟨.one, magnitude_one ▸ h.one_le_magnitude⟩

/-- The literal `0` is smaller than a closed tree in which not all integers are positive. -/
theorem to_zero (h : Closed e) (hsigns : 1 ≤ e.magnitude.signs) : Shrinks e 0 :=
  ⟨.zero, magnitude_zero ▸ ⟨h.one_le_magnitude.1, h.one_le_magnitude.2.1, hsigns⟩⟩

theorem sum {f : Expr → Expr} (hlen : 2 ≤ es.length) (h : ∀ e ∈ es, Shrinks e (f e)) :
    Shrinks (.sum es) (.sum (es.map f)) := by
  refine ⟨.sum (by simpa using hlen) (List.forall_mem_map.2 fun e he => (h e he).closed), ?_⟩
  rw [magnitude_sum, magnitude_sum, List.map_map]
  exact List.sum_le_sum fun e he => (h e he).le

theorem prod {f : Expr → Expr} (hlen : 2 ≤ es.length) (h : ∀ e ∈ es, Shrinks e (f e)) :
    Shrinks (.prod es) (.prod (es.map f)) := by
  refine ⟨.prod (by simpa using hlen) (List.forall_mem_map.2 fun e he => (h e he).closed), ?_⟩
  rw [magnitude_prod, magnitude_prod, List.map_map]
  exact List.prod_le_prod' fun e he => (h e he).le

theorem quot {a' b' : Expr} (ha : Shrinks a a') (hb : Shrinks b b') :
    Shrinks (.quot a b) (.quot a' b') := by
  refine ⟨.quot ha.closed hb.closed, ?_⟩
  rw [magnitude_quot, magnitude_quot]
  exact mul_le_mul' ha.le (inv_le_inv hb.le)

/-- A power shrinks with its parts: since its base has at least the magnitude `1`, a smaller
exponent makes it smaller. -/
theorem pow {a' b' : Expr} (h : Closed (.pow a b)) (ha : Shrinks a a') (hb : Shrinks b b') :
    Shrinks (.pow a b) (.pow a' b') := by
  cases h with
  | pow hca hcb hpos =>
    refine ⟨.pow ha.closed hb.closed (hpos.of_le hb.le hb.closed.one_le_magnitude), ?_⟩
    rw [magnitude_pow, magnitude_pow]
    calc a'.magnitude ^ b'.magnitude.num
        ≤ a.magnitude ^ b'.magnitude.num := pow_le_pow_left' ha.le _
      _ ≤ a.magnitude ^ b.magnitude.num := pow_le_pow_right' hca.one_le_magnitude hb.le.1

/-- A rule that shrinks nodes shrinks trees. -/
theorem bottomUp {rule : Expr → Expr} (hrule : ∀ e, Closed e → Shrinks e (rule e))
    (h : Closed e) : Shrinks e (e.bottomUp rule) := by
  induction h with
  | num n => simpa using hrule _ (.num n)
  | sum hlen _ ih =>
    have hops := sum hlen ih
    rw [bottomUp_sum]
    exact hops.trans (hrule _ hops.closed)
  | prod hlen _ ih =>
    have hops := prod hlen ih
    rw [bottomUp_prod]
    exact hops.trans (hrule _ hops.closed)
  | quot _ _ iha ihb =>
    have hops := quot iha ihb
    rw [bottomUp_quot]
    exact hops.trans (hrule _ hops.closed)
  | pow ha hb hpos iha ihb =>
    have hops := pow (.pow ha hb hpos) iha ihb
    rw [bottomUp_pow]
    exact hops.trans (hrule _ hops.closed)

end Shrinks

end Expr

end ComputerAlgebra
