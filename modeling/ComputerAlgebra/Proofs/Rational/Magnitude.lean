import ComputerAlgebra.Proofs.Expr.Arity

/-!
# Magnitudes

How large numerator and denominator of a closed tree get if it is computed without reducing any
fraction on the way. Magnitudes are multiplied and added as fractions are, but nothing in them
cancels: all numbers count with their absolute values.

Besides, a magnitude counts the integers of the tree that are not positive. Bases are bounded
through their powers, except for `0` and `-1`; this count bounds the exponents of those.
-/

namespace ComputerAlgebra

/-- Bounds for a numerator and a denominator, and the number of integers that are not positive. -/
@[ext] structure Magnitude where
  num : ℕ
  den : ℕ
  signs : ℕ

namespace Magnitude

variable {x y z : Magnitude} {l : List Magnitude}

instance : Mul Magnitude := ⟨fun x y => ⟨x.num * y.num, x.den * y.den, x.signs + y.signs⟩⟩

instance : One Magnitude := ⟨⟨1, 1, 0⟩⟩

instance : Add Magnitude :=
  ⟨fun x y => ⟨x.num * y.den + y.num * x.den, x.den * y.den, x.signs + y.signs⟩⟩

instance : Zero Magnitude := ⟨⟨0, 1, 0⟩⟩

instance : Inv Magnitude := ⟨fun x => ⟨x.den, x.num, x.signs⟩⟩

instance : LE Magnitude := ⟨fun x y => x.num ≤ y.num ∧ x.den ≤ y.den ∧ x.signs ≤ y.signs⟩

@[simp] theorem num_mul (x y : Magnitude) : (x * y).num = x.num * y.num := rfl

@[simp] theorem den_mul (x y : Magnitude) : (x * y).den = x.den * y.den := rfl

@[simp] theorem signs_mul (x y : Magnitude) : (x * y).signs = x.signs + y.signs := rfl

@[simp] theorem num_one : (1 : Magnitude).num = 1 := rfl

@[simp] theorem den_one : (1 : Magnitude).den = 1 := rfl

@[simp] theorem signs_one : (1 : Magnitude).signs = 0 := rfl

@[simp] theorem num_add (x y : Magnitude) : (x + y).num = x.num * y.den + y.num * x.den := rfl

@[simp] theorem den_add (x y : Magnitude) : (x + y).den = x.den * y.den := rfl

@[simp] theorem signs_add (x y : Magnitude) : (x + y).signs = x.signs + y.signs := rfl

@[simp] theorem num_zero : (0 : Magnitude).num = 0 := rfl

@[simp] theorem den_zero : (0 : Magnitude).den = 1 := rfl

@[simp] theorem signs_zero : (0 : Magnitude).signs = 0 := rfl

@[simp] theorem num_inv (x : Magnitude) : x⁻¹.num = x.den := rfl

@[simp] theorem den_inv (x : Magnitude) : x⁻¹.den = x.num := rfl

@[simp] theorem signs_inv (x : Magnitude) : x⁻¹.signs = x.signs := rfl

instance : CommMonoid Magnitude where
  mul_assoc x y z := by ext <;> simp [mul_assoc, add_assoc]
  one_mul x := by ext <;> simp
  mul_one x := by ext <;> simp
  mul_comm x y := by ext <;> simp [mul_comm, add_comm]

instance : AddCommMonoid Magnitude where
  add_assoc x y z := by ext <;> simp <;> ring
  zero_add x := by ext <;> simp
  add_zero x := by ext <;> simp
  add_comm x y := by ext <;> simp [mul_comm, add_comm]
  nsmul := nsmulRec

instance : PartialOrder Magnitude where
  le_refl x := ⟨le_rfl, le_rfl, le_rfl⟩
  le_trans _ _ _ h h' := ⟨h.1.trans h'.1, h.2.1.trans h'.2.1, h.2.2.trans h'.2.2⟩
  le_antisymm _ _ h h' := Magnitude.ext (h.1.antisymm h'.1) (h.2.1.antisymm h'.2.1)
    (h.2.2.antisymm h'.2.2)

instance : IsOrderedMonoid Magnitude where
  mul_le_mul_left _ _ h _ := ⟨Nat.mul_le_mul_right _ h.1, Nat.mul_le_mul_right _ h.2.1,
    Nat.add_le_add_right h.2.2 _⟩

instance : IsOrderedAddMonoid Magnitude where
  add_le_add_left _ _ h _ := ⟨by
    simp only [num_add]
    gcongr
    exacts [h.1, h.2.1], Nat.mul_le_mul_right _ h.2.1, Nat.add_le_add_right h.2.2 _⟩

/-- Turned over, the larger magnitude is still the larger one, since both parts of a magnitude are
bounds. -/
theorem inv_le_inv (h : x ≤ y) : x⁻¹ ≤ y⁻¹ := ⟨h.2.1, h.1, h.2.2⟩

@[simp] theorem inv_one : (1 : Magnitude)⁻¹ = 1 := rfl

theorem one_le_inv (h : 1 ≤ x) : 1 ≤ x⁻¹ := inv_le_inv h

@[simp] theorem num_pow (x : Magnitude) (n : ℕ) : (x ^ n).num = x.num ^ n := by
  induction n with
  | zero => rfl
  | succ n ih => rw [pow_succ, num_mul, ih, pow_succ]

@[simp] theorem den_pow (x : Magnitude) (n : ℕ) : (x ^ n).den = x.den ^ n := by
  induction n with
  | zero => rfl
  | succ n ih => rw [pow_succ, den_mul, ih, pow_succ]

@[simp] theorem signs_pow (x : Magnitude) (n : ℕ) : (x ^ n).signs = n * x.signs := by
  induction n with
  | zero => simp
  | succ n ih => rw [pow_succ, signs_mul, ih, Nat.succ_mul]

/-! ### Lists -/

theorem zero_le_of_one_le (h : 1 ≤ x) : 0 ≤ x := ⟨Nat.zero_le _, h.2.1, Nat.zero_le _⟩

/-- Magnitudes of at least `1` have a sum of at least `1`. -/
theorem one_le_sum (hl : l ≠ []) (h : ∀ x ∈ l, 1 ≤ x) : 1 ≤ l.sum := by
  obtain ⟨x, hx⟩ := List.exists_mem_of_ne_nil l hl
  exact (h x hx).trans (List.single_le_sum (fun y hy => zero_le_of_one_le (h y hy)) x hx)

/-- A sum of several parts has at least as large a numerator as there are parts. -/
theorem length_le_num_sum (h : ∀ x ∈ l, 1 ≤ x) : l.length ≤ l.sum.num := by
  induction l with
  | nil => exact Nat.zero_le _
  | cons x l ih =>
    rw [List.forall_mem_cons] at h
    have hden : 1 ≤ l.sum.den := (List.sum_nonneg fun y hy => zero_le_of_one_le (h.2 y hy)).2.1
    have hx := Nat.mul_le_mul h.1.1 hden
    have hl := Nat.mul_le_mul (ih h.2) h.1.2.1
    simp only [num_one, den_one, mul_one] at hx hl
    rw [List.sum_cons, List.length_cons, num_add]
    omega

/-- A multiple of a sum is no larger than the sum of the multiples. -/
theorem sum_mul_le (hl : l ≠ []) (h : ∀ y ∈ l, 1 ≤ y) (hx : 1 ≤ x) :
    l.sum * x ≤ (l.map (· * x)).sum := by
  induction l with
  | nil => exact absurd rfl hl
  | cons y l ih =>
    rw [List.forall_mem_cons] at h
    cases l with
    | nil => simp
    | cons z l =>
      refine le_trans ?_ (add_le_add_right (ih (by simp) h.2) (y * x))
      rw [List.sum_cons]
      have hden : 1 ≤ x.den := hx.2.1
      refine ⟨?_, ?_, ?_⟩
      · simp only [num_mul, num_add, den_mul]
        nlinarith [Nat.zero_le (y.num * x.num * (z :: l).sum.den),
          Nat.zero_le ((z :: l).sum.num * x.num * y.den)]
      · simp only [den_mul, den_add]
        nlinarith [Nat.zero_le (y.den * (z :: l).sum.den * x.den)]
      · simp only [signs_mul, signs_add]
        omega

/-! ### Positive integers -/

/-- The magnitude of a positive integer: nothing is divided by, and no integer lowers it. -/
structure IsPositive (x : Magnitude) : Prop where
  den : x.den = 1
  signs : x.signs = 0

namespace IsPositive

theorem one : IsPositive 1 := ⟨rfl, rfl⟩

theorem of_le (hy : y.IsPositive) (h : x ≤ y) (hx : 1 ≤ x) : x.IsPositive :=
  ⟨(h.2.1.trans_eq hy.den).antisymm hx.2.1, Nat.le_zero.1 (h.2.2.trans_eq hy.signs)⟩

/-- Positive integers have a sum that is one, and a power under the sum is the product of the
powers. -/
theorem pow_sum (x : Magnitude) (h : ∀ y ∈ l, y.IsPositive) :
    l.sum.IsPositive ∧ x ^ l.sum.num = (l.map fun y => x ^ y.num).prod := by
  induction l with
  | nil => exact ⟨⟨rfl, rfl⟩, rfl⟩
  | cons y l ih =>
    rw [List.forall_mem_cons] at h
    obtain ⟨hsum, hpow⟩ := ih h.2
    rw [List.sum_cons]
    refine ⟨⟨?_, ?_⟩, ?_⟩
    · rw [den_add, h.1.den, hsum.den]
    · rw [signs_add, h.1.signs, hsum.signs]
    · rw [num_add, hsum.den, h.1.den, mul_one, mul_one, pow_add, hpow, List.map_cons,
        List.prod_cons]

/-- The numerator of a sum of whole magnitudes is the sum of the numerators. -/
theorem num_sum (h : ∀ y ∈ l, y.IsPositive) : l.sum.num = (l.map num).sum := by
  induction l with
  | nil => rfl
  | cons y l ih =>
    rw [List.forall_mem_cons] at h
    rw [List.sum_cons, num_add, (pow_sum 1 h.2).1.den, h.1.den, mul_one, mul_one, ih h.2,
      List.map_cons, List.sum_cons]

theorem mul (hx : x.IsPositive) (hy : y.IsPositive) : (x * y).IsPositive :=
  ⟨by rw [den_mul, hx.den, hy.den], by rw [signs_mul, hx.signs, hy.signs]⟩

theorem prod (h : ∀ y ∈ l, y.IsPositive) : l.prod.IsPositive := by
  induction l with
  | nil => exact one
  | cons y l ih =>
    rw [List.forall_mem_cons] at h
    rw [List.prod_cons]
    exact h.1.mul (ih h.2)

theorem pow (hx : x.IsPositive) (n : ℕ) : (x ^ n).IsPositive :=
  ⟨by rw [den_pow, hx.den, one_pow], by rw [signs_pow, hx.signs, mul_zero]⟩

end IsPositive

/-- The numerator of a product is the product of the numerators. -/
theorem num_prod (l : List Magnitude) : l.prod.num = (l.map num).prod := by
  induction l with
  | nil => rfl
  | cons x l ih => rw [List.prod_cons, num_mul, ih, List.map_cons, List.prod_cons]

/-! ### Integers -/

/-- The magnitude of an integer. -/
def ofInt (i : ℤ) : Magnitude := ⟨max 1 i.natAbs, 1, if i ≤ 0 then 1 else 0⟩

variable {i : ℤ}

/-- The magnitude of an integer is at least `1`, also that of `0`. -/
theorem one_le_ofInt (i : ℤ) : 1 ≤ ofInt i := ⟨le_max_left _ _, le_rfl, Nat.zero_le _⟩

@[simp] theorem ofInt_one : ofInt 1 = 1 := rfl

/-- A product of integers has at most the product of their magnitudes. -/
theorem ofInt_mul_le (i j : ℤ) : ofInt (i * j) ≤ ofInt i * ofInt j := by
  refine ⟨?_, le_rfl, ?_⟩
  · simp only [ofInt, num_mul, Int.natAbs_mul]
    exact max_le (Nat.mul_pos (by omega) (by omega)) (Nat.mul_le_mul (by omega) (by omega))
  · have hpos : 0 < i → 0 < j → ¬i * j ≤ 0 := fun hi hj => not_le.2 (mul_pos hi hj)
    simp only [ofInt, signs_mul]
    split_ifs <;> simp_all

/-- A product of several integers has at most the product of their magnitudes. -/
theorem ofInt_prod_le (is : List ℤ) : ofInt is.prod ≤ (is.map ofInt).prod := by
  induction is with
  | nil => exact le_rfl
  | cons i is ih =>
    rw [List.prod_cons, List.map_cons, List.prod_cons]
    exact (ofInt_mul_le i is.prod).trans (mul_le_mul_right ih _)

/-- A power of an integer has at most the power of its magnitude. -/
theorem ofInt_pow_le (i : ℤ) (n : ℕ) : ofInt (i ^ n) ≤ ofInt i ^ n := by
  have h := ofInt_prod_le (List.replicate n i)
  rwa [List.map_replicate, List.prod_replicate, List.prod_replicate] at h

/-- The magnitude of a positive integer is the integer itself. -/
theorem isPositive_ofInt_iff : (ofInt i).IsPositive ↔ 0 < i := by
  constructor
  · intro h
    have hsigns := h.signs
    simp only [ofInt] at hsigns
    split_ifs at hsigns
    omega
  · intro h
    exact ⟨rfl, by simp [ofInt, h]⟩

/-- The magnitude of a positive integer is its value. -/
theorem num_ofInt (h : 0 < i) : (ofInt i).num = i.toNat := by
  simp only [ofInt]
  omega

end Magnitude

end ComputerAlgebra
