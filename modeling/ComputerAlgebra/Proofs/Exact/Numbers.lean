import ComputerAlgebra.Numeric.Arithmetic
import Mathlib

/-!
# Exact numbers

Arithmetic without rounding over an ordered field. Quotients by zero have no value, and powers and
functions have values on domains of their own. A field does not say what these are, so they are
given with it, and obey the laws that the rules of the simplifier rest on.

As a number system for the evaluator the exact numbers are the elements of the field and one more,
`none`, for what has no value. It spreads through every operation, and compares with nothing.
-/

namespace ComputerAlgebra

/-- An ordered field with what it needs besides its operations: powers, functions and named
constants. A law about a value holds wherever there is a value. -/
class ExactNumbers (K : Type) [Field K] [LinearOrder K] extends IsStrictOrderedRing K where
  /-- Where a power has a value. -/
  PowerDomain : K → K → Prop
  /-- The value of a power. -/
  power : K → K → K
  /-- Where a function has a value. -/
  Domain : Func → K → Prop
  /-- The value of a function. -/
  apply : Func → K → K
  /-- The value of a named constant. -/
  constant : NamedConstant → K
  powerDomain_intCast {b : K} {k : ℤ} : PowerDomain b k ↔ b ≠ 0 ∨ 0 ≤ k
  power_intCast {b : K} {k : ℤ} : PowerDomain b k → power b k = b ^ k
  power_one_left {x : K} : PowerDomain 1 x → power 1 x = 1
  powerDomain_add {b x y : K} : PowerDomain b x → PowerDomain b y → PowerDomain b (x + y)
  power_add {b x y : K} : PowerDomain b x → PowerDomain b y →
    power b (x + y) = power b x * power b y
  domain_abs {x : K} : Domain .abs x
  apply_abs {x : K} : apply .abs x = |x|
  apply_sqrt {x : K} : 0 ≤ x → Domain .sqrt (x * x) → apply .sqrt (x * x) = x
  apply_sin_zero : Domain .sin 0 → apply .sin 0 = 0
  apply_cos_zero : Domain .cos 0 → apply .cos 0 = 1
  apply_tan_zero : Domain .tan 0 → apply .tan 0 = 0
  apply_asin_zero : Domain .asin 0 → apply .asin 0 = 0
  apply_acos_one : Domain .acos 1 → apply .acos 1 = 0
  apply_atan_zero : Domain .atan 0 → apply .atan 0 = 0
  apply_ln_one : Domain .ln 1 → apply .ln 1 = 0
  apply_ln_e : Domain .ln (constant .e) → apply .ln (constant .e) = 1

namespace ExactNumbers

variable {K : Type} [Field K] [LinearOrder K] [ExactNumbers K] {b x : K}

/-! ### Powers -/

/-- The exponent `0` is allowed for every base. -/
theorem powerDomain_zero (b : K) : PowerDomain b 0 := by
  have h : PowerDomain b ((0 : ℤ) : K) := powerDomain_intCast.mpr (.inr le_rfl)
  rwa [Int.cast_zero] at h

/-- The exponent `1` is allowed for every base. -/
theorem powerDomain_one (b : K) : PowerDomain b 1 := by
  have h : PowerDomain b ((1 : ℤ) : K) := powerDomain_intCast.mpr (.inr zero_le_one)
  rwa [Int.cast_one] at h

@[simp] theorem power_zero (b : K) : power b 0 = 1 := by
  have h : PowerDomain b ((0 : ℤ) : K) := powerDomain_intCast.mpr (.inr le_rfl)
  simpa using power_intCast h

@[simp] theorem power_one (b : K) : power b 1 = b := by
  have h : PowerDomain b ((1 : ℤ) : K) := powerDomain_intCast.mpr (.inr zero_le_one)
  simpa using power_intCast h

/-- A power of a sum is the product of the powers. -/
theorem power_sum {xs : List K} (h : ∀ x ∈ xs, PowerDomain b x) :
    PowerDomain b xs.sum ∧ power b xs.sum = (xs.map (power b)).prod := by
  induction xs with
  | nil => exact ⟨powerDomain_zero b, power_zero b⟩
  | cons x xs ih =>
    rw [List.forall_mem_cons] at h
    obtain ⟨hdom, hpow⟩ := ih h.2
    rw [List.sum_cons, List.map_cons, List.prod_cons]
    exact ⟨powerDomain_add h.1 hdom, by rw [power_add h.1 hdom, hpow]⟩

/-! ### Every ordered field -/

open Classical in
/-- A power under an integer. -/
noncomputable def integerPower (b x : K) : K := if h : ∃ k : ℤ, x = k then b ^ h.choose else 0

/-- Powers with whole exponents are those of the field. -/
theorem integerPower_intCast {K : Type} [Field K] [LinearOrder K] [IsStrictOrderedRing K] (b : K)
    (k : ℤ) : integerPower b (k : K) = b ^ k := by
  have hex : ∃ l : ℤ, (k : K) = l := ⟨k, rfl⟩
  have hk : hex.choose = k := (Int.cast_injective hex.choose_spec).symm
  rw [integerPower, dif_pos hex, hk]

/-- Any ordered field will do: integer powers and absolute values have values in it, and no other
function needs to have one. -/
@[reducible] noncomputable def ofOrderedField (K : Type) [Field K] [LinearOrder K]
    [IsStrictOrderedRing K] : ExactNumbers K where
  PowerDomain b x := ∃ k : ℤ, x = k ∧ (b ≠ 0 ∨ 0 ≤ k)
  power := integerPower
  Domain f _ := f = .abs
  apply _ x := |x|
  constant _ := 0
  powerDomain_intCast := by simp
  power_intCast _ := integerPower_intCast _ _
  power_one_left := by
    rintro _ ⟨k, rfl, -⟩
    rw [integerPower_intCast, one_zpow]
  powerDomain_add := by
    rintro b _ _ ⟨k, rfl, hk⟩ ⟨l, rfl, hl⟩
    refine ⟨k + l, by push_cast; rfl, ?_⟩
    by_cases hb : b = 0
    · exact .inr (add_nonneg (hk.resolve_left (absurd hb)) (hl.resolve_left (absurd hb)))
    · exact .inl hb
  power_add := by
    rintro b _ _ ⟨k, rfl, hk⟩ ⟨l, rfl, hl⟩
    rw [← Int.cast_add, integerPower_intCast, integerPower_intCast, integerPower_intCast]
    apply zpow_add'
    by_cases hb : b = 0
    · have hk : 0 ≤ k := hk.resolve_left (absurd hb)
      have hl : 0 ≤ l := hl.resolve_left (absurd hb)
      omega
    · exact .inl hb
  domain_abs := rfl
  apply_abs := rfl
  apply_sqrt _ h := by cases h
  apply_sin_zero h := by cases h
  apply_cos_zero h := by cases h
  apply_tan_zero h := by cases h
  apply_asin_zero h := by cases h
  apply_acos_one h := by cases h
  apply_atan_zero h := by cases h
  apply_ln_one h := by cases h
  apply_ln_e h := by cases h

/-! ### The number system -/

/-- A quotient, if it has a value. -/
def checkedDiv (a b : K) : Option K := if b = 0 then none else some (a / b)

open Classical in
/-- A power, if it has a value. -/
noncomputable def checkedPower (b x : K) : Option K :=
  if PowerDomain b x then some (power b x) else none

open Classical in
/-- A function of a number, if it has a value there. -/
noncomputable def checkedApply (f : Func) (x : K) : Option K :=
  if Domain f x then some (apply f x) else none

/-- A comparison of two values. What has no value compares with nothing. -/
def compare (r : K → K → Bool) : Option K → Option K → Bool
  | some a, some b => r a b
  | _, _ => false

/-- The elements of the field, and `none` for what has no value, as a number system. Nothing is
printed in it. -/
noncomputable instance : Arithmetic (Option K) where
  add := Option.map₂ (· + ·)
  sub := Option.map₂ (· - ·)
  mul := Option.map₂ (· * ·)
  div v w := v.bind fun a => w.bind fun b => checkedDiv a b
  neg := Option.map (- ·)
  ofInt n := some n.toInt
  ofNat n := some n
  emptySum := some 0
  power v w := v.bind fun b => w.bind fun x => checkedPower b x
  apply f v := v.bind fun x => checkedApply f x
  constant c := some (constant c)
  isFinite := Option.isSome
  eq := compare fun a b => a = b
  lt := compare fun a b => a < b
  le := compare fun a b => a ≤ b
  totalLE
    | _, none => true
    | none, some _ => false
    | some a, some b => a ≤ b
  truncate v := v.elim 0 fun a => Nat.findGreatest (fun n => (n : K) ≤ a) (2 ^ 64 - 1)
  text _ := ""

variable {a : K} {v w : Option K}

@[simp] theorem ofInt_eq (n : Int64) : (Arithmetic.ofInt n : Option K) = some (n.toInt : K) := rfl

@[simp] theorem emptySum_eq : (Arithmetic.emptySum : Option K) = some 0 := rfl

@[simp] theorem constant_eq (c : NamedConstant) :
    (Arithmetic.constant c : Option K) = some (constant c) := rfl

/-- A difference is a number if and only if both of its parts are. -/
theorem sub_eq_some : v - w = some a ↔ ∃ x y, v = some x ∧ w = some y ∧ x - y = a :=
  Option.map₂_eq_some_iff

/-- A quotient is a number if and only if both of its parts are and the denominator is not `0`. -/
theorem div_eq_some :
    v / w = some a ↔ ∃ x y, v = some x ∧ w = some y ∧ y ≠ 0 ∧ x / y = a := by
  show (v.bind fun x => w.bind fun y => checkedDiv x y) = some a ↔ _
  simp [Option.bind_eq_some_iff, checkedDiv]

/-- A power is a number if and only if both of its parts are and the power is defined. -/
theorem power_eq_some : Arithmetic.power v w = some a ↔
    ∃ x y, v = some x ∧ w = some y ∧ PowerDomain x y ∧ power x y = a := by
  show (v.bind fun x => w.bind fun y => checkedPower x y) = some a ↔ _
  simp [Option.bind_eq_some_iff, checkedPower]

/-- A function has a number as its result if and only if the argument is a number in its domain. -/
theorem apply_eq_some {f : Func} :
    Arithmetic.apply f v = some a ↔ ∃ x, v = some x ∧ Domain f x ∧ apply f x = a := by
  show (v.bind fun x => checkedApply f x) = some a ↔ _
  simp [Option.bind_eq_some_iff, checkedApply]

/-- Only numbers are compared; what is not a number is not at most anything. -/
theorem le_eq_true : Arithmetic.le v w = true ↔ ∃ x y, v = some x ∧ w = some y ∧ x ≤ y := by
  show compare _ v w = true ↔ _
  cases v <;> cases w <;> simp [compare]

/-- Numbers are in the total order as they are in the field. -/
theorem totalLE_some {a b : K} : Arithmetic.totalLE (some a) (some b) = true ↔ a ≤ b :=
  decide_eq_true_iff

theorem totalLE_trans (u v w : Option K) (huv : Arithmetic.totalLE u v = true)
    (hvw : Arithmetic.totalLE v w = true) : Arithmetic.totalLE u w = true := by
  cases w with
  | none => cases u <;> rfl
  | some c =>
    cases v with
    | none => cases hvw
    | some b =>
      cases u with
      | none => cases huv
      | some a =>
        rw [totalLE_some] at huv hvw ⊢
        exact huv.trans hvw

/-- The total order compares any two values, also those that are no numbers. -/
theorem totalLE_total (v w : Option K) :
    Arithmetic.totalLE v w = true ∨ Arithmetic.totalLE w v = true := by
  cases v with
  | none => exact .inr (by cases w <;> rfl)
  | some a =>
    cases w with
    | none => exact .inl rfl
    | some b => simpa only [totalLE_some] using le_total a b

theorem totalLE_antisymm (v w : Option K) (hvw : Arithmetic.totalLE v w = true)
    (hwv : Arithmetic.totalLE w v = true) : v = w := by
  cases v with
  | none =>
    cases w with
    | none => rfl
    | some b => cases hvw
  | some a =>
    cases w with
    | none => cases hwv
    | some b =>
      rw [totalLE_some] at hvw hwv
      rw [le_antisymm hvw hwv]

/-- Only a number is equal to a number. -/
theorem eq_some {a : K} : Arithmetic.eq v (some a) = true ↔ v = some a := by
  show compare _ v (some a) = true ↔ _
  cases v <;> simp [compare]

/-- Equal values are the same value. There is no converse: what is not a number does not equal
itself. -/
theorem eq_of_eq (v w : Option K) (h : Arithmetic.eq v w = true) : v = w := by
  cases w with
  | none => cases v <;> cases h
  | some b => exact eq_some.mp h

omit [Field K] [LinearOrder K] [ExactNumbers K] in
/-- An operation on values, folded over a list, has a value only if everything in the list has
one. -/
theorem foldl_map₂_eq_some {f : K → K → K} {vs : List (Option K)} :
    vs.foldl (Option.map₂ f) (some b) = some a ↔
      ∃ xs : List K, vs = xs.map some ∧ xs.foldl f b = a := by
  induction vs generalizing b with
  | nil => simp
  | cons v vs ih =>
    cases v with
    | none =>
      have hnone : vs.foldl (Option.map₂ f) none = none := by
        clear ih
        induction vs with
        | nil => rfl
        | cons v vs ih => exact ih
      show vs.foldl (Option.map₂ f) none = some a ↔ _
      rw [hnone]
      constructor
      · intro h
        cases h
      · rintro ⟨_ | ⟨x, xs⟩, h, -⟩ <;> cases h
    | some x =>
      show vs.foldl (Option.map₂ f) (some (f b x)) = some a ↔ _
      rw [ih]
      constructor
      · rintro ⟨xs, rfl, h⟩
        exact ⟨x :: xs, rfl, h⟩
      · rintro ⟨_ | ⟨y, xs⟩, h, h'⟩
        · cases h
        · cases h
          exact ⟨xs, rfl, h'⟩

/-- Adding up gives a number if and only if all addends are numbers. -/
theorem foldl_add_eq_some {vs : List (Option K)} :
    vs.foldl (· + ·) (some b) = some a ↔ ∃ xs : List K, vs = xs.map some ∧ b + xs.sum = a := by
  have hsum (xs : List K) : xs.foldl (· + ·) b = b + xs.sum := by
    induction xs generalizing b with
    | nil => simp
    | cons x xs ih => rw [List.foldl_cons, ih, List.sum_cons, add_assoc]
  show vs.foldl (Option.map₂ (· + ·)) (some b) = some a ↔ _
  simp only [foldl_map₂_eq_some, hsum]

/-- Multiplying gives a number if and only if all factors are numbers. -/
theorem foldl_mul_eq_some {vs : List (Option K)} :
    vs.foldl (· * ·) (some b) = some a ↔ ∃ xs : List K, vs = xs.map some ∧ b * xs.prod = a := by
  have hprod (xs : List K) : xs.foldl (· * ·) b = b * xs.prod := by
    induction xs generalizing b with
    | nil => simp
    | cons x xs ih => rw [List.foldl_cons, ih, List.prod_cons, mul_assoc]
  show vs.foldl (Option.map₂ (· * ·)) (some b) = some a ↔ _
  simp only [foldl_map₂_eq_some, hprod]

end ExactNumbers

end ComputerAlgebra
