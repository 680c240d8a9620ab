import ComputerAlgebra.Integer.Checked
import Mathlib

/-!
# Exactness of checked integer arithmetic

Each operation on 64-bit integers that gives a result gives the result of mathematical integers.
-/

namespace Int64

variable {a b c : Int64}

theorem ne_zero_iff_toInt_ne_zero : a ≠ 0 ↔ a.toInt ≠ 0 := by
  rw [Ne, ← toInt_inj, toInt_zero]

/-- What is out of range has no 64-bit value. -/
theorem ofInt?_eq_none_iff {i : Int} : ofInt? i = none ↔ ¬(-2 ^ 63 ≤ i ∧ i < 2 ^ 63) := by
  simp [ofInt?]

/-- A sum has a result if and only if it fits into 64 bits, and then it is the exact one. -/
theorem add?_eq_some_iff : a.add? b = some c ↔ c.toInt = a.toInt + b.toInt :=
  ofInt?_eq_some_iff

/-- A product has a result if and only if it fits into 64 bits, and then it is the exact one. -/
theorem mul?_eq_some_iff : a.mul? b = some c ↔ c.toInt = a.toInt * b.toInt :=
  ofInt?_eq_some_iff

@[simp] theorem mul?_one (a : Int64) : a.mul? 1 = some a := by
  rw [mul?_eq_some_iff, toInt_one, Int.mul_one]

@[simp] theorem one_mul? (a : Int64) : mul? 1 a = some a := by
  rw [mul?_eq_some_iff, toInt_one, Int.one_mul]

@[simp] theorem mul?_zero (a : Int64) : a.mul? 0 = some 0 := by
  rw [mul?_eq_some_iff, toInt_zero, Int.mul_zero]

@[simp] theorem zero_mul? (a : Int64) : mul? 0 a = some 0 := by
  rw [mul?_eq_some_iff, toInt_zero, Int.zero_mul]

@[simp] theorem add?_zero (a : Int64) : a.add? 0 = some a := by
  rw [add?_eq_some_iff, toInt_zero, Int.add_zero]

@[simp] theorem zero_add? (a : Int64) : add? 0 a = some a := by
  rw [add?_eq_some_iff, toInt_zero, Int.zero_add]

/-- An opposite has a result if and only if it fits into 64 bits, and then it is the exact one. -/
theorem neg?_eq_some_iff : a.neg? = some c ↔ c.toInt = -a.toInt :=
  ofInt?_eq_some_iff

/-- The least integer is the only one without a negative. -/
theorem neg?_eq_none_iff : a.neg? = none ↔ a = minValue := by
  have := a.le_toInt
  have := a.toInt_lt
  rw [neg?, ofInt?_eq_none_iff, ← toInt_inj, toInt_minValue]
  omega

/-- Only the least integer is without an opposite, so it neither has nor is one. -/
theorem ne_minValue_of_neg? (h : a.neg? = some c) : a ≠ minValue ∧ c ≠ minValue := by
  have hsymm : c.neg? = some a := by
    rw [neg?_eq_some_iff] at h ⊢
    omega
  simp [← neg?_eq_none_iff, h, hsymm]

/-- An absolute value has a result if and only if it fits into 64 bits, and then it is the exact
one. -/
theorem abs?_eq_some_iff : a.abs? = some c ↔ c.toInt = |a.toInt| := by
  rw [abs?, ofInt?_eq_some_iff, Int.natCast_natAbs]

theorem abs?_of_pos (h : 0 < a.toInt) : a.abs? = some a := by
  rw [abs?_eq_some_iff, abs_of_pos h]

/-- A base other than `0`, `1` and `-1` has no power of a large exponent within 64 bits. -/
theorem natAbs_le_one_of_pow {i v : Int} {n : Nat} (hn : 64 ≤ n) (hv : v = i ^ n)
    (hlo : -2 ^ 63 ≤ v) (hhi : v < 2 ^ 63) : i.natAbs ≤ 1 := by
  by_contra! h
  have hpow : 2 ^ 64 ≤ i.natAbs ^ n :=
    (Nat.pow_le_pow_right (by decide) hn).trans (Nat.pow_le_pow_left h n)
  rw [← Int.natAbs_pow, ← hv] at hpow
  omega

/-- A power that has a result is exact. -/
theorem pow?_eq_some {n : Nat} (h : a.pow? n = some c) : c.toInt = a.toInt ^ n := by
  rw [pow?, ofInt?_eq_some_iff] at h
  split at h
  · exact h
  · next hn =>
    have ha := natAbs_le_one_of_pow (by omega) h c.le_toInt c.toInt_lt
    have hcases : a.toInt = 0 ∨ a.toInt = 1 ∨ a.toInt = -1 := by omega
    rw [show c.toInt = a.toInt ^ (64 + n % 2) from h]
    rcases hcases with h0 | h1 | h1
    · rw [h0, zero_pow (by omega), zero_pow (by omega)]
    · rw [h1, one_pow, one_pow]
    · rw [h1, pow_add, neg_one_pow_eq_pow_mod_two (n := n)]
      norm_num

/-- A square root that has a result is exact and not negative. -/
theorem sqrt?_eq_some (h : a.sqrt? = some c) : 0 ≤ c.toInt ∧ c.toInt * c.toInt = a.toInt := by
  simp only [sqrt?] at h
  split at h
  · next hroot =>
    rw [ofInt?_eq_some_iff] at h
    rw [h, hroot]
    exact ⟨Int.natCast_nonneg _, rfl⟩
  · cases h

end Int64
