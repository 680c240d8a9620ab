import ComputerAlgebra.Proofs.Real.Value

/-!
# Powers of real numbers

Under integer exponents all powers have a value but those of `0` with a negative exponent. Exponents
of one base add up wherever all the powers have a value.
-/

namespace ComputerAlgebra

namespace PowerDomain

variable {b x y : ℝ}

/-- A whole exponent is in the domain unless it is a negative one of `0`. -/
theorem intCast_iff {k : ℤ} : PowerDomain b k ↔ b ≠ 0 ∨ 0 ≤ k := by
  constructor
  · rintro (h | ⟨-, h⟩ | ⟨h, -⟩)
    · exact .inl h.ne'
    · exact .inr (by exact_mod_cast h)
    · exact .inl h.ne
  · intro h
    rcases lt_trichotomy b 0 with hb | rfl | hb
    · exact .inr (.inr ⟨hb, k, rfl⟩)
    · exact .inr (.inl ⟨rfl, by exact_mod_cast h.resolve_left (absurd rfl)⟩)
    · exact .inl hb

/-- Exponents in the domain can be added, and the power of their sum is the product of the
powers. -/
theorem add (hx : PowerDomain b x) (hy : PowerDomain b y) :
    PowerDomain b (x + y) ∧ b ^ (x + y) = b ^ x * b ^ y := by
  rcases lt_trichotomy b 0 with hb | rfl | hb
  · have hint : ∀ {z}, PowerDomain b z → ∃ k : ℤ, z = k := by
      rintro z (h | ⟨h, -⟩ | ⟨-, h⟩)
      · exact absurd h hb.not_gt
      · exact absurd h hb.ne
      · exact h
    obtain ⟨k, rfl⟩ := hint hx
    obtain ⟨l, rfl⟩ := hint hy
    rw [← Int.cast_add]
    refine ⟨.inr (.inr ⟨hb, k + l, rfl⟩), ?_⟩
    rw [Real.rpow_intCast, Real.rpow_intCast, Real.rpow_intCast, zpow_add₀ hb.ne]
  · have hnonneg : ∀ {z}, PowerDomain 0 z → 0 ≤ z := by
      rintro z (h | ⟨-, h⟩ | ⟨h, -⟩)
      · exact absurd h (lt_irrefl 0)
      · exact h
      · exact absurd h (lt_irrefl 0)
    have hx' := hnonneg hx
    have hy' := hnonneg hy
    exact ⟨.inr (.inl ⟨rfl, add_nonneg hx' hy'⟩), Real.rpow_add_of_nonneg le_rfl hx' hy'⟩
  · exact ⟨.inl hb, Real.rpow_add hb x y⟩

end PowerDomain

end ComputerAlgebra
