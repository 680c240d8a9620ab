import ComputerAlgebra.Proofs.Expr.Operands
import ComputerAlgebra.Proofs.Simplification.Flattening
import ComputerAlgebra.Proofs.Simplification.Groups
import ComputerAlgebra.Proofs.Sorted
import ComputerAlgebra.Simplification.Round

/-!
# The passes keep trees well formed

Each of the six passes gives sums and products of at least two operands when it is given such, and
collecting does so in any case, hence every round of them.
-/

namespace ComputerAlgebra

namespace Simplification

open Expr.WellFormed

variable {a b e : Expr} {es : List Expr}

/-! ### Flattening -/

/-- A list in place of each tree makes the whole no shorter, if none of the lists is empty. -/
theorem Flatten.length_le_of_two_le {f : Expr → List Expr} (h : ∀ e ∈ es, f e ≠ []) :
    es.length ≤ (es.flatMap f).length := by
  induction es with
  | nil => simp
  | cons e es ih =>
    have hpos := List.length_pos_of_ne_nil (h e List.mem_cons_self)
    have := ih fun e' he' => h e' (List.mem_cons_of_mem e he')
    simp only [List.flatMap_cons, List.length_append, List.length_cons]
    omega

/-- The addends of a well-formed tree are well-formed, and there are some. -/
theorem Flatten.addends_spec (h : e.WellFormed) :
    Flatten.addends e ≠ [] ∧ ∀ e' ∈ Flatten.addends e, e'.WellFormed := by
  cases h with
  | sum hlen h => exact ⟨List.ne_nil_of_length_pos (by simp only [addends]; omega), h⟩
  | _ => simp_all [addends]

/-- The factors of a well-formed tree are well-formed, and there are some. -/
theorem Flatten.factors_spec (h : e.WellFormed) :
    Flatten.factors e ≠ [] ∧ ∀ e' ∈ Flatten.factors e, e'.WellFormed := by
  cases h with
  | prod hlen h => exact ⟨List.ne_nil_of_length_pos (by simp only [factors]; omega), h⟩
  | _ => simp_all [factors]

theorem Flatten.wellFormed_splice (e : Expr) (h : e.WellFormed) : (splice e).WellFormed := by
  cases h with
  | sum hlen h =>
    refine .sum (hlen.trans (length_le_of_two_le fun e he => (addends_spec (h e he)).1)) ?_
    intro e he
    obtain ⟨e', he', hmem⟩ := List.mem_flatMap.1 he
    exact (addends_spec (h e' he')).2 e hmem
  | prod hlen h =>
    refine .prod (hlen.trans (length_le_of_two_le fun e he => (factors_spec (h e he)).1)) ?_
    intro e he
    obtain ⟨e', he', hmem⟩ := List.mem_flatMap.1 he
    exact (factors_spec (h e' he')).2 e hmem
  | _ => simp_all [splice]

theorem wellFormed_flatten (h : e.WellFormed) : (flatten e).WellFormed := by
  rw [flatten_eq_bottomUp]
  exact h.bottomUp Flatten.wellFormed_splice

/-! ### Identities -/

theorem Identities.wellFormed_quotient (ha : a.WellFormed) (hb : b.WellFormed) :
    (quotient a b).WellFormed := by
  rw [quotient]
  split_ifs
  exacts [ha, zero, one, .quot ha hb]

/-- A power of integers is an integer, or for a negative exponent one over an integer. -/
theorem Identities.integerPower?_eq_some {n m : Int64} (h : integerPower? n m = some e) :
    (0 ≤ m.toInt ∧ ∃ v, n.pow? m.toInt.toNat = some v ∧ e = .num v) ∨
      m.toInt < 0 ∧
        ∃ k v, m.neg? = some k ∧ n.pow? k.toInt.toNat = some v ∧ e = .quot 1 (.num v) := by
  rw [integerPower?] at h
  split_ifs at h with hm
  · rw [Int64.le_iff_toInt_le, Int64.toInt_zero] at hm
    obtain ⟨v, hv, rfl⟩ := Option.map_eq_some_iff.1 h
    exact .inl ⟨hm, v, hv, rfl⟩
  · rw [Int64.le_iff_toInt_le, Int64.toInt_zero, not_le] at hm
    simp only [Option.bind_eq_bind, Option.bind_eq_some_iff] at h
    obtain ⟨k, hk, v, hv, h⟩ := h
    cases h
    exact .inr ⟨hm, k, v, hk, hv, rfl⟩

/-- A power is trivial, a power of integers that fits, or kept. -/
theorem Identities.power_cases (a b : Expr) :
    (b = 0 ∨ a = 1) ∧ power a b = 1 ∨ b = 1 ∧ power a b = a ∨
      (∃ n m, a = .num n ∧ b = .num m ∧ integerPower? n m = some (power a b)) ∨
      b ≠ 1 ∧ power a b = .pow a b := by
  unfold power
  split_ifs with h0 h1
  · exact .inl ⟨h0, rfl⟩
  · exact .inr (.inl ⟨h1, rfl⟩)
  · split
    · next n m =>
      cases h : integerPower? n m with
      | none => exact .inr (.inr (.inr ⟨h1, rfl⟩))
      | some e => exact .inr (.inr (.inl ⟨n, m, rfl, rfl, h⟩))
    · exact .inr (.inr (.inr ⟨h1, rfl⟩))

theorem Identities.wellFormed_integerPower? {n m : Int64} (h : integerPower? n m = some e) :
    e.WellFormed := by
  obtain ⟨-, v, -, rfl⟩ | ⟨-, k, v, -, -, rfl⟩ := integerPower?_eq_some h
  · exact .num v
  · exact .quot one (.num v)

theorem Identities.wellFormed_power (ha : a.WellFormed) (hb : b.WellFormed) :
    (power a b).WellFormed := by
  obtain ⟨-, h⟩ | ⟨-, h⟩ | ⟨n, m, -, -, h⟩ | ⟨-, h⟩ := power_cases a b
  · rw [h]
    exact one
  · rwa [h]
  · exact wellFormed_integerPower? h
  · rw [h]
    exact .pow ha hb

/-- Identities keep trees well-formed: what they leave of a sum or a product is one only if there
are two operands. -/
theorem Identities.wellFormed_rule (e : Expr) (h : e.WellFormed) : (rule e).WellFormed := by
  cases h with
  | quot ha hb => exact wellFormed_quotient ha hb
  | pow ha hb => exact wellFormed_power ha hb
  | @prod es hlen h =>
    simp only [rule]
    split_ifs
    exacts [zero, .prod hlen h]
  | app f ha =>
    simp only [rule]
    split
    exacts [.num _, .app f ha]
  | _ => simp_all [rule]

theorem wellFormed_applyIdentities (h : e.WellFormed) : (applyIdentities e).WellFormed :=
  h.bottomUp Identities.wellFormed_rule

/-! ### Fractions -/

/-- A tree is a quotient, or its own numerator without a denominator. -/
theorem Fractions.eq_quot_or (e : Expr) :
    (∃ a b, e = .quot a b) ∨ numerator e = e ∧ denominator? e = none := by
  cases e with
  | quot a b => exact .inl ⟨a, b, rfl⟩
  | _ => exact .inr ⟨rfl, rfl⟩

theorem Fractions.wellFormed_quotient (ha : a.WellFormed) (hb : b.WellFormed) :
    (quotient a b).WellFormed := by
  unfold quotient
  split <;> simp_all

theorem Fractions.wellFormed_numerators (h : ∀ e ∈ es, e.WellFormed) :
    ∀ e ∈ es.map numerator, e.WellFormed := by
  refine List.forall_mem_map.2 fun e he => ?_
  cases h e he <;> simp_all [numerator]

theorem Fractions.wellFormed_denominators (h : ∀ e ∈ es, e.WellFormed) :
    ∀ e ∈ es.filterMap denominator?, e.WellFormed := by
  intro b hb
  obtain ⟨e, he, hb⟩ := List.mem_filterMap.1 hb
  cases h e he <;> simp_all [denominator?]

/-- Moving denominators out of a product keeps trees well-formed: there are as many numerators as
factors. -/
theorem Fractions.wellFormed_product (hlen : 2 ≤ es.length) (h : ∀ e ∈ es, e.WellFormed) :
    (product es).WellFormed := by
  rw [product]
  split
  · exact .prod hlen h
  · exact .quot (prodOf (wellFormed_numerators h)) (prodOf (wellFormed_denominators h))

theorem Fractions.wellFormed_rule (e : Expr) (h : e.WellFormed) : (rule e).WellFormed := by
  cases h with
  | quot ha hb => exact wellFormed_quotient ha hb
  | prod hlen h => exact wellFormed_product hlen h
  | _ => simp_all [rule]

theorem wellFormed_mergeFractions (h : e.WellFormed) : (mergeFractions e).WellFormed :=
  h.bottomUp Fractions.wellFormed_rule

/-! ### Like terms -/

/-- A group of like terms is well-formed if its members are combined by something that is. -/
theorem Collect.wellFormed_regroup {combine : Expr → Expr → Expr}
    (hcombine : ∀ a b, a.WellFormed → b.WellFormed → (combine a b).WellFormed)
    {g : Expr × List Expr} (hkey : g.1.WellFormed) (hvalues : ∀ v ∈ g.2, v.WellFormed) :
    (regroup combine g).WellFormed := by
  unfold regroup
  split
  · split_ifs
    · exact hkey
    · exact hcombine _ _ hkey (hvalues _ List.mem_cons_self)
  · exact hcombine _ _ hkey (sumOf hvalues)

/-- Base and exponent of a well-formed factor are well-formed. -/
theorem Collect.wellFormed_baseAndExponent (h : e.WellFormed) :
    (baseAndExponent e).1.WellFormed ∧ (baseAndExponent e).2.WellFormed := by
  cases h <;> simp_all [baseAndExponent, one]

/-- Term and coefficient of a well-formed addend are well-formed. -/
theorem Collect.wellFormed_termAndCoefficient (h : e.WellFormed) :
    (termAndCoefficient e).1.WellFormed ∧ (termAndCoefficient e).2.WellFormed := by
  unfold termAndCoefficient
  split
  · simp_all
  · exact ⟨h, one⟩

/-- Collecting makes well-formed nodes, whatever the number of operands was. -/
theorem Collect.wellFormed_rule_of_operands (e : Expr) (h : ∀ e' ∈ e.operands, e'.WellFormed) :
    (rule e).WellFormed := by
  cases e with
  | sum es =>
    have hpairs : ∀ p ∈ es.map termAndCoefficient, p.1.WellFormed ∧ p.2.WellFormed :=
      List.forall_mem_map.2 fun e he => wellFormed_termAndCoefficient (h e he)
    refine sumOf (List.forall_mem_map.2 fun g hg => ?_)
    exact wellFormed_regroup (fun a b ha hb => by simp [ha, hb])
      (forall_group_key _ (fun p hp => (hpairs p hp).1) g hg)
      (forall_group_value _ (fun p hp => (hpairs p hp).2) g hg)
  | prod es =>
    have hpairs : ∀ p ∈ es.map baseAndExponent, p.1.WellFormed ∧ p.2.WellFormed :=
      List.forall_mem_map.2 fun e he => wellFormed_baseAndExponent (h e he)
    refine prodOf (List.forall_mem_map.2 fun g hg => ?_)
    exact wellFormed_regroup (fun a b ha hb => .pow ha hb)
      (forall_group_key _ (fun p hp => (hpairs p hp).1) g hg)
      (forall_group_value _ (fun p hp => (hpairs p hp).2) g hg)
  | _ => simp_all [rule, Expr.operands]

theorem Collect.wellFormed_rule (e : Expr) (h : e.WellFormed) : (rule e).WellFormed :=
  wellFormed_rule_of_operands e fun _ => h.of_mem_operands

theorem wellFormed_collect (e : Expr) : (collect e).WellFormed :=
  .of_bottomUp Collect.wellFormed_rule_of_operands e

/-! ### Numbers -/

/-- A fraction is a well-formed tree. -/
theorem wellFormed_ofFraction (q : Fraction) : (Expr.ofFraction q).WellFormed := by
  rw [Expr.ofFraction]
  split_ifs <;> simp

theorem Fold.wellFormed_quotient (ha : a.WellFormed) (hb : b.WellFormed) :
    (quotient a b).WellFormed := by
  unfold quotient
  split
  · next n d =>
    split_ifs
    · exact .quot ha hb
    · cases Fraction.reduce? ⟨n, d⟩ with
      | none => exact .quot ha hb
      | some q => exact wellFormed_ofFraction q
  · exact .quot ha hb

theorem Fold.wellFormed_product (hlen : 2 ≤ es.length) (h : ∀ e ∈ es, e.WellFormed) :
    (product es).WellFormed := by
  have hothers : ∀ e ∈ es.filter fun e => e.num?.isNone, e.WellFormed := fun e he =>
    h e (List.mem_of_mem_filter he)
  simp only [product]
  split
  · exact .prod hlen h
  · split_ifs
    · exact zero
    · refine prodOf fun e he => ?_
      rcases List.mem_append.1 he with he | he
      · exact hothers e he
      · simp_all
    · exact prodOf hothers

theorem Fold.wellFormed_addends (hlen : 2 ≤ es.length) (h : ∀ e ∈ es, e.WellFormed) :
    (addends es).WellFormed := by
  have hothers : ∀ e ∈ es.filter fun e => e.fraction?.isNone, e.WellFormed := fun e he =>
    h e (List.mem_of_mem_filter he)
  simp only [addends]
  split_ifs
  · exact .sum hlen h
  · split
    · exact .sum hlen h
    · refine sumOf fun e he => ?_
      split_ifs at he
      · exact hothers e he
      · rcases List.mem_append.1 he with he | he
        · exact hothers e he
        · rw [List.mem_singleton.1 he]
          exact wellFormed_ofFraction _

theorem Fold.wellFormed_rule (e : Expr) (h : e.WellFormed) : (rule e).WellFormed := by
  cases h with
  | quot ha hb => exact wellFormed_quotient ha hb
  | prod hlen h => exact wellFormed_product hlen h
  | sum hlen h => exact wellFormed_addends hlen h
  | _ => simp_all [rule]

theorem wellFormed_fold (h : e.WellFormed) : (fold e).WellFormed :=
  h.bottomUp Fold.wellFormed_rule

/-! ### Sorting and rounds -/

theorem Sorting.wellFormed_rule (e : Expr) (h : e.WellFormed) : (rule e).WellFormed := by
  cases h with
  | @sum es hlen h =>
    have hperm := Sorted.sort_perm Expr.le es
    exact .sum (by rwa [hperm.length_eq]) fun e he => h e (hperm.mem_iff.1 he)
  | @prod es hlen h =>
    have hperm := Sorted.sort_perm Expr.le es
    exact .prod (by rwa [hperm.length_eq]) fun e he => h e (hperm.mem_iff.1 he)
  | _ => simp_all [rule]

theorem wellFormed_sortOperands (h : e.WellFormed) : (sortOperands e).WellFormed :=
  h.bottomUp Sorting.wellFormed_rule

theorem wellFormed_round (e : Expr) : (round e).WellFormed :=
  wellFormed_sortOperands <| wellFormed_fold <| wellFormed_collect _

end Simplification

end ComputerAlgebra
