import ComputerAlgebra.Proofs.Rational.Folding
import ComputerAlgebra.Proofs.Real.Exact
import ComputerAlgebra.Proofs.Simplification.Constants

/-!
# Whole exponents

Collecting adds the exponents of equal bases, so that an integer exponent may become a sum, a
multiple or a power of integers that cannot be added up in 64 bits. Such trees of positive integers
are `Whole`. All passes keep them whole, with their values (`KeepsWhole`), and at rest they are
integers unless they are `Vast`, too large for 64 bits (`Resting.eq_num`).
-/

namespace ComputerAlgebra

open Magnitude

namespace Expr

/-- Sums, products and powers of positive integers. -/
inductive Whole : Expr → Prop where
  | num {n : Int64} (h : 0 < n.toInt) : Whole (.num n)
  | sum {es : List Expr} (hlen : 2 ≤ es.length) (h : ∀ e ∈ es, Whole e) : Whole (.sum es)
  | prod {es : List Expr} (hlen : 2 ≤ es.length) (h : ∀ e ∈ es, Whole e) : Whole (.prod es)
  | pow {a b : Expr} (ha : Whole a) (hb : Whole b) : Whole (.pow a b)

variable {a b e : Expr} {es : List Expr}

namespace Whole

theorem one : Whole 1 := .num (by simp)

theorem num_iff {n : Int64} : Whole (.num n) ↔ 0 < n.toInt := ⟨fun | .num h => h, .num⟩

/-- What is whole is not `0`. -/
theorem ne_zero (h : Whole e) : e ≠ 0 := by
  rintro rfl
  exact absurd (num_iff.1 h) (by decide)

theorem sumOf (hne : es ≠ []) (h : ∀ e ∈ es, Whole e) : Whole (.sumOf es) := by
  match es, hne with
  | [e], _ => exact h e List.mem_cons_self
  | e :: e' :: es, _ => exact .sum (by simp) h

theorem prodOf (hne : es ≠ []) (h : ∀ e ∈ es, Whole e) : Whole (.prodOf es) := by
  match es, hne with
  | [e], _ => exact h e List.mem_cons_self
  | e :: e' :: es, _ => exact .prod (by simp) h

theorem operand (h : Whole e) : ∀ e' ∈ e.operands, Whole e' := by
  cases h with
  | num h => simp [operands]
  | sum hlen h => exact h
  | prod hlen h => exact h
  | pow ha hb => simpa [operands] using ⟨ha, hb⟩

/-- A whole number is closed, and its magnitude has the denominator `1` and no signs. -/
theorem closed_isPositive (h : Whole e) : Closed e ∧ e.magnitude.IsPositive := by
  induction h with
  | @num n h => exact ⟨.num n, by rwa [magnitude_num, isPositive_ofInt_iff]⟩
  | sum hlen _ ih =>
    refine ⟨.sum hlen fun e he => (ih e he).1, ?_⟩
    rw [magnitude_sum]
    exact (IsPositive.pow_sum 1 (List.forall_mem_map.2 fun e he => (ih e he).2)).1
  | prod hlen _ ih =>
    refine ⟨.prod hlen fun e he => (ih e he).1, ?_⟩
    rw [magnitude_prod]
    exact IsPositive.prod (List.forall_mem_map.2 fun e he => (ih e he).2)
  | pow _ _ iha ihb =>
    refine ⟨.pow iha.1 ihb.1 ihb.2, ?_⟩
    rw [magnitude_pow]
    exact iha.2.pow _

theorem closed (h : Whole e) : Closed e := h.closed_isPositive.1

theorem isPositive (h : Whole e) : e.magnitude.IsPositive := h.closed_isPositive.2

theorem one_le (h : Whole e) : 1 ≤ e.magnitude.num := h.closed.one_le_magnitude.1

/-- The magnitude of a sum of whole numbers is the sum of their magnitudes. -/
theorem num_sum (h : ∀ e ∈ es, Whole e) :
    (Expr.sum es).magnitude.num = (es.map fun e => e.magnitude.num).sum := by
  rw [magnitude_sum, IsPositive.num_sum (List.forall_mem_map.2 fun e he => (h e he).isPositive),
    List.map_map]
  rfl

/-- Exponents are added as the numbers of factors they count. -/
theorem num_sumOf (hne : es ≠ []) (h : ∀ e ∈ es, Whole e) :
    (Expr.sumOf es).magnitude.num = (es.map fun e => e.magnitude.num).sum := by
  rw [magnitude_sumOf hne, ← magnitude_sum, num_sum h]

/-- A tree of positive integers has the integer that it is written for as its value. -/
theorem value {K : Type} [Field K] [LinearOrder K] [ExactNumbers K] (ρ : String → K)
    (h : Whole e) : Exact.Defined ρ e ∧ Exact.value ρ e = e.magnitude.num := by
  induction h with
  | @num n h =>
    refine ⟨.num n, ?_⟩
    rw [Exact.value_num, magnitude_num, num_ofInt h]
    exact_mod_cast congrArg (Int.cast : ℤ → K) (Int.toNat_of_nonneg h.le).symm
  | @sum es hlen h ih =>
    refine ⟨.sum fun e he => (ih e he).1, ?_⟩
    rw [Exact.value_sum, List.map_congr_left fun e he => (ih e he).2, num_sum h, Nat.cast_list_sum,
      List.map_map]
    rfl
  | @prod es hlen h ih =>
    refine ⟨.prod fun e he => (ih e he).1, ?_⟩
    rw [Exact.value_prod, List.map_congr_left fun e he => (ih e he).2, magnitude_prod, num_prod,
      Nat.cast_list_prod, List.map_map, List.map_map]
    rfl
  | @pow a b _ _ iha ihb =>
    have hdom : ExactNumbers.PowerDomain (Exact.value ρ a) ((b.magnitude.num : ℤ) : K) :=
      ExactNumbers.powerDomain_intCast.2 (.inr (Int.natCast_nonneg _))
    have hcast : Exact.value ρ b = ((b.magnitude.num : ℤ) : K) := by rw [ihb.2]; push_cast; rfl
    refine ⟨.pow iha.1 ihb.1 (hcast ▸ hdom), ?_⟩
    rw [Exact.value_pow, hcast, ExactNumbers.power_intCast hdom, iha.2, zpow_natCast, magnitude_pow,
      num_pow, Nat.cast_pow]

/-- A whole number has its magnitude as its value. -/
theorem real (ρ : String → ℝ) (h : Whole e) : e.real ρ = e.magnitude.num := by
  rw [← value_eq_real, (h.value ρ).2]

/-- All numbers have powers with whole exponents. -/
theorem powerDomain (h : Whole e) (ρ : String → ℝ) (x : ℝ) : PowerDomain x (e.real ρ) := by
  rw [h.real]
  exact_mod_cast PowerDomain.intCast_iff.2 (.inr (Int.natCast_nonneg e.magnitude.num))

/-- A rule that keeps nodes whole keeps trees whole. -/
theorem bottomUp {rule : Expr → Expr} (hrule : ∀ e, Whole e → Whole (rule e)) (h : Whole e) :
    Whole (e.bottomUp rule) := by
  induction h with
  | num h => simpa using hrule _ (.num h)
  | sum hlen _ ih =>
    rw [bottomUp_sum]
    exact hrule _ (.sum (by simpa using hlen) (List.forall_mem_map.2 ih))
  | prod hlen _ ih =>
    rw [bottomUp_prod]
    exact hrule _ (.prod (by simpa using hlen) (List.forall_mem_map.2 ih))
  | pow _ _ iha ihb =>
    rw [bottomUp_pow]
    exact hrule _ (.pow iha ihb)

end Whole

end Expr

namespace Simplification

open ComputerAlgebra.Expr

variable {a b e e' : Expr} {es vs : List Expr}

/-! ### Rules on whole nodes -/

theorem Flatten.whole_addends (h : Whole e) : ∀ e' ∈ addends e, Whole e' := by
  cases e with
  | sum es => exact h.operand
  | _ => simpa [addends] using h

theorem Flatten.whole_factors (h : Whole e) : ∀ e' ∈ factors e, Whole e' := by
  cases e with
  | prod es => exact h.operand
  | _ => simpa [factors] using h

theorem Flatten.whole_splice (h : Whole e) : Whole (splice e) := by
  cases h with
  | @sum es hlen h =>
    refine .sum (hlen.trans (length_le_of_two_le fun e he => (closed_addends (h e he).closed).1)) ?_
    intro e' he'
    obtain ⟨e, he, he'⟩ := List.mem_flatMap.1 he'
    exact whole_addends (h e he) e' he'
  | @prod es hlen h =>
    refine .prod
      (hlen.trans (length_le_of_two_le fun e he => (closed_factors (h e he).closed).1)) ?_
    intro e' he'
    obtain ⟨e, he, he'⟩ := List.mem_flatMap.1 he'
    exact whole_factors (h e he) e' he'
  | num h => exact .num h
  | pow ha hb => exact .pow ha hb

theorem Identities.whole_rule (h : Whole e) : Whole (rule e) := by
  cases h with
  | @prod es hlen h =>
    rw [rule, if_neg fun h0 => (h 0 h0).ne_zero rfl]
    exact .prod hlen h
  | @pow a b ha hb =>
    show Whole (power a b)
    obtain ⟨-, heq⟩ | ⟨-, heq⟩ | ⟨n, m, rfl, rfl, heq⟩ | ⟨-, heq⟩ := power_cases a b
    · rw [heq]
      exact .one
    · rwa [heq]
    · obtain ⟨-, v, hv, heq⟩ | ⟨hneg, -⟩ := integerPower?_eq_some heq
      · rw [heq, Whole.num_iff, Int64.pow?_eq_some hv]
        exact pow_pos (Whole.num_iff.1 ha) _
      · have := Whole.num_iff.1 hb
        omega
    · rw [heq]
      exact .pow ha hb
  | num h => exact .num h
  | sum hlen h => exact .sum hlen h

/-- In a whole number there is no denominator to move. -/
theorem Fractions.rule_of_whole (h : Whole e) : rule e = e := by
  cases h with
  | @prod es hlen h =>
    have hnone : es.filterMap denominator? = [] := List.filterMap_eq_nil_iff.2 fun e he => by
      cases h e he <;> rfl
    simp [rule, product, hnone]
  | _ => rfl

theorem Collect.whole_rule (h : Whole e) : Whole (rule e) := by
  cases h with
  | @sum es hlen h =>
    -- the coefficient of a whole term is whole, for it is a factor of it or `1`
    have hpairs : ∀ p ∈ es.map termAndCoefficient, Whole p.1 ∧ Whole p.2 :=
      List.forall_mem_map.2 fun e he => by
        unfold termAndCoefficient
        split
        · have hops := (h _ he).operand
          simp only [operands, List.forall_mem_cons] at hops
          exact ⟨hops.2.1, hops.1⟩
        · exact ⟨h e he, .one⟩
    have hne : group (es.map termAndCoefficient) ≠ [] := group_ne_nil_of_ne_nil <| by
      simpa using List.ne_nil_of_length_pos (by omega : 0 < es.length)
    refine .sumOf (by simpa using hne) (List.forall_mem_map.2 fun g hg => ?_)
    have hkey := forall_group_key _ (fun p hp => (hpairs p hp).1) g hg
    have hvalues := forall_group_value _ (fun p hp => (hpairs p hp).2) g hg
    rcases regroup_eq (fun t c => .prod [c, t]) (group_ne_nil _ g hg) with ⟨heq, -⟩ | heq
    · exact heq ▸ hkey
    · rw [heq]
      exact .prod (by simp) (by simpa using ⟨.sumOf (group_ne_nil _ g hg) hvalues, hkey⟩)
  | @prod es hlen h =>
    -- so is the exponent of a whole factor
    have hpairs : ∀ p ∈ es.map baseAndExponent, Whole p.1 ∧ Whole p.2 :=
      List.forall_mem_map.2 fun e he => by
        have hwhole := h e he
        cases hwhole with
        | pow ha hb => exact ⟨ha, hb⟩
        | _ => exact ⟨h _ he, .one⟩
    have hne : group (es.map baseAndExponent) ≠ [] := group_ne_nil_of_ne_nil <| by
      simpa using List.ne_nil_of_length_pos (by omega : 0 < es.length)
    refine .prodOf (by simpa using hne) (List.forall_mem_map.2 fun g hg => ?_)
    have hkey := forall_group_key _ (fun p hp => (hpairs p hp).1) g hg
    have hvalues := forall_group_value _ (fun p hp => (hpairs p hp).2) g hg
    rcases regroup_eq .pow (group_ne_nil _ g hg) with ⟨heq, -⟩ | heq
    · exact heq ▸ hkey
    · exact heq ▸ .pow hkey (.sumOf (group_ne_nil _ g hg) hvalues)
  | num h => exact .num h
  | pow ha hb => exact .pow ha hb

/-- Folding a product of whole numbers gives a whole number, folded or not. -/
theorem Fold.whole_product (hlen : 2 ≤ es.length) (h : ∀ e ∈ es, Whole e) :
    Whole (product es) := by
  have hothers : ∀ e ∈ es.filter fun e => e.num?.isNone, Whole e := fun e he =>
    h e (List.mem_of_mem_filter he)
  obtain heq | ⟨c, hc, hcases⟩ := product_cases es
  · exact heq ▸ .prod hlen h
  have hpos : 0 < c.toInt := by
    rw [hc]
    refine List.prod_pos (List.forall_mem_map.2 fun n hn => ?_)
    obtain ⟨e, he, hn⟩ := List.mem_filterMap.1 hn
    have hwhole := h e he
    cases hwhole with
    | num hpos =>
      cases hn
      exact hpos
    | _ => cases hn
  obtain ⟨h0, -⟩ | ⟨-, hne, heq⟩ | ⟨-, heq⟩ := hcases
  · rw [h0] at hpos
    simp at hpos
  · exact heq ▸ .prodOf hne hothers
  · rw [heq]
    exact .prodOf (by simp)
      (List.forall_mem_append.2 ⟨hothers, List.forall_mem_singleton.2 (.num hpos)⟩)

/-- Positive integers have a positive integer as their sum. -/
theorem Fold.whole_addends (hlen : 2 ≤ es.length) (h : ∀ e ∈ es, Whole e) :
    Whole (addends es) := by
  have hothers : ∀ e ∈ es.filter fun e => e.fraction?.isNone, Whole e := fun e he =>
    h e (List.mem_of_mem_filter he)
  -- in a whole sum only positive integers are folded
  have hints : ∀ q ∈ es.filterMap fraction?, q.den = 1 ∧ 0 < q.num.toInt := fun q hq => by
    obtain ⟨e, he, hq⟩ := List.mem_filterMap.1 hq
    have hwhole := h e he
    cases hwhole with
    | num hpos =>
      cases hq
      exact ⟨rfl, hpos⟩
    | _ => cases hq
  have hdens : ∀ q ∈ es.filterMap fraction?, q.den ≠ 0 := fun q hq => by
    rw [(hints q hq).1]
    decide
  by_cases hnil : es.filterMap fraction? = []
  · rw [addends, if_pos (.inl hnil)]
    exact .sum hlen h
  cases hsum : Fraction.sum? (es.filterMap fraction?) with
  | none =>
    rw [addends]
    simp only [hsum]
    split_ifs <;> exact .sum hlen h
  | some q =>
    obtain ⟨hlow, hval⟩ := Fraction.sum?_eq_some hdens hsum
    -- their sum is a positive integer, so it is folded to one
    have hint : q.toRat = ((((es.filterMap fraction?).map fun q => q.num.toInt).sum : ℤ) : ℚ) := by
      rw [hval, Int.cast_list_sum, List.map_map]
      refine congrArg _ (List.map_congr_left fun q hq => ?_)
      simp [Fraction.toRat, (hints q hq).1]
    have hpos : 0 < ((es.filterMap fraction?).map fun q => q.num.toInt).sum :=
      List.sum_pos _ (List.forall_mem_map.2 fun q hq => (hints q hq).2) (by simpa using hnil)
    have hnum := hlow.num_eq
    have hden := hlow.den_eq
    rw [hint, Rat.num_intCast] at hnum
    rw [hint, Rat.den_intCast] at hden
    have hone : q.den = 1 := Int64.toInt_inj.1 (by rw [Int64.toInt_one]; omega)
    have hwhole : Whole (ofFraction q) := by
      rw [ofFraction, if_pos hone]
      exact .num (by omega)
    have h0 : q.num ≠ 0 := Int64.ne_zero_iff_toInt_ne_zero.2 (by omega)
    rw [addends_eq hnil hdens hsum, if_neg h0]
    exact .sumOf (by simp)
      (List.forall_mem_append.2 ⟨hothers, List.forall_mem_singleton.2 hwhole⟩)

theorem Fold.whole_rule (h : Whole e) : Whole (rule e) := by
  cases h with
  | sum hlen h => exact whole_addends hlen h
  | prod hlen h => exact whole_product hlen h
  | num h => exact .num h
  | pow ha hb => exact .pow ha hb

theorem Sorting.whole_rule (h : Whole e) : Whole (rule e) := by
  cases h with
  | @sum es hlen h =>
    have hperm := Sorted.sort_perm Expr.le es
    exact .sum (by rwa [hperm.length_eq]) fun e he => h e (hperm.mem_iff.1 he)
  | @prod es hlen h =>
    have hperm := Sorted.sort_perm Expr.le es
    exact .prod (by rwa [hperm.length_eq]) fun e he => h e (hperm.mem_iff.1 he)
  | num h => exact .num h
  | pow ha hb => exact .pow ha hb

/-! ### Passes on whole trees -/

/-- The pass of the rule keeps whole trees whole, and the integers that they are written for. -/
def KeepsWhole (rule : Expr → Expr) : Prop := ∀ b, Whole b →
  Whole (b.bottomUp rule) ∧ (b.bottomUp rule).magnitude.num = b.magnitude.num

/-- It is enough that the rule keeps nodes whole and that its pass keeps values. -/
theorem keepsWhole_of_refines {rule : Expr → Expr} (hrule : ∀ e, Whole e → Whole (rule e))
    (hvalue : ∀ e, e.WellFormed → Exact.Refines ℝ e (e.bottomUp rule)) : KeepsWhole rule := by
  intro b hb
  have hb' := hb.bottomUp hrule
  obtain ⟨-, heq⟩ := hvalue b hb.closed.wellFormed (fun _ => 0) (hb.value _).1
  rw [(hb'.value _).2, (hb.value _).2] at heq
  exact ⟨hb', by exact_mod_cast heq⟩

theorem Flatten.keepsWhole : KeepsWhole splice :=
  keepsWhole_of_refines (fun _ => whole_splice) fun e h => flatten_eq_bottomUp e ▸ refines_flatten h

theorem Identities.keepsWhole : KeepsWhole rule :=
  keepsWhole_of_refines (fun _ => whole_rule) fun _ => refines_applyIdentities

theorem Fractions.keepsWhole : KeepsWhole rule :=
  keepsWhole_of_refines (fun _ h => (rule_of_whole h).symm ▸ h) fun _ => refines_mergeFractions

theorem Collect.keepsWhole : KeepsWhole rule :=
  keepsWhole_of_refines (fun _ => whole_rule) fun _ => refines_collect

/-! ### Vast exponents -/

/-- A tree of positive integers that is written for an integer beyond 64 bits. -/
def Vast (b : Expr) : Prop := Whole b ∧ 2 ^ 63 ≤ b.magnitude.num

theorem not_vast_num (n : Int64) : ¬Vast (.num n) := by
  rintro ⟨hwhole, hle⟩
  have hpos := Whole.num_iff.1 hwhole
  have hlt := n.toInt_lt
  rw [magnitude_num, num_ofInt hpos] at hle
  omega

/-- A number too large for 64 bits is not read as a fraction. -/
theorem Vast.fraction?_eq_none (h : Vast b) : b.fraction? = none := by
  cases b with
  | num n => exact absurd h (not_vast_num n)
  | quot a b => cases h.1
  | _ => rfl

/-- A pass that keeps whole numbers keeps those that are too large for 64 bits. -/
theorem Vast.bottomUp {rule : Expr → Expr} (hrule : KeepsWhole rule) (h : Vast b) :
    Vast (b.bottomUp rule) := by
  obtain ⟨hwhole, heq⟩ := hrule b h.1
  exact ⟨hwhole, heq ▸ h.2⟩

/-- A sum of numbers too large for 64 bits is one. -/
theorem Vast.sumOf (hne : vs ≠ []) (h : ∀ v ∈ vs, Vast v) : Vast (.sumOf vs) := by
  have hwhole : ∀ v ∈ vs, Whole v := fun v hv => (h v hv).1
  obtain ⟨v, hv⟩ := List.exists_mem_of_ne_nil vs hne
  refine ⟨.sumOf hne hwhole, (h v hv).2.trans ?_⟩
  rw [Whole.num_sumOf hne hwhole]
  exact List.single_le_sum (fun _ _ => Nat.zero_le _) _
    (List.mem_map_of_mem (f := fun e : Expr => e.magnitude.num) hv)

/-- At rest, a tree of positive integers that is not vast has been folded to an integer. -/
theorem Resting.eq_num (h : Resting b) (hwhole : Whole b) (hvast : ¬Vast b) :
    ∃ n : Int64, 0 < n.toInt ∧ b = .num n := by
  have hbounded : Bounded b := ⟨hwhole.closed,
    ⟨not_le.1 fun hle => hvast ⟨hwhole, hle⟩, hwhole.isPositive.den.trans_lt (by decide),
      hwhole.isPositive.signs.trans_lt (by decide)⟩, h.identities, h.quiet.anchored⟩
  have hquot : Everywhere NoFractionPower b := by
    clear h hbounded hvast
    induction b using operands_induct with
    | node b ih =>
      refine .node (fun n d c heq => ?_) fun b' hb' => ih b' hb' (hwhole.operand b' hb')
      cases hwhole.operand (.quot (.num n) (.num d)) (by simp [heq, operands])
  obtain ⟨n, rfl⟩ := (h.isNumber hbounded (hwhole.value (K := ℝ) fun _ => 0).1 hquot).eq_num
    (by rintro a b rfl; cases hwhole)
  exact ⟨n, Whole.num_iff.1 hwhole, rfl⟩

end Simplification

end ComputerAlgebra
