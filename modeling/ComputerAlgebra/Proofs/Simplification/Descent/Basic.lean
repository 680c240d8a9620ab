import ComputerAlgebra.Proofs.Simplification.Arity
import ComputerAlgebra.Proofs.Simplification.Measure

/-!
# The passes descend

On well-formed trees no pass increases the measure. A rule of a pass either leaves a node as it is,
up to the order of operands, or the measure drops; the exceptions are named where they occur.
-/

namespace ComputerAlgebra

namespace Simplification

open ComputerAlgebra.Expr

variable {a b e : Expr} {es : List Expr}

/-! ### Identities -/

/-- Identities of quotients have nothing to do or drop. -/
theorem Identities.quotient_drops (a b : Expr) :
    quotient a b = .quot a b ∨ Drops (.quot a b) (quotient a b) := by
  rw [quotient]
  split_ifs with h1 h2 h3
  · right
    left
    rw [weight_quot]
    omega
  · right
    left
    rw [weight_quot, weight_zero]
    omega
  · right
    left
    rw [weight_quot, weight_one]
    omega
  · exact .inl rfl

/-- A power of two integers is lighter than the power node. -/
theorem Identities.weight_integerPower? {n m : Int64} (hn : n ≠ 1) (hm : m ≠ 1)
    (h : integerPower? n m = some e) : e.weight < (Expr.pow (.num n) (.num m)).weight := by
  rw [weight_pow, if_neg (fun h0 => hn ((weight_num_eq_zero_iff n).1 h0))]
  rw [Ne, ← Int64.toInt_inj, Int64.toInt_one] at hn hm
  obtain ⟨hpos, v, hv, rfl⟩ | ⟨hneg, k, v, -, hv, rfl⟩ := integerPower?_eq_some h
  · have hsign : 0 ≤ n.toInt → 0 ≤ v.toInt := fun h0 => by
      rw [Int64.pow?_eq_some hv]
      exact pow_nonneg h0 _
    simp only [weight_num]
    split_ifs <;> omega
  · have hsign : 0 ≤ n.toInt → 0 ≤ v.toInt := fun h0 => by
      rw [Int64.pow?_eq_some hv]
      exact pow_nonneg h0 _
    simp only [weight_quot, weight_one, weight_num, signCost_num]
    split_ifs <;> omega

/-- Identities of powers have nothing to do or drop. -/
theorem Identities.power_drops (a b : Expr) :
    power a b = .pow a b ∨ Drops (.pow a b) (power a b) := by
  unfold power
  split_ifs with h1 h2
  · right
    simp only [Drops, weight_one, bars_one, slack_one, weight_pow, bars_pow, slack_pow]
    split_ifs <;> omega
  · subst h2
    right
    simp only [Drops, weight_one, bars_one, slack_one, weight_pow, bars_pow, slack_pow]
    split_ifs <;> omega
  · split
    · next n m =>
      cases hp : integerPower? n m with
      | none => exact .inl rfl
      | some e =>
        right
        left
        rw [not_or] at h1
        exact weight_integerPower? (fun h => h1.2 (congrArg _ h)) (fun h => h2 (congrArg _ h)) hp
    · exact .inl rfl

/-- The special values of the functions weigh at most as much as a variable. -/
theorem Identities.weight_valueAt? {f : Func} {n : Int64} (h : valueAt? f a = some n) :
    (num n).weight ≤ 1 := by
  have hnonneg : 0 ≤ n.toInt := by
    unfold valueAt? at h
    split at h
    case h_8 =>
      rw [Int64.abs?_eq_some_iff] at h
      rw [h]
      exact abs_nonneg _
    case h_9 => exact (Int64.sqrt?_eq_some h).1
    case h_11 => cases h
    all_goals
      split_ifs at h
      cases h
      decide
  rw [weight_num]
  split_ifs <;> omega

/-- A product with a factor `0` weighs at least as much as the `0`. -/
theorem Identities.weight_prod_zero (h0 : 0 ∈ es) : 1 ≤ (Expr.prod es).weight := by
  rw [weight_prod]
  exact List.le_sum_of_mem (List.mem_map_of_mem (f := weight) h0)

/-- A product with a factor `0` descends to `0`. -/
theorem Identities.prod_zero_descends (h0 : 0 ∈ es) : Descends (.prod es) 0 := by
  have hw := weight_prod_zero h0
  refine ⟨by simp, ?_⟩
  simp only [weight_zero, bars_zero, slack_zero]
  omega

theorem Identities.prod_zero_drops (hlen : 2 ≤ es.length) (h0 : 0 ∈ es)
    (h : idle es = es.countP fun e => e.weight = 0) : Drops (.prod es) 0 := by
  by_cases hw : (Expr.prod es).weight ≤ 1
  · -- a second factor has no weight left, so it is idle
    right
    have hperm := List.perm_cons_erase h0
    have hne : es.erase 0 ≠ [] := by
      intro hnil
      rw [hperm.length_eq, hnil] at hlen
      simp at hlen
    obtain ⟨e, he⟩ := List.exists_mem_of_ne_nil _ hne
    have hle := List.le_sum_of_mem (List.mem_map_of_mem (f := weight) he)
    have hidle : 0 < es.countP fun e => e.weight = 0 := by
      refine List.countP_pos_iff.2 ⟨e, List.mem_of_mem_erase he, decide_eq_true ?_⟩
      rw [weight_prod, (hperm.map weight).sum_eq, List.map_cons, List.sum_cons, weight_zero] at hw
      omega
    refine ⟨le_antisymm (weight_prod_zero h0) hw, Nat.zero_le _, ?_⟩
    rw [slack_prod, h, slack_zero]
    omega
  · left
    rw [weight_zero]
    omega

/-- A special value of a function drops. -/
theorem Identities.app_drops (f : Func) (a : Expr) :
    rule (.app f a) = .app f a ∨ Drops (.app f a) (rule (.app f a)) := by
  simp only [rule]
  split
  · next n hn =>
    right
    left
    have := weight_valueAt? hn
    rw [weight_app]
    omega
  · exact .inl rfl

theorem Identities.rule_descends (e : Expr) : Descends e (rule e) := by
  cases e with
  | quot a b =>
    rcases quotient_drops a b with h | h
    · rw [rule, h]
      exact .refl _
    · exact h.descends (by simp)
  | pow a b =>
    rcases power_drops a b with h | h
    · rw [rule, h]
      exact .refl _
    · exact h.descends (by simp)
  | prod es =>
    simp only [rule]
    split_ifs with h0
    · exact prod_zero_descends h0
    · exact .refl _
  | app f a =>
    rcases app_drops f a with h | h
    · rw [h]
      exact .refl _
    · exact h.descends (by simp)
  | _ => exact .refl _

/-- On its level an identity applies to no well-formed node. -/
theorem Identities.rule_drops (h : e.WellFormed) (hanc : e.Anchored) :
    rule e = e ∨ Drops e (rule e) := by
  cases h with
  | @quot a b _ _ => exact quotient_drops a b
  | @pow a b _ _ => exact power_drops a b
  | @prod es hlen _ =>
    simp only [rule]
    split_ifs with h0
    · exact .inr (prod_zero_drops hlen h0 (idle_eq hanc))
    · exact .inl rfl
  | @app f a _ => exact app_drops f a
  | _ => exact .inl rfl

theorem descends_applyIdentities (h : e.WellFormed) : Descends e (applyIdentities e) :=
  .bottomUp Identities.wellFormed_rule (fun e _ => Identities.rule_descends e) h

/-! ### Fractions -/

/-- Moving a denominator out of a numerator drops: it leaves one fraction bar less. -/
theorem Fractions.quotient_drops (a b : Expr) :
    quotient a b = .quot a b ∨ Drops (.quot a b) (quotient a b) := by
  unfold quotient
  split
  · next a c =>
    right
    left
    have := signCost_le (.prod [c, b])
    simp only [weight_quot, weight_prod, List.map_cons, List.map_nil, List.sum_cons, List.sum_nil]
    omega
  · next c d _ =>
    right
    left
    have := signCost_le c
    simp only [weight_quot, weight_prod, List.map_cons, List.map_nil, List.sum_cons, List.sum_nil]
    omega
  · exact .inl rfl

/-- Every fraction bar in a product costs something beside its operands. -/
theorem Fractions.weight_parts (es : List Expr) :
    ((es.map numerator).map weight).sum + ((es.filterMap denominator?).map weight).sum +
      2 * (es.filterMap denominator?).length ≤ (es.map weight).sum := by
  induction es with
  | nil => simp
  | cons e es ih =>
    rcases eq_quot_or e with ⟨a, b, rfl⟩ | ⟨hn, hd⟩
    · have hb : denominator? (.quot a b) = some b := rfl
      simp only [List.map_cons, List.filterMap_cons_some hb, List.sum_cons, List.length_cons,
        numerator, weight_quot]
      omega
    · simp only [List.map_cons, List.filterMap_cons_none hd, List.sum_cons, hn]
      omega

/-- Taking a numerator for its quotient makes at most one more factor idle. -/
theorem Fractions.idle_le (a b : Expr) (es : List Expr) :
    idle (a :: es) ≤ idle (.quot a b :: es) + 1 := by
  by_cases h1 : es.length = 1 ∧ 1 ∈ es
  · simp [idle, h1.1, h1.2, List.countP_cons]
    split_ifs <;> omega
  · have h1' : ¬((Expr.quot a b :: es).length = 2 ∧ 1 ∈ Expr.quot a b :: es) := by
      rintro ⟨hlen, h⟩
      rcases List.mem_cons.1 h with h | h
      · cases h
      · exact h1 ⟨by simpa using hlen, h⟩
    rw [idle, idle, if_neg h1', List.countP_cons, List.countP_cons]
    split_ifs <;> omega

/-- A product with a single quotient among its factors. -/
theorem Fractions.exists_of_denominators {b : Expr} (h : es.filterMap denominator? = [b]) :
    ∃ a fs, es.Perm (.quot a b :: fs) ∧ (es.map numerator).Perm (a :: fs) := by
  obtain ⟨l₁, q, l₂, rfl, h₁, hq, h₂⟩ := List.filterMap_eq_cons_iff.1 h
  rw [List.filterMap_eq_nil_iff] at h₂
  have hid : ∀ e, denominator? e = none → numerator e = e := fun e he => by
    rcases eq_quot_or e with ⟨a, b, rfl⟩ | ⟨hn, -⟩
    · cases he
    · exact hn
  have hmap : ∀ l : List Expr, (∀ e ∈ l, denominator? e = none) → l.map numerator = l :=
    fun l hl => (List.map_congr_left fun e he => hid e (hl e he)).trans (List.map_id l)
  rcases eq_quot_or q with ⟨a, b', rfl⟩ | ⟨-, hnone⟩
  · cases hq
    refine ⟨a, l₁ ++ l₂, List.perm_middle, ?_⟩
    rw [List.map_append, List.map_cons, hmap l₁ h₁, hmap l₂ h₂]
    exact List.perm_middle
  · rw [hnone] at hq
    cases hq

/-- Moving the only fraction bar out of a product. -/
theorem Fractions.single_drops {fs nums : List Expr} (hes : es.Perm (.quot a b :: fs))
    (hnum : nums.Perm (a :: fs)) : Drops (.prod es) (.quot (prodOf nums) b) := by
  right
  have hne : nums ≠ [] := fun h => by simp [h] at hnum
  have hidle := idle_le a b fs
  have hheavy : heavy (a :: fs) ≤ heavy (.quot a b :: fs) := by
    simp [heavy, List.countP_cons]
    split_ifs <;> omega
  have hslack := slack_prodOf_le nums
  have hred := reductionCost_le (prodOf nums) b
  rw [(prod_perm hnum).2.2] at hslack
  rw [(prod_perm hes).1, (prod_perm hes).2.1, (prod_perm hes).2.2]
  simp only [slack_prod, List.map_cons, List.sum_cons] at hslack
  simp only [weight_quot, weight_prod, weight_prodOf hne, bars_quot, bars_prod, bars_prodOf,
    slack_quot, slack_prod, (hnum.map _).sum_eq, List.map_cons, List.sum_cons]
  refine ⟨by omega, by omega, by omega⟩

/-- Moving denominators out of a product drops, if there are any. -/
theorem Fractions.product_drops (hlen : 2 ≤ es.length) :
    product es = .prod es ∨ Drops (.prod es) (product es) := by
  have hparts := weight_parts es
  have hne : es.map numerator ≠ [] := List.ne_nil_of_length_pos (by simp; omega)
  rw [product]
  rcases hdens : es.filterMap denominator? with _ | ⟨b, _ | ⟨b', dens⟩⟩
  · exact .inl rfl
  · obtain ⟨a, fs, hes, hnum⟩ := exists_of_denominators hdens
    exact .inr (single_drops hes hnum)
  · right
    left
    have hsign := signCost_le (prodOf (b :: b' :: dens))
    rw [hdens, List.length_cons, List.length_cons] at hparts
    simp only [weight_quot, weight_prodOf hne, weight_prodOf (List.cons_ne_nil _ _), weight_prod]
    omega

/-- The rule for fractions has nothing to do or drops. -/
theorem Fractions.rule_drops (h : e.WellFormed) : rule e = e ∨ Drops e (rule e) := by
  cases h with
  | @quot a b _ _ => exact quotient_drops a b
  | prod hlen _ => exact product_drops hlen
  | _ => exact .inl rfl

theorem Fractions.rule_descends (h : e.WellFormed) : Descends e (rule e) := by
  rcases rule_drops h with heq | hdrop
  · rw [heq]
    exact .refl e
  · refine hdrop.descends ?_
    rintro n rfl
    exact hdrop.not_level (.refl _)

theorem descends_mergeFractions (h : e.WellFormed) : Descends e (mergeFractions e) :=
  .bottomUp Fractions.wellFormed_rule (fun _ => Fractions.rule_descends) h

/-! ### Sorting -/

/-- Sorting stays at its level. -/
theorem Sorting.rule_descends (e : Expr) : Descends e (rule e) := by
  cases e with
  | sum es => exact .of_sum_perm (Sorted.sort_perm Expr.le es).symm
  | prod es => exact .of_prod_perm (Sorted.sort_perm Expr.le es).symm
  | _ => exact .refl _

theorem descends_sortOperands (h : e.WellFormed) : Descends e (sortOperands e) :=
  .bottomUp Sorting.wellFormed_rule (fun e _ => Sorting.rule_descends e) h

end Simplification

end ComputerAlgebra
