import ComputerAlgebra.Proofs.Simplification.Descent.Basic
import ComputerAlgebra.Proofs.Simplification.Numbers

/-!
# Folding numbers descends

A number costs by its sign and by whether it is an integer, so the number that several are folded to
costs no more than they do.
-/

namespace ComputerAlgebra

namespace Simplification

open ComputerAlgebra.Expr

namespace Fold

variable {a b e : Expr} {es : List Expr} {q r : Fraction}

/-! ### Quotients -/

/-- A reduced fraction weighs no more than the quotient from which it comes. -/
theorem weight_ofFraction_le {n d : Int64} (hd : d ≠ 0) (hq : q.IsLowest)
    (hval : q.toRat = Fraction.toRat ⟨n, d⟩) :
    (ofFraction q).weight ≤ (Expr.quot (.num n) (.num d)).weight := by
  have hpos := hq.den_pos
  have hsign : q.num.toInt < 0 ↔ n.toInt < 0 ∧ 0 < d.toInt ∨ 0 < n.toInt ∧ d.toInt < 0 := by
    rw [hq.num_neg_iff, hval, Fraction.toRat_neg_iff]
  obtain ⟨hnum, hden⟩ := hq.dvd (r := ⟨n, d⟩) hd hval
  rw [Int64.ne_zero_iff_toInt_ne_zero] at hd
  have hden' : q.den.toInt.natAbs ≤ d.toInt.natAbs := Int.natAbs_le_of_dvd_ne_zero hden hd
  have hnum' : n.toInt ≠ 0 → q.num.toInt.natAbs ≤ n.toInt.natAbs :=
    Int.natAbs_le_of_dvd_ne_zero hnum
  have hzero : q.num.toInt = 0 → q.den.toInt.natAbs = 1 := fun h0 => by
    have := hq.coprime
    rwa [h0, Int.natAbs_zero, Nat.coprime_zero_left] at this
  rw [ofFraction]
  split_ifs with h1
  · simp only [weight_quot, weight_num, signCost_num]
    split_ifs <;> omega
  · rw [← Int64.toInt_inj, Int64.toInt_one] at h1
    simp only [weight_quot, weight_num, signCost_num]
    split_ifs <;> omega

theorem bars_ofFraction (q : Fraction) : (ofFraction q).bars = if q.den = 1 then 0 else 1 := by
  rw [ofFraction]
  split_ifs <;> rfl

theorem slack_ofFraction (hq : q.IsLowest) : (ofFraction q).slack = 0 := by
  rw [ofFraction]
  split_ifs with h1
  · rfl
  · rw [slack_quot, slack_num, slack_num, reductionCost, if_pos (.inr ⟨hq, h1⟩)]

/-- A quotient of integers is in lowest terms, or it drops when it is reduced. -/
theorem ofFraction_drops {n d : Int64} (hd : d ≠ 0) (hq : q.IsLowest)
    (hval : q.toRat = Fraction.toRat ⟨n, d⟩) :
    ofFraction q = .quot (.num n) (.num d) ∨ Drops (.quot (.num n) (.num d)) (ofFraction q) := by
  by_cases hlow : Fraction.IsLowest ⟨n, d⟩ ∧ d ≠ 1
  · left
    rw [hq.eq_of_toRat_eq hlow.1 hval, ofFraction, if_neg hlow.2]
  · right
    have hw := weight_ofFraction_le hd hq hval
    have hb : (ofFraction q).bars ≤ 1 := by
      rw [bars_ofFraction]
      split_ifs <;> simp
    have hred : reductionCost (.num n) (.num d) = 1 := by
      rw [reductionCost, if_neg]
      exact fun h => h.elim hd hlow
    rw [Drops, slack_ofFraction hq, slack_quot, hred, bars_quot]
    omega

/-- Folding a quotient has nothing to do or drops. -/
theorem quotient_drops (a b : Expr) :
    quotient a b = .quot a b ∨ Drops (.quot a b) (quotient a b) := by
  unfold quotient
  split
  · next n d =>
    split_ifs with hd
    · exact .inl rfl
    · cases hr : Fraction.reduce? ⟨n, d⟩ with
      | none => exact .inl rfl
      | some q =>
        obtain ⟨hlow, hval⟩ := Fraction.reduce?_eq_some hd hr
        exact ofFraction_drops hd hlow hval
  · exact .inl rfl

/-! ### Integers among factors -/

/-- What becomes of the product of some factors: the product of the same factors in some order, the
other one of two factors of which one is `1`, or a drop. -/
inductive ProductFolds (es : List Expr) : Expr → Prop where
  | perm {fs : List Expr} (h : fs.Perm es) : ProductFolds es (.prod fs)
  | other {a : Expr} (h : es.Perm [1, a]) : ProductFolds es a
  | drops {e : Expr} (h : Drops (.prod es) e) : ProductFolds es e

/-- Dropping ones from a product folds it. -/
theorem drop_ones {fs : List Expr} {k : ℕ} (hlen : 2 ≤ es.length) (hfs : fs ≠ [])
    (h : es.Perm (List.replicate k 1 ++ fs)) : ProductFolds es (prodOf fs) := by
  have hleneq := h.length_eq
  rw [List.length_append, List.length_replicate] at hleneq
  -- without ones to drop the factors are reordered only
  match k with
  | 0 =>
    rw [List.replicate_zero, List.nil_append] at h
    rw [prodOf_of_two_le (h.length_eq ▸ hlen)]
    exact .perm h.symm
  | k + 1 =>
    by_cases hlen2 : es.length = 2
    -- of two factors one is `1`, which becomes the other one
    · match fs, hfs with
      | [a], _ =>
        have hk : k = 0 := by
          rw [List.length_singleton] at hleneq
          omega
        subst hk
        exact .other h
      | a :: b :: fs, _ =>
        simp only [List.length_cons] at hleneq
        omega
    -- the ones count among the idle factors, so they are paid for
    · refine .drops (.inr ?_)
      have hidle : idle es = es.countP fun e => e.weight = 0 := by
        rw [idle, if_neg (fun h => hlen2 h.1), Nat.sub_zero]
      have hslack := slack_prod_add hidle
      have hslack' := slack_prod_le fs
      have hof := slack_prodOf_le fs
      have hweight : (es.map weight).sum = (fs.map weight).sum := by
        simp [(h.map weight).sum_eq]
      have hbars : (es.map bars).sum = (fs.map bars).sum := by
        simp [(h.map bars).sum_eq]
      have hcost : (es.map factorCost).sum = (k + 1) * 2 + (fs.map factorCost).sum := by
        rw [(h.map factorCost).sum_eq, List.map_append, List.map_replicate, List.sum_append,
          List.sum_replicate]
        rfl
      have hheavy : heavy es = 0 ↔ heavy fs = 0 := by
        rw [heavy_eq_zero_iff, heavy_eq_zero_iff, hweight]
      simp only [hheavy] at hslack
      rw [weight_prodOf hfs, bars_prodOf, weight_prod, bars_prod, hweight, hbars]
      exact ⟨rfl, le_rfl, by omega⟩

/-- Integers other than `1` weigh more than their product, if there are two of them. -/
theorem weight_multiply? {ns : List Int64} {c : Int64} (h : multiply? ns = some c)
    (h2 : 2 ≤ (ns.filter (· ≠ 1)).length) :
    (num c).weight < ((ns.filter (· ≠ 1)).map fun n => (num n).weight).sum := by
  have hpos : ∀ n ∈ ns.filter (· ≠ 1), 1 ≤ (num n).weight := fun n hn => by
    rw [Nat.one_le_iff_ne_zero, Ne, weight_num_eq_zero_iff]
    simpa using (List.mem_filter.1 hn).2
  by_cases hc : 0 ≤ c.toInt
  · have hle := sum_le_sum_map _ hpos
    rw [weight_num c]
    split_ifs <;> omega
  · obtain ⟨n, hn, hneg⟩ : ∃ n ∈ ns, n.toInt < 0 := by
      by_contra! hall
      rw [multiply?_eq_some h] at hc
      exact hc (List.prod_nonneg (List.forall_mem_map.2 hall))
    have hn4 : (num n).weight = 4 := by
      rw [weight_num]
      split_ifs <;> omega
    have hmem : n ∈ ns.filter (· ≠ 1) := by
      refine List.mem_filter.2 ⟨hn, decide_eq_true ?_⟩
      rintro rfl
      simp at hneg
    have hperm := List.perm_cons_erase hmem
    have hle := sum_le_sum_map _ fun m (hm : m ∈ (ns.filter (· ≠ 1)).erase n) =>
      hpos m (List.mem_of_mem_erase hm)
    have hlen := List.length_erase_of_mem hmem
    rw [(hperm.map _).sum_eq, List.map_cons, List.sum_cons, hn4]
    have hc4 := weight_num c
    split_ifs at hc4 <;> omega

/-- A product of numbers and other factors weighs as much as the numbers other than `1` and the
others. -/
theorem sum_weight_factors (es : List Expr) :
    (es.map weight).sum = ((es.filter fun e => e.num?.isNone).map weight).sum +
      (((es.filterMap num?).filter (· ≠ 1)).map fun n => (num n).weight).sum := by
  rw [((factors_perm es).map _).sum_eq]
  simp [Function.comp_def]

/-- Two or more integers other than `1` drop when they are multiplied. -/
theorem several_drops {c : Int64} (hc : multiply? (es.filterMap num?) = some c)
    (h2 : 2 ≤ ((es.filterMap num?).filter (· ≠ 1)).length) : Drops (.prod es) (product es) := by
  have hlt := weight_multiply? hc h2
  have hw := sum_weight_factors es
  left
  simp only [product, hc]
  split_ifs with h0 h1
  · subst h0
    change 1 < _ at hlt
    rw [weight_prod, weight_zero]
    omega
  · rw [weight_prodOf (by simp), List.map_append, List.sum_append, weight_prod]
    simp only [List.map_cons, List.map_nil, List.sum_cons, List.sum_nil]
    omega
  · rw [not_or] at h1
    rw [weight_prodOf h1.2, weight_prod]
    omega

/-- Without integers other than `1` a product loses its factors `1` only. -/
theorem product_of_ones (hlen : 2 ≤ es.length) {c : Int64}
    (hc : multiply? (es.filterMap num?) = some c)
    (hks : (es.filterMap num?).filter (· ≠ 1) = []) : ProductFolds es (product es) := by
  have hperm := factors_perm es
  have hc1 : c = 1 := by
    rw [← Int64.toInt_inj, multiply?_eq_some_filter hc, hks, Int64.toInt_one]
    rfl
  rw [hks, List.map_nil, List.append_nil] at hperm
  simp only [product, hc, hc1]
  rw [if_neg (by decide)]
  by_cases hothers : (es.filter fun e => e.num?.isNone) = []
  · rw [if_pos (.inr hothers), hothers]
    rw [hothers, List.append_nil] at hperm
    obtain ⟨k, hk⟩ : ∃ k, (es.filterMap num?).count 1 = k + 1 := by
      have := hperm.length_eq
      rw [List.length_replicate] at this
      exact ⟨(es.filterMap num?).count 1 - 1, by omega⟩
    rw [hk, List.replicate_succ'] at hperm
    exact drop_ones hlen (by simp) hperm
  · rw [if_neg (by simp [hothers])]
    exact drop_ones hlen hothers hperm

/-- A single integer other than `1` is put last. -/
theorem product_of_single (hlen : 2 ≤ es.length) {c n : Int64}
    (hc : multiply? (es.filterMap num?) = some c)
    (hks : (es.filterMap num?).filter (· ≠ 1) = [n]) : ProductFolds es (product es) := by
  have hperm := factors_perm es
  have hcn : c = n := by
    rw [← Int64.toInt_inj, multiply?_eq_some_filter hc, hks]
    simp
  have hn : n ≠ 1 := by
    have hmem : n ∈ (es.filterMap num?).filter (· ≠ 1) := hks ▸ List.mem_singleton_self n
    simpa using (List.mem_filter.1 hmem).2
  subst hcn
  rw [hks] at hperm
  simp only [product, hc]
  -- the integer is `0`, or the only one that is no `1`
  split_ifs with h0 h1
  · subst h0
    by_cases hothers : (es.filter fun e => e.num?.isNone) = []
    · rw [hothers] at hperm
      exact drop_ones hlen (by simp) hperm
    · refine .drops (Identities.prod_zero_drops hlen ?_ ?_)
      · exact hperm.mem_iff.2 <| List.mem_append_right _ <| List.mem_append_right _ <|
          List.mem_singleton_self (num 0)
      -- a `1` next to a `0` and another factor makes three of them, so none is exempt
      · rw [idle, if_neg, Nat.sub_zero]
        rintro ⟨hlen2, h1⟩
        have hcount : 0 < (es.filterMap num?).count 1 :=
          List.count_pos_iff.2 (List.mem_filterMap.2 ⟨1, h1, rfl⟩)
        have hpos := List.length_pos_of_ne_nil hothers
        have hleneq := hperm.length_eq
        rw [List.length_append, List.length_replicate, List.length_append] at hleneq
        simp only [List.map_cons, List.length_cons] at hleneq
        omega
  · exact drop_ones hlen (by simp) hperm
  · exact absurd (.inl hn) h1

/-- Folding the numbers of a product folds it, in each of the cases above. -/
theorem product_folds (hlen : 2 ≤ es.length) : ProductFolds es (product es) := by
  cases hc : multiply? (es.filterMap num?) with
  | none =>
    simp only [product, hc]
    exact .perm (.refl _)
  | some c =>
    rcases hks : (es.filterMap num?).filter (· ≠ 1) with _ | ⟨n, _ | ⟨m, ks⟩⟩
    · exact product_of_ones hlen hc hks
    · exact product_of_single hlen hc hks
    · refine .drops (several_drops hc ?_)
      rw [hks]
      simp

theorem ProductFolds.descends {e' : Expr} (h : ProductFolds es e') : Descends (.prod es) e' := by
  cases h with
  | perm h => exact .of_prod_perm h.symm
  | other h => exact (Descends.of_prod_perm h).trans (.of_prod_one e')
  | drops h => exact h.descends (by simp)

/-! ### Fractions among addends -/

/-- Is a rational number no integer? -/
def broken (x : ℚ) : ℕ := if x.den = 1 then 0 else 1

/-- What a rational number costs at least, wherever it is written as a literal: its sign and its
fraction bar. -/
def charge (x : ℚ) : ℕ := (if x < 0 then 4 else 0) + 3 * broken x

theorem broken_le_one (x : ℚ) : broken x ≤ 1 := by
  rw [broken]
  split_ifs <;> omega

/-- A sum has a fraction bar only if one of the addends has. -/
theorem broken_add_le (x y : ℚ) : broken (x + y) ≤ broken x + broken y := by
  by_cases hxy : x.den = 1 ∧ y.den = 1
  · have hdvd := Rat.add_den_dvd x y
    rw [hxy.1, hxy.2, Nat.dvd_one] at hdvd
    rw [broken, if_pos hdvd]
    exact Nat.zero_le _
  · refine (broken_le_one _).trans ?_
    unfold broken
    split_ifs <;> simp_all

/-- A sum is charged for no more than its addends. -/
theorem charge_add_le (x y : ℚ) : charge (x + y) ≤ charge x + charge y := by
  have hbroken := broken_add_le x y
  by_cases hxy : 0 ≤ x ∧ 0 ≤ y
  · rw [charge, if_neg (not_lt.2 (add_nonneg hxy.1 hxy.2)), charge, charge]
    omega
  · rw [not_and_or, not_le, not_le] at hxy
    unfold charge
    split_ifs <;> first | omega | simp_all

/-- Sums of any length are charged for no more than their addends. -/
theorem charge_sum_le (xs : List ℚ) : charge xs.sum ≤ (xs.map charge).sum := by
  induction xs with
  | nil => simp [charge, broken]
  | cons x xs ih =>
    rw [List.sum_cons, List.map_cons, List.sum_cons]
    exact (charge_add_le _ _).trans (Nat.add_le_add_left ih _)

theorem broken_sum_le (xs : List ℚ) : broken xs.sum ≤ (xs.map broken).sum := by
  induction xs with
  | nil => simp [broken]
  | cons x xs ih =>
    rw [List.sum_cons, List.map_cons, List.sum_cons]
    exact (broken_add_le _ _).trans (Nat.add_le_add_left ih _)

theorem charge_intCast (n : ℤ) : charge n = if n < 0 then 4 else 0 := by
  simp [charge, broken]

/-- The charge for an integer is at most its weight. -/
theorem charge_le_weight_num (n : Int64) : charge (n.toInt : ℚ) ≤ (num n).weight := by
  rw [charge_intCast, weight_num]
  split_ifs <;> omega

/-- The charge for a fraction is at most the weight of the quotient. -/
theorem charge_le_weight_quot (n d : Int64) :
    charge (Fraction.toRat ⟨n, d⟩) ≤ (Expr.quot (.num n) (.num d)).weight := by
  have hsign : Fraction.toRat ⟨n, d⟩ < 0 ↔
      n.toInt < 0 ∧ 0 < d.toInt ∨ 0 < n.toInt ∧ d.toInt < 0 := Fraction.toRat_neg_iff
  have hbroken : d.toInt = 1 → broken (Fraction.toRat ⟨n, d⟩) = 0 := fun h1 => by
    simp [broken, Fraction.toRat, h1]
  have hle := broken_le_one (Fraction.toRat ⟨n, d⟩)
  simp only [charge, hsign, weight_quot, weight_num, signCost_num]
  split_ifs <;> omega

/-- An integer or a quotient of integers costs its charge at least. -/
theorem charge_le (h : e.fraction? = some q) :
    charge q.toRat ≤ e.weight ∧ broken q.toRat ≤ e.bars := by
  unfold fraction? at h
  split at h <;> cases h
  · next n =>
    have hval : Fraction.toRat ⟨n, 1⟩ = (n.toInt : ℚ) := by simp [Fraction.toRat]
    rw [hval]
    exact ⟨charge_le_weight_num n, by simp [broken]⟩
  · next n d => exact ⟨charge_le_weight_quot n d, by simpa using broken_le_one _⟩

/-- A fraction in lowest terms has a fraction bar if its value is no integer. -/
theorem broken_toRat (hq : q.IsLowest) : broken q.toRat = (ofFraction q).bars := by
  have hden := hq.den_eq
  simp only [bars_ofFraction, ← Int64.toInt_inj, Int64.toInt_one, broken]
  split_ifs <;> omega

/-- A fraction in lowest terms weighs at most one more than the charge for its value. -/
theorem weight_ofFraction (hq : q.IsLowest) : (ofFraction q).weight ≤ charge q.toRat + 1 := by
  have hpos := hq.den_pos
  have hsign := hq.num_neg_iff
  have hbars := broken_toRat hq
  rw [bars_ofFraction] at hbars
  simp only [charge, ← hsign, hbars, ofFraction]
  split_ifs with h1 <;> simp only [weight_quot, weight_num, signCost_num] <;> split_ifs <;> omega

theorem addendCost_ofFraction (hq : q.IsLowest) : addendCost (ofFraction q) = 1 := by
  have hdull : ¬((ofFraction q).weight = 0 ∧ ofFraction q ≠ 1) := by
    rintro ⟨hw, h1⟩
    rw [ofFraction] at hw h1
    split_ifs at hw h1
    · exact h1 (congrArg _ ((weight_num_eq_zero_iff _).1 hw))
    · simp at hw
  rw [addendCost, slack_ofFraction hq, dull_singleton, if_neg hdull]

/-- The addends of a sum are its numbers, which cost their charges, and the others. -/
theorem sum_cost_addends (es : List Expr) :
    ((es.filterMap fraction?).map fun q => charge q.toRat).sum + (es.filterMap fraction?).length +
        ((es.filter fun e => e.fraction?.isNone).map fun e => e.weight + 1).sum ≤
        (es.map fun e => e.weight + 1).sum ∧
      ((es.filterMap fraction?).map fun q => broken q.toRat).sum +
        ((es.filter fun e => e.fraction?.isNone).map bars).sum ≤ (es.map bars).sum ∧
      (es.filterMap fraction?).length +
        ((es.filter fun e => e.fraction?.isNone).map addendCost).sum ≤
        (es.map addendCost).sum := by
  induction es with
  | nil => simp
  | cons e es ih =>
    obtain ⟨hw, hb, hc⟩ := ih
    have hcost : 1 ≤ addendCost e := Nat.le_add_left 1 _
    cases h : e.fraction? with
    | none =>
      simp only [List.filterMap_cons_none h, List.filter_cons, h, Option.isNone_none, if_true,
        List.map_cons, List.sum_cons]
      omega
    | some q =>
      have hcharge := charge_le h
      simp only [List.filterMap_cons_some h, List.filter_cons, h, Option.isNone_some,
        Bool.false_eq_true, if_false, List.map_cons, List.sum_cons, List.length_cons]
      omega

/-- The operands of the sum that several numbers are folded to. -/
def folded (es : List Expr) (q : Fraction) : List Expr :=
  if q.num = 0 then es.filter fun e => e.fraction?.isNone
  else (es.filter fun e => e.fraction?.isNone) ++ [.ofFraction q]

/-- Two or more numbers drop when they are added. -/
theorem several_sum_drops (hq : q.IsLowest)
    (hval : q.toRat = ((es.filterMap fraction?).map Fraction.toRat).sum)
    (h2 : 2 ≤ (es.filterMap fraction?).length) : Drops (.sum es) (.sumOf (folded es q)) := by
  have hes : es ≠ [] := by
    rintro rfl
    simp at h2
  obtain ⟨hw, hb, hc⟩ := sum_cost_addends es
  have hcharge := charge_sum_le ((es.filterMap fraction?).map Fraction.toRat)
  have hbroken := broken_sum_le ((es.filterMap fraction?).map Fraction.toRat)
  rw [← hval, List.map_map] at hcharge hbroken
  have hweight := weight_ofFraction hq
  rw [broken_toRat hq] at hbroken
  by_cases hfold : folded es q = []
  · have hlen := List.length_filterMap_le fraction? es
    rw [hfold, sumOf, Drops, weight_sum, slack_sum, weight_zero, bars_zero, slack_zero]
    omega
  refine .of_addends hes hfold ?_
  simp only [folded, Function.comp_def] at hcharge hbroken ⊢
  split_ifs with h0
  · left
    omega
  · simp only [List.map_append, List.sum_append, List.map_cons, List.map_nil, List.sum_cons,
      List.sum_nil]
    rw [addendCost_ofFraction hq]
    omega

/-- A single number among the addends. -/
theorem exists_of_fraction (h : es.filterMap fraction? = [q]) :
    ∃ e, e.fraction? = some q ∧ es.Perm (e :: es.filter fun e => e.fraction?.isNone) := by
  obtain ⟨l₁, e, l₂, rfl, h₁, he, h₂⟩ := List.filterMap_eq_cons_iff.1 h
  rw [List.filterMap_eq_nil_iff] at h₂
  have hfilter : ∀ l : List Expr, (∀ e ∈ l, e.fraction? = none) →
      (l.filter fun e => e.fraction?.isNone) = l := fun l hl =>
    List.filter_eq_self.2 fun e he => by rw [hl e he, Option.isNone_none]
  refine ⟨e, he, ?_⟩
  rw [List.filter_append, List.filter_cons_of_neg (by simp [he]), hfilter l₁ h₁, hfilter l₂ h₂]
  exact List.perm_middle

/-- A single number stays, or it drops when it is reduced. -/
theorem single_cases (h : e.fraction? = some r) (hr : r.den ≠ 0) (hq : q.IsLowest)
    (hval : q.toRat = r.toRat) : ofFraction q = e ∨ e.weight ≠ 0 ∧ Drops e (ofFraction q) := by
  unfold fraction? at h
  split at h <;> cases h
  · next n =>
    left
    have hlow : Fraction.IsLowest ⟨n, 1⟩ := ⟨by simp, by simp⟩
    rw [hq.eq_of_toRat_eq hlow hval, ofFraction, if_pos rfl]
  · next n d =>
    refine (ofFraction_drops hr hq hval).imp_right fun h => ⟨?_, h⟩
    rw [weight_quot]
    omega

/-- A single number is put last, unless it is `0` or can be reduced. -/
theorem single_sum_drops (hlen : 2 ≤ es.length) (h : es.filterMap fraction? = [r]) (hr : r.den ≠ 0)
    (hq : q.IsLowest) (hval : q.toRat = r.toRat) :
    (∃ fs : List Expr, fs.Perm es ∧ sumOf (folded es q) = .sum fs) ∨
      Drops (.sum es) (.sumOf (folded es q)) := by
  obtain ⟨e, he, hperm⟩ := exists_of_fraction h
  have hes : es ≠ [] := List.ne_nil_of_length_pos (by omega)
  have hothers : (es.filter fun e => e.fraction?.isNone) ≠ [] := by
    intro h0
    rw [h0] at hperm
    simp [hperm.length_eq] at hlen
  have hweight := (hperm.map fun e => e.weight + 1).sum_eq
  have hbars := (hperm.map bars).sum_eq
  have hcost := (hperm.map addendCost).sum_eq
  rw [List.map_cons, List.sum_cons] at hweight hbars hcost
  -- the number is `0` and is left out, or it is written last
  by_cases h0 : q.num = 0
  · right
    rw [folded, if_pos h0]
    exact .of_addends hes hothers (.inl (by omega))
  · rw [folded, if_neg h0]
    rcases single_cases he hr hq hval with heq | ⟨hw, hdrop⟩
    · left
      rw [heq]
      have hperm' := (List.perm_append_singleton e _).trans hperm.symm
      exact ⟨_, hperm', sumOf_of_two_le (hperm'.length_eq ▸ hlen)⟩
    · right
      refine .of_addends hes (by simp) ?_
      have hle : e.slack + 1 ≤ addendCost e := by
        rw [addendCost]
        omega
      rw [Drops, slack_ofFraction hq] at hdrop
      simp only [List.map_append, List.sum_append, List.map_cons, List.map_nil, List.sum_cons,
        List.sum_nil, addendCost_ofFraction hq]
      omega

/-- On its level a sum keeps its addends when its numbers are folded, up to their order. -/
theorem addends_drops (hlen : 2 ≤ es.length) :
    (∃ fs : List Expr, fs.Perm es ∧ addends es = .sum fs) ∨ Drops (.sum es) (addends es) := by
  simp only [addends]
  split_ifs with h
  · exact .inl ⟨es, .refl _, rfl⟩
  · rw [not_or] at h
    have hdens : ∀ q ∈ es.filterMap fraction?, q.den ≠ 0 := fun q hq h0 =>
      h.2 (List.any_eq_true.2 ⟨q, hq, by simpa using h0⟩)
    cases hs : Fraction.sum? (es.filterMap fraction?) with
    | none => exact .inl ⟨es, .refl _, rfl⟩
    | some q =>
      obtain ⟨hlow, hval⟩ := Fraction.sum?_eq_some hdens hs
      rcases hfs : es.filterMap fraction? with _ | ⟨r, _ | ⟨r', rs⟩⟩
      · exact absurd hfs h.1
      · rw [hfs] at hval hdens
        exact single_sum_drops hlen hfs (hdens r (by simp)) hlow (by simpa using hval)
      · refine .inr (several_sum_drops hlow hval ?_)
        rw [hfs]
        simp

theorem rule_descends (h : e.WellFormed) : Descends e (rule e) := by
  cases h with
  | @quot a b _ _ =>
    rcases quotient_drops a b with heq | hdrop
    · rw [rule, heq]
      exact .refl _
    · exact hdrop.descends (by simp)
  | @prod es hlen _ => exact (product_folds hlen).descends
  | @sum es hlen _ =>
    rcases addends_drops hlen with ⟨fs, hperm, heq⟩ | hdrop
    · rw [rule, heq]
      exact .of_sum_perm hperm.symm
    · exact hdrop.descends (by simp)
  | _ => exact .refl _

end Fold

theorem descends_fold {e : Expr} (h : e.WellFormed) : Descends e (fold e) :=
  .bottomUp Fold.wellFormed_rule (fun _ => Fold.rule_descends) h

end Simplification

end ComputerAlgebra
