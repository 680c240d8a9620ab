import ComputerAlgebra.Expr.Visit
import ComputerAlgebra.Proofs.Vanishing.Pending

/-!
# Degrees

The degree of a tree in one variable, which must not occur below a quotient bar, and where all
exponents are positive integers. Any other tree has an infinite degree, so that a bound on the
degree says that a tree is a polynomial in the variable. No pass raises degrees (`degree_round_le`).

The exponent `0` may be allowed as well. Identities leave no such powers.
-/

namespace ComputerAlgebra

open Magnitude

namespace Expr

/-- Trees of positive integers, and the literal `0`. -/
def Natural (b : Expr) : Prop := b = 0 ∨ Whole b

/-- How many factors a power with this exponent abbreviates. -/
def factorCount (b : Expr) : ℕ := if b = 0 then 0 else b.magnitude.num

@[simp] theorem factorCount_zero : factorCount 0 = 0 := if_pos rfl

@[simp] theorem factorCount_one : factorCount 1 = 1 := by
  rw [factorCount, if_neg (by decide), magnitude_one, num_one]

/-- A whole exponent counts as many factors as its magnitude says. -/
theorem Whole.factorCount {b : Expr} (h : Whole b) : b.factorCount = b.magnitude.num :=
  if_neg h.ne_zero

/-- Exponents that are not negative count their value. -/
theorem natural_num {n : Int64} (h : 0 ≤ n.toInt) :
    Natural (.num n) ∧ (num n).factorCount = n.toInt.toNat := by
  rcases h.eq_or_lt with h0 | hpos
  · obtain rfl : n = 0 := by rwa [eq_comm, ← Int64.toInt_zero, Int64.toInt_inj] at h0
    exact ⟨.inl rfl, factorCount_zero⟩
  · have hwhole : Whole (num n) := .num hpos
    exact ⟨.inr hwhole, by rw [hwhole.factorCount, magnitude_num, num_ofInt hpos]⟩

section

open scoped Classical

mutual

/-- The degree in a variable of a tree whose exponents are in the given class. -/
noncomputable def degree (x : String) (X : Expr → Prop) : Expr → ℕ∞
  | .var y => if y = x then 1 else 0
  | .num _ => 0
  | .sum es => (degrees x X es).foldr max 0
  | .prod es => (degrees x X es).sum
  | .quot a b => if degree x X b = 0 then degree x X a else ⊤
  | .pow a b => if X b then degree x X a * b.factorCount else ⊤
  | .app _ u => degree x X u
  | .eqn _ _ => ⊤

/-- The degrees of several trees. -/
noncomputable def degrees (x : String) (X : Expr → Prop) : List Expr → List ℕ∞
  | [] => []
  | e :: es => degree x X e :: degrees x X es

end

variable {x : String} {X : Expr → Prop} {a b e : Expr} {es : List Expr} {n : ℕ∞}

theorem degrees_eq_map (x : String) (X : Expr → Prop) (es : List Expr) :
    degrees x X es = es.map (degree x X) := by
  induction es with
  | nil => rfl
  | cons e es ih => simp [degrees, ih]

@[simp] theorem degree_var (y : String) : degree x X (.var y) = if y = x then 1 else 0 := rfl

@[simp] theorem degree_num (n : Int64) : degree x X (.num n) = 0 := rfl

@[simp] theorem degree_zero : degree x X 0 = 0 := degree_num 0

@[simp] theorem degree_one : degree x X 1 = 0 := degree_num 1

theorem degree_sum (es : List Expr) : degree x X (.sum es) = (es.map (degree x X)).foldr max 0 :=
  congrArg (List.foldr max 0) (degrees_eq_map x X es)

@[simp] theorem degree_prod (es : List Expr) : degree x X (.prod es) = (es.map (degree x X)).sum :=
  congrArg List.sum (degrees_eq_map x X es)

@[simp] theorem degree_app (f : Func) (u : Expr) : degree x X (.app f u) = degree x X u := rfl

@[simp] theorem degree_eqn (a b : Expr) : degree x X (.eqn a b) = ⊤ := rfl

theorem degree_quot (h : degree x X b = 0) : degree x X (.quot a b) = degree x X a := if_pos h

theorem degree_quot_of_ne_zero (h : degree x X b ≠ 0) : degree x X (.quot a b) = ⊤ := if_neg h

theorem degree_pow (h : X b) : degree x X (.pow a b) = degree x X a * b.factorCount := if_pos h

theorem degree_pow_of_not (h : ¬X b) : degree x X (.pow a b) = ⊤ := if_neg h

end

variable {x : String} {X : Expr → Prop} {a b e : Expr} {es : List Expr} {n : ℕ∞}

/-- A tree with a finite degree has constants for denominators. -/
theorem denominator_of_degree (h : degree x X (.quot a b) ≠ ⊤) :
    degree x X b = 0 ∧ degree x X (.quot a b) = degree x X a := by
  have hb : degree x X b = 0 := by_contra fun hb => h (degree_quot_of_ne_zero hb)
  exact ⟨hb, degree_quot hb⟩

/-- A power of finite degree has an exponent that counts. -/
theorem exponent_of_degree (h : degree x X (.pow a b) ≠ ⊤) : X b := by
  by_contra hb
  exact h (degree_pow_of_not hb)

/-- A quotient has no lower degree than its numerator. -/
theorem degree_le_quot (a b : Expr) : degree x X a ≤ degree x X (.quot a b) := by
  by_cases hb : degree x X b = 0
  · exact (degree_quot hb).ge
  · exact degree_quot_of_ne_zero hb ▸ le_top

/-- A sum has the greatest degree of its addends as its degree. -/
theorem degree_sum_le_iff : degree x X (.sum es) ≤ n ↔ ∀ e ∈ es, degree x X e ≤ n := by
  rw [degree_sum]
  induction es with
  | nil => simp
  | cons e es ih => simp [ih]

theorem degree_le_sum (he : e ∈ es) : degree x X e ≤ degree x X (.sum es) :=
  degree_sum_le_iff.1 le_rfl e he

theorem degree_le_prod (he : e ∈ es) : degree x X e ≤ degree x X (.prod es) := by
  rw [degree_prod]
  exact List.single_le_sum (fun _ _ => zero_le) _ (List.mem_map_of_mem he)

theorem degree_sumOf_le_iff : degree x X (.sumOf es) ≤ n ↔ ∀ e ∈ es, degree x X e ≤ n := by
  match es with
  | [] => simp [sumOf]
  | [e] => simp [sumOf]
  | e :: e' :: es => exact degree_sum_le_iff

@[simp] theorem degree_prodOf (es : List Expr) :
    degree x X (.prodOf es) = (es.map (degree x X)).sum := by
  match es with
  | [] => simp [prodOf]
  | [e] => simp [prodOf]
  | e :: e' :: es => exact degree_prod _

/-- The degree of a sum is that of one of its addends. -/
theorem exists_degree_sumOf (hne : es ≠ []) : ∃ e ∈ es, degree x X (.sumOf es) ≤ degree x X e := by
  obtain ⟨e, he, hmax⟩ := es.toFinset.exists_max_image (degree x X) <| by simpa using hne
  exact ⟨e, by simpa using he, degree_sumOf_le_iff.2 fun e' he' => hmax e' (by simpa using he')⟩

/-- A whole number has degree `0`. -/
theorem Whole.degree_eq_zero (h : Whole e) : degree x Whole e = 0 := by
  induction h with
  | num _ => simp
  | sum _ _ ih => exact nonpos_iff_eq_zero.1 (degree_sum_le_iff.2 fun e he => (ih e he).le)
  | prod _ _ ih => simp [List.map_congr_left ih]
  | pow _ hb iha _ => simp [degree_pow hb, iha]

/-- A whole number has no variable in it. -/
theorem Whole.names_eq_nil (h : Whole e) : e.names = [] := by
  induction h with
  | num _ => rfl
  | sum _ _ ih => simpa [names, namesAll_eq_flatMap] using ih
  | prod _ _ ih => simpa [names, namesAll_eq_flatMap] using ih
  | pow _ _ iha ihb => simp [names, iha, ihb]

/-- In a tree of degree `0` the variable does not occur. -/
theorem notMem_names_of_degree (h : degree x Whole e = 0) : x ∉ e.names := by
  induction e using Expr.induct with
  | var y => simpa [names, eq_comm] using h
  | num n => simp [names]
  | sum es ih =>
    simpa [names, namesAll_eq_flatMap] using fun e he =>
      ih e he (nonpos_iff_eq_zero.1 ((degree_le_sum he).trans h.le))
  | prod es ih =>
    simpa [names, namesAll_eq_flatMap] using fun e he =>
      ih e he (nonpos_iff_eq_zero.1 ((degree_le_prod he).trans h.le))
  | quot a b iha ihb =>
    obtain ⟨hb, ha⟩ := denominator_of_degree (h ▸ ENat.zero_ne_top)
    simp [names, iha (ha ▸ h), ihb hb]
  | pow a b iha _ =>
    have hb := exponent_of_degree (h ▸ ENat.zero_ne_top)
    rw [degree_pow hb, hb.factorCount, mul_eq_zero] at h
    have hpos := hb.one_le
    rw [names, hb.names_eq_nil, List.append_nil]
    exact iha (h.resolve_right (by norm_cast; omega))
  | app f u ih => simpa [names] using ih (by simpa using h)
  | eqn a b _ _ => simp at h

end Expr

namespace Simplification

open ComputerAlgebra.Expr

variable {x : String} {X : Expr → Prop} {a b e : Expr} {es : List Expr} {n : ℕ∞}

/-! ### Rules -/

theorem Flatten.degree_splice_le (e : Expr) : degree x X (splice e) ≤ degree x X e := by
  cases e with
  | sum es =>
    refine degree_sum_le_iff.2 fun e' he' => ?_
    obtain ⟨e, he, he'⟩ := List.mem_flatMap.1 he'
    refine le_trans ?_ (degree_le_sum he)
    cases e with
    | sum gs => exact degree_le_sum he'
    | _ => exact (congrArg _ (List.mem_singleton.1 he')).le
  | prod es =>
    rw [splice, degree_prod, degree_prod, sum_flatMap fun e _ => ?_]
    cases e <;> simp [factors]
  | _ => exact le_rfl

/-- Identities of powers do not raise the degree: they make an operand or a number of them. -/
theorem Identities.degree_power_le (a b : Expr) :
    degree x X (power a b) ≤ degree x X (.pow a b) := by
  obtain ⟨-, heq⟩ | ⟨rfl, heq⟩ | ⟨n, m, rfl, rfl, heq⟩ | ⟨-, heq⟩ := power_cases a b
  · simp [heq]
  · rw [heq]
    by_cases h1 : X 1
    · simp [degree_pow h1]
    · exact degree_pow_of_not h1 ▸ le_top
  · obtain ⟨-, v, -, hv⟩ | ⟨-, k, v, -, -, hv⟩ := integerPower?_eq_some heq
    · simp [hv]
    · simp [hv, degree_quot (degree_num v)]
  · exact heq ▸ le_rfl

theorem Identities.degree_rule_le (e : Expr) : degree x X (rule e) ≤ degree x X e := by
  cases e with
  | quot a b =>
    rw [rule, quotient]
    split_ifs
    · exact degree_le_quot a b
    · simp
    · simp
    · exact le_rfl
  | pow a b => exact degree_power_le a b
  | prod es =>
    rw [rule]
    split_ifs
    · simp
    · exact le_rfl
  | app f u =>
    rw [rule]
    cases valueAt? f u with
    | none => exact le_rfl
    | some v => simp
  | _ => exact le_rfl

theorem Fractions.degree_quotient_le (a b : Expr) :
    degree x X (quotient a b) ≤ degree x X (.quot a b) := by
  by_cases htop : degree x X (.quot a b) = ⊤
  · exact htop ▸ le_top
  obtain ⟨hb, heq⟩ := denominator_of_degree htop
  unfold quotient
  split
  · next c d =>
    obtain ⟨hd, hc⟩ := denominator_of_degree (heq ▸ htop)
    rw [heq, hc, degree_quot (by simp [hd, hb])]
  · next c d _ =>
    obtain ⟨hd, hc⟩ := denominator_of_degree (hb ▸ ENat.zero_ne_top)
    rw [heq, degree_quot (hc ▸ hb)]
    simp [hd]
  · exact le_rfl

/-- Moving denominators out of a product does not raise the degree. Of finite degree, all of them
have degree `0`. -/
theorem Fractions.degree_product_le (es : List Expr) :
    degree x X (product es) ≤ degree x X (.prod es) := by
  by_cases htop : degree x X (.prod es) = ⊤
  · exact htop ▸ le_top
  have hfin : ∀ e ∈ es, degree x X e ≠ ⊤ :=
    fun e he h => htop (top_le_iff.1 (h ▸ degree_le_prod he))
  have hdens : ∀ b ∈ es.filterMap denominator?, degree x X b = 0 := fun b hb => by
    obtain ⟨e, he, hb⟩ := List.mem_filterMap.1 hb
    cases e with
    | quot a c =>
      cases hb
      exact (denominator_of_degree (hfin _ he)).1
    | _ => cases hb
  have hnum : (es.map numerator).map (degree x X) = es.map (degree x X) := by
    rw [List.map_map]
    refine List.map_congr_left fun e he => ?_
    cases e with
    | quot a b => exact (denominator_of_degree (hfin _ he)).2.symm
    | _ => rfl
  rw [product]
  split
  · exact le_rfl
  · rw [degree_quot (by simp [List.map_congr_left hdens]), degree_prodOf, hnum, degree_prod]

theorem Fractions.degree_rule_le (e : Expr) : degree x X (rule e) ≤ degree x X e := by
  cases e with
  | quot a b => exact degree_quotient_le a b
  | prod es => exact degree_product_le es
  | _ => exact le_rfl

/-- The exponents of one base add up. -/
theorem Collect.degree_regroup_pow_le {g : Expr × List Expr} (hne : g.2 ≠ []) :
    degree x Whole (regroup .pow g) ≤ (g.2.map fun v => degree x Whole (.pow g.1 v)).sum := by
  by_cases hwhole : ∀ v ∈ g.2, Whole v
  · have hsum : (g.2.map fun v => degree x Whole (.pow g.1 v)).sum =
        degree x Whole (.pow g.1 (.sumOf g.2)) := by
      rw [degree_pow (.sumOf hne hwhole), (Whole.sumOf hne hwhole).factorCount,
        Whole.num_sumOf hne hwhole, Nat.cast_list_sum, List.map_map, ← List.sum_map_mul_left]
      refine congrArg _ (List.map_congr_left fun v hv => ?_)
      rw [degree_pow (hwhole v hv), (hwhole v hv).factorCount]
      rfl
    rcases regroup_eq .pow hne with ⟨heq, hone⟩ | heq
    · rw [heq, hone]
      simp [degree_pow Whole.one]
    · rw [heq, hsum]
  · push Not at hwhole
    obtain ⟨v, hv, hnot⟩ := hwhole
    have hle := List.single_le_sum (fun _ _ => zero_le) _
      (List.mem_map_of_mem (f := fun v => degree x Whole (.pow g.1 v)) hv)
    rw [degree_pow_of_not hnot, top_le_iff] at hle
    exact hle ▸ le_top

/-- A factor has the degree of the power as which it is collected. -/
theorem Collect.degree_baseAndExponent (e : Expr) :
    degree x Whole (.pow (baseAndExponent e).1 (baseAndExponent e).2) = degree x Whole e := by
  cases e with
  | pow a b => rfl
  | _ => simp [baseAndExponent, degree_pow Whole.one]

/-- Equal factors become one power of at most the degree of all of them together. -/
theorem Collect.degree_prod_le (es : List Expr) :
    degree x Whole (rule (.prod es)) ≤ degree x Whole (.prod es) :=
  calc degree x Whole (rule (.prod es))
      ≤ ((group (es.map baseAndExponent)).map fun g =>
          (g.2.map fun v => degree x Whole (.pow g.1 v)).sum).sum := by
        rw [rule, degree_prodOf, List.map_map]
        exact List.sum_le_sum fun g hg => degree_regroup_pow_le (group_ne_nil _ g hg)
    _ = ((es.map baseAndExponent).map fun p => degree x Whole (.pow p.1 p.2)).sum := by
        rw [← Groups.sum_map_pairs fun k v => degree x Whole (.pow k v)]
        exact ((group_pairs_perm _).map _).sum_eq
    _ = degree x Whole (.prod es) := by
        rw [List.map_map, degree_prod]
        exact congrArg _ (List.map_congr_left fun e _ => degree_baseAndExponent e)

/-- An addend has the degree of its term and its coefficient together. -/
theorem Collect.degree_termAndCoefficient (e : Expr) :
    degree x X (termAndCoefficient e).2 + degree x X (termAndCoefficient e).1 = degree x X e := by
  unfold termAndCoefficient
  split <;> simp

/-- Equal terms of a sum become one product, of at most the degree of one of them. -/
theorem Collect.degree_sum_le (es : List Expr) :
    degree x X (rule (.sum es)) ≤ degree x X (.sum es) := by
  have hpairs :
      ∀ p ∈ es.map termAndCoefficient, degree x X p.2 + degree x X p.1 ≤ degree x X (.sum es) :=
    List.forall_mem_map.2 fun e he => (degree_termAndCoefficient e).trans_le (degree_le_sum he)
  refine degree_sumOf_le_iff.2 (List.forall_mem_map.2 fun g hg => ?_)
  have hne := group_ne_nil _ g hg
  have hterm := forall_group _
    (p := fun t c => degree x X c + degree x X t ≤ degree x X (.sum es)) hpairs g hg
  obtain ⟨c, hc, hle⟩ := exists_degree_sumOf (X := X) hne
  rcases regroup_eq (fun t c => .prod [c, t]) hne with ⟨heq, -⟩ | heq
  · exact heq ▸ le_add_self.trans (hterm c hc)
  · rw [heq]
    simpa using (add_le_add_left hle _).trans (hterm c hc)

theorem Collect.degree_rule_le (e : Expr) : degree x Whole (rule e) ≤ degree x Whole e := by
  cases e with
  | sum es => exact degree_sum_le es
  | prod es => exact degree_prod_le es
  | _ => exact le_rfl

theorem degree_ofFraction (q : Fraction) : degree x X (ofFraction q) = 0 := by
  rcases ofFraction_cases q with ⟨-, h⟩ | ⟨-, h⟩ <;> simp [h, degree_quot (degree_num _)]

theorem Fold.degree_rule_le (e : Expr) : degree x X (rule e) ≤ degree x X e := by
  cases e with
  | quot a b =>
    rw [rule]
    unfold quotient
    split
    · split_ifs
      · exact le_rfl
      · cases Fraction.reduce? _ with
        | none => exact le_rfl
        | some q => simp [degree_ofFraction]
    · exact le_rfl
  | prod es =>
    have hothers :
        ((es.filter fun e => e.num?.isNone).map (degree x X)).sum ≤ degree x X (.prod es) := by
      rw [degree_prod]
      exact (List.filter_sublist.map _).sum_le_sum fun _ _ => zero_le
    rw [rule]
    -- nothing is folded, the product is `0`, or a coefficient is left, or none
    obtain heq | ⟨c, -, ⟨-, heq⟩ | ⟨-, -, heq⟩ | ⟨-, heq⟩⟩ := product_cases es
    · exact heq ▸ le_rfl
    · exact heq ▸ degree_zero.trans_le zero_le
    · rwa [heq, degree_prodOf]
    · simpa [heq] using hothers
  | sum es =>
    rw [rule, addends]
    dsimp only
    split_ifs
    · exact le_rfl
    · have hothers :
          ∀ e ∈ es.filter fun e => e.fraction?.isNone, degree x X e ≤ degree x X (.sum es) :=
        fun e he => degree_le_sum (List.mem_of_mem_filter he)
      -- without a sum that fits nothing is folded
      cases Fraction.sum? (es.filterMap fraction?) with
      | none => exact le_rfl
      | some q =>
        refine degree_sumOf_le_iff.2 ?_
        split_ifs
        · exact hothers
        · exact List.forall_mem_append.2 ⟨hothers, by simp [degree_ofFraction]⟩
  | _ => exact le_rfl

theorem Sorting.degree_rule (e : Expr) : degree x X (rule e) = degree x X e := by
  cases e with
  | sum es =>
    have hperm := Sorted.sort_perm Expr.le es
    rw [rule, degree_sum, degree_sum, (hperm.map _).foldr_eq]
  | prod es =>
    have hperm := Sorted.sort_perm Expr.le es
    rw [rule, degree_prod, degree_prod, (hperm.map _).sum_eq]
  | _ => rfl

/-! ### Passes -/

/-- A pass raises no degree if its rule does not and exponents are kept. -/
theorem degree_bottomUp_le {rule : Expr → Expr} (hrule : ∀ e, degree x X (rule e) ≤ degree x X e)
    (hexp : ∀ b, X b → X (b.bottomUp rule) ∧ (b.bottomUp rule).factorCount = b.factorCount)
    (e : Expr) : degree x X (e.bottomUp rule) ≤ degree x X e := by
  -- only the exponent of a power is rewritten without regard to its degree
  induction e using operands_induct with
  | node e ih =>
    rw [bottomUp_eq]
    refine (hrule _).trans ?_
    cases e with
    | sum es => exact degree_sum_le_iff.2 (List.forall_mem_map.2 fun e he =>
        (ih e he).trans (degree_le_sum he))
    | prod es =>
      rw [mapOperands, degree_prod, degree_prod, List.map_map]
      exact List.sum_le_sum ih
    | quot a b =>
      by_cases htop : degree x X (.quot a b) = ⊤
      · exact htop ▸ le_top
      obtain ⟨hb, heq⟩ := denominator_of_degree htop
      have hb' := nonpos_iff_eq_zero.1 (hb ▸ ih b (by simp [operands]))
      rw [mapOperands, degree_quot hb', heq]
      exact ih a (by simp [operands])
    | pow a b =>
      by_cases hb : X b
      · obtain ⟨hb', heq⟩ := hexp b hb
        rw [mapOperands, degree_pow hb', degree_pow hb, heq]
        exact mul_le_mul_left (ih a (by simp [operands])) _
      · exact degree_pow_of_not hb ▸ le_top
    | app f u => simpa [mapOperands] using ih u (by simp [operands])
    | _ => exact le_rfl

/-- A pass whose rule keeps whole numbers keeps how many factors an exponent counts. -/
theorem factorCount_bottomUp {rule : Expr → Expr} (hwhole : KeepsWhole rule) :
    ∀ b, Whole b → Whole (b.bottomUp rule) ∧ (b.bottomUp rule).factorCount = b.factorCount := by
  intro b hb
  obtain ⟨hb', heq⟩ := hwhole b hb
  exact ⟨hb', by rw [hb'.factorCount, hb.factorCount, heq]⟩

/-- A pass that keeps whole numbers and `0` keeps how many factors a literal exponent counts. -/
theorem natural_bottomUp {rule : Expr → Expr} (hzero : rule 0 = 0) (hwhole : KeepsWhole rule) :
    ∀ b, Natural b →
      Natural (b.bottomUp rule) ∧ (b.bottomUp rule).factorCount = b.factorCount := by
  rintro b (rfl | hb)
  · have heq : (0 : Expr).bottomUp rule = 0 := (bottomUp_num rule 0).trans hzero
    exact ⟨.inl heq, by rw [heq]⟩
  · exact (factorCount_bottomUp hwhole b hb).imp_left .inr

/-- Where identities have nothing left to evaluate, there is no exponent `0`. -/
theorem degree_of_evaluated (h : Everywhere Evaluated e) :
    degree x Whole e = degree x Natural e := by
  induction e using operands_induct with
  | node e ih =>
    have hops e' (he' : e' ∈ e.operands) := ih e' he' (h.operand he')
    cases e with
    | sum es =>
      have hmap : es.map (degree x Whole) = es.map (degree x Natural) := List.map_congr_left hops
      rw [degree_sum, degree_sum, hmap]
    | prod es =>
      have hmap : es.map (degree x Whole) = es.map (degree x Natural) := List.map_congr_left hops
      rw [degree_prod, degree_prod, hmap]
    | quot a b =>
      have hb := hops b (by simp [operands])
      by_cases h0 : degree x Natural b = 0
      · rw [degree_quot h0, degree_quot (hb.trans h0), hops a (by simp [operands])]
      · rw [degree_quot_of_ne_zero h0, degree_quot_of_ne_zero (hb ▸ h0)]
    | pow a b =>
      have h0 : b ≠ 0 := by
        rintro rfl
        exact h.root.1 rfl
      by_cases hb : Whole b
      · rw [degree_pow hb, degree_pow (.inr hb), hops a (by simp [operands])]
      · rw [degree_pow_of_not hb, degree_pow_of_not (not_or.2 ⟨h0, hb⟩)]
    | app f u => simpa using hops u (by simp [operands])
    | _ => simp

/-- Literal exponents give no higher degree than whole ones: they are among these. -/
theorem degree_natural_le (e : Expr) : degree x Natural e ≤ degree x Whole e := by
  induction e using operands_induct with
  | node e ih =>
    cases e with
    | sum es => exact degree_sum_le_iff.2 fun e he => (ih e he).trans (degree_le_sum he)
    | prod es =>
      rw [degree_prod, degree_prod]
      exact List.sum_le_sum ih
    | quot a b =>
      by_cases htop : degree x Whole (.quot a b) = ⊤
      · exact htop ▸ le_top
      obtain ⟨hb, heq⟩ := denominator_of_degree htop
      rw [degree_quot (nonpos_iff_eq_zero.1 (hb ▸ ih b (by simp [operands]))), heq]
      exact ih a (by simp [operands])
    | pow a b =>
      by_cases hb : Whole b
      · rw [degree_pow hb, degree_pow (.inr hb)]
        exact mul_le_mul_left (ih a (by simp [operands])) _
      · exact degree_pow_of_not hb ▸ le_top
    | app f u => simpa using ih u (by simp [operands])
    | _ => simp

/-- A round raises no degree, and its result has no exponent `0`. -/
theorem degree_round_le (e : Expr) : degree x Whole (round e) ≤ degree x Natural e :=
  calc degree x Whole (round e)
      = degree x Whole ((collect (mergeFractions (applyIdentities (flatten e)))).bottomUp
          Fold.sorted) := by rw [← sort_fold_eq_bottomUp]; rfl
    _ ≤ degree x Whole (collect (mergeFractions (applyIdentities (flatten e)))) :=
        degree_bottomUp_le (fun e => (Sorting.degree_rule _).trans_le (Fold.degree_rule_le e))
          (factorCount_bottomUp Fold.keepsWhole_sorted) _
    _ ≤ degree x Whole (mergeFractions (applyIdentities (flatten e))) :=
        degree_bottomUp_le Collect.degree_rule_le (factorCount_bottomUp Collect.keepsWhole) _
    _ ≤ degree x Whole (applyIdentities (flatten e)) :=
        degree_bottomUp_le Fractions.degree_rule_le (factorCount_bottomUp Fractions.keepsWhole) _
    _ = degree x Natural (applyIdentities (flatten e)) :=
        degree_of_evaluated (everywhere_evaluated _)
    _ ≤ degree x Natural (flatten e) :=
        degree_bottomUp_le Identities.degree_rule_le (natural_bottomUp rfl Identities.keepsWhole) _
    _ ≤ degree x Natural e := by
        rw [flatten_eq_bottomUp]
        exact degree_bottomUp_le Flatten.degree_splice_le
          (natural_bottomUp rfl Flatten.keepsWhole) e

/-- What comes to rest after some rounds has at most the degree that they started with. -/
theorem degree_iterate_round_le {k : ℕ} (hfix : round (round^[k] e) = round^[k] e) :
    degree x Whole (round^[k] e) ≤ degree x Natural e := by
  rw [← hfix, ← Function.iterate_succ_apply' round]
  clear hfix
  induction k with
  | zero => exact degree_round_le e
  | succ k ih =>
    rw [Function.iterate_succ_apply']
    exact (degree_round_le _).trans ((degree_natural_le _).trans ih)

end Simplification

end ComputerAlgebra
