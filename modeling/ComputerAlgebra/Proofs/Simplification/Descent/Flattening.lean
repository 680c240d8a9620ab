import ComputerAlgebra.Proofs.Simplification.Descent.Folding

/-!
# Flattening descends

A product loses slack when it is spliced into another one, except where a factor `1` of the inner
product was not counted. Folding leaves no such factor: in a folded tree every product is anchored,
and it stays so until the next round has flattened it.
-/

namespace ComputerAlgebra

namespace Simplification

open ComputerAlgebra.Expr

variable {e : Expr} {es : List Expr} {f : Expr → Expr}

/-! ### Weights and kinds -/

theorem signCost_eq (hf : KeepsKind f) (e : Expr) : (f e).signCost = e.signCost := by
  have hrank := hf.rank e
  cases e with
  | num n => rw [hf.num]
  | _ => cases h : f _ <;> simp_all [rank, signCost]

theorem weight_mapOperands (hf : KeepsKind f) (h : ∀ e' ∈ e.operands, (f e').weight = e'.weight) :
    (e.mapOperands f).weight = e.weight := by
  cases e with
  | sum es =>
    simp only [mapOperands, weight_sum, List.map_map, List.length_map]
    rw [List.map_congr_left (show ∀ e ∈ es, (weight ∘ f) e = weight e from h)]
  | prod es =>
    simp only [mapOperands, weight_prod, List.map_map]
    rw [List.map_congr_left (show ∀ e ∈ es, (weight ∘ f) e = weight e from h)]
  | _ => simp_all [mapOperands, operands, signCost_eq hf]

/-- A function that keeps kinds and weights keeps nodes anchored. -/
theorem anchored_mapOperands (hf : KeepsKind f)
    (h : ∀ e' ∈ e.operands, (f e').weight = e'.weight) (hanc : e.Anchored) :
    (e.mapOperands f).Anchored := by
  cases e with
  | prod es =>
    intro h1
    rw [heavy_map (show ∀ e ∈ es, (f e).weight = e.weight from h)]
    exact hanc (hf.one_mem_map_iff.1 h1)
  | _ => trivial

/-! ### Splicing -/

namespace Flatten

theorem keepsKind_splice : KeepsKind splice where
  num _ := rfl
  rank e := by cases e <;> rfl

/-- The addends of an operand cost together what the operand does. -/
theorem cost_addends (h : e.WellFormed) :
    ((addends e).map fun e => e.weight + 1).sum = e.weight + 1 ∧
      ((addends e).map bars).sum = e.bars ∧ ((addends e).map addendCost).sum = addendCost e := by
  cases h with
  | @sum es hlen _ =>
    have hes : es ≠ [] := List.ne_nil_of_length_pos (by omega)
    have hdull : ¬((Expr.sum es).weight = 0 ∧ Expr.sum es ≠ 1) := by
      rw [weight_sum]
      omega
    refine ⟨(weight_sum_add hes).symm, (bars_sum es).symm, ?_⟩
    rw [addends, ← slack_sum_add hes, addendCost, dull_singleton, if_neg hdull]
  | _ => simp [addends]

/-- Writing nested sums as one costs what the addends did. -/
theorem cost_sum_flatMap (h : ∀ e ∈ es, e.WellFormed) :
    ((es.flatMap addends).map fun e => e.weight + 1).sum = (es.map fun e => e.weight + 1).sum ∧
      ((es.flatMap addends).map bars).sum = (es.map bars).sum ∧
      ((es.flatMap addends).map addendCost).sum = (es.map addendCost).sum :=
  ⟨sum_flatMap fun e he => (cost_addends (h e he)).1,
    sum_flatMap fun e he => (cost_addends (h e he)).2.1,
    sum_flatMap fun e he => (cost_addends (h e he)).2.2⟩

theorem weight_prod_flatMap (es : List Expr) :
    ((es.flatMap factors).map weight).sum = (es.map weight).sum :=
  sum_flatMap fun e _ => by cases e <;> simp [factors]

/-- The factors of an anchored operand cost together at most what the operand does. -/
theorem cost_factors (h : e.Anchored) :
    ((factors e).map bars).sum = e.bars ∧ ((factors e).map factorCost).sum ≤ factorCost e := by
  cases e with
  | prod es =>
    refine ⟨(bars_prod es).symm, ?_⟩
    have hslack := slack_prod_add (idle_eq h)
    simp only [heavy_eq_zero_iff, ← weight_prod] at hslack
    rw [factors, ← hslack, factorCost]
    split_ifs <;> omega
  | _ => simp [factors]

/-- Writing nested products as one costs at most what the factors did. -/
theorem cost_prod_flatMap (h : ∀ e ∈ es, e.Anchored) :
    ((es.flatMap factors).map bars).sum = (es.map bars).sum ∧
      ((es.flatMap factors).map factorCost).sum ≤ (es.map factorCost).sum := by
  induction es with
  | nil => simp
  | cons e es ih =>
    rw [List.forall_mem_cons] at h
    obtain ⟨hb, hc⟩ := cost_factors h.1
    obtain ⟨hb', hc'⟩ := ih h.2
    simp only [List.flatMap_cons, List.map_append, List.sum_append, List.map_cons, List.sum_cons,
      hb, hb', true_and]
    omega

theorem two_le_length_flatMap (hlen : 2 ≤ es.length) (h : ∀ e ∈ es, e.WellFormed) :
    2 ≤ (es.flatMap addends).length :=
  hlen.trans (length_le_of_two_le fun e he => (addends_spec (h e he)).1)

theorem weight_splice (h : e.WellFormed) : (splice e).weight = e.weight := by
  cases h with
  | @sum es hlen h =>
    have hlen' := two_le_length_flatMap hlen h
    have hes : es ≠ [] := List.ne_nil_of_length_pos (by omega)
    have hne : es.flatMap addends ≠ [] := List.ne_nil_of_length_pos (by omega)
    have hcost := (cost_sum_flatMap h).1
    rw [← weight_sum_add hes, ← weight_sum_add hne] at hcost
    rw [splice]
    omega
  | @prod es _ _ =>
    rw [splice, weight_prod, weight_prod, weight_prod_flatMap]
  | _ => rfl

/-- Writing nested sums and products as one descends, where products are anchored. -/
theorem splice_descends (h : e.WellFormed) (hanc : e.Anchored)
    (hops : ∀ e' ∈ e.operands, e'.Anchored) : Descends e (splice e) := by
  cases h with
  | @sum es hlen h =>
    have hlen' := two_le_length_flatMap hlen h
    have hes : es ≠ [] := List.ne_nil_of_length_pos (by omega)
    have hne : es.flatMap addends ≠ [] := List.ne_nil_of_length_pos (by omega)
    obtain ⟨hw, hb, hc⟩ := cost_sum_flatMap h
    rw [splice, ← sumOf_of_two_le hlen']
    exact .of_addends hes hne (.inr ⟨hw, hb.le, hc.le⟩)
  | @prod es _ _ =>
    have hw := weight_prod_flatMap es
    obtain ⟨hb, hc⟩ := cost_prod_flatMap (show ∀ e ∈ es, e.Anchored from hops)
    have hslack := slack_prod_add (idle_eq hanc)
    have hslack' := slack_prod_le (es.flatMap factors)
    simp only [heavy_eq_zero_iff, hw] at hslack hslack'
    refine ⟨by simp, .inr ?_⟩
    rw [splice, weight_prod, weight_prod, bars_prod, bars_prod, hw, hb]
    exact ⟨rfl, le_rfl, by omega⟩
  | _ => exact .refl _

theorem heavy_append (es fs : List Expr) : heavy (es ++ fs) = heavy es + heavy fs :=
  List.countP_append

theorem heavy_factors (e : Expr) : heavy [e] ≤ heavy (factors e) := by
  cases e with
  | prod es =>
    by_cases h : heavy es = 0
    · rw [heavy_eq_zero_iff, ← weight_prod] at h
      simp [heavy, -weight_prod, h]
    · have hle : heavy [Expr.prod es] ≤ 1 := List.countP_le_length
      rw [factors]
      omega
  | _ => exact le_rfl

/-- Nested products hold at least as many factors with a weight as they have operands with one. -/
theorem heavy_flatMap (es : List Expr) : heavy es ≤ heavy (es.flatMap factors) := by
  induction es with
  | nil => exact le_rfl
  | cons e es ih =>
    have h := heavy_factors e
    rw [List.flatMap_cons, heavy_append, ← List.singleton_append, heavy_append]
    omega

theorem heavy_factors_le (he : e ∈ es) : heavy (factors e) ≤ heavy (es.flatMap factors) := by
  obtain ⟨l₁, l₂, rfl⟩ := List.append_of_mem he
  rw [List.flatMap_append, List.flatMap_cons, heavy_append, heavy_append]
  omega

/-- Splicing leaves two factors with a weight next to a factor `1`. -/
theorem anchored_splice (hanc : e.Anchored) (hops : ∀ e' ∈ e.operands, e'.Anchored) :
    (splice e).Anchored := by
  cases e with
  | prod es =>
    intro h1
    obtain ⟨e, he, h1⟩ := List.mem_flatMap.1 h1
    cases e with
    | prod fs => exact (hops _ he h1).trans (heavy_factors_le he)
    | _ =>
      rw [← List.mem_singleton.1 h1] at he
      exact (hanc he).trans (heavy_flatMap es)
  | _ => trivial

/-- An operand after splicing was an operand before, or one of an operand. -/
theorem mem_operands_splice {e' : Expr} (h : e' ∈ (splice e).operands) :
    e' ∈ e.operands ∨ ∃ e'' ∈ e.operands, e' ∈ e''.operands := by
  cases e with
  | sum es =>
    obtain ⟨e, he, h⟩ := List.mem_flatMap.1 h
    cases e with
    | sum fs => exact .inr ⟨_, he, h⟩
    | _ => exact .inl (List.mem_singleton.1 h ▸ he)
  | prod es =>
    obtain ⟨e, he, h⟩ := List.mem_flatMap.1 h
    cases e with
    | prod fs => exact .inr ⟨_, he, h⟩
    | _ => exact .inl (List.mem_singleton.1 h ▸ he)
  | _ => exact .inl h

end Flatten

/-- A pass keeps the weight if its rule does. -/
theorem weight_bottomUp {rule : Expr → Expr} (hkind : KeepsKind rule)
    (hwf : ∀ e, e.WellFormed → (rule e).WellFormed)
    (hweight : ∀ e, e.WellFormed → (rule e).weight = e.weight) (h : e.WellFormed) :
    (e.bottomUp rule).weight = e.weight := by
  induction e using operands_induct with
  | node e ih =>
    have hop : ∀ e' ∈ e.operands, e'.WellFormed := fun _ => h.of_mem_operands
    rw [bottomUp_eq, hweight _ (h.mapOperands fun e' he' => (hop e' he').bottomUp hwf)]
    exact weight_mapOperands hkind.bottomUp fun e' he' => ih e' he' (hop e' he')

theorem flatten_eq_splice (e : Expr) : flatten e = Flatten.splice (e.mapOperands flatten) := by
  rw [funext flatten_eq_bottomUp]
  exact bottomUp_eq _ _

theorem keepsKind_flatten : KeepsKind flatten := by
  rw [funext flatten_eq_bottomUp]
  exact Flatten.keepsKind_splice.bottomUp

theorem weight_flatten (h : e.WellFormed) : (flatten e).weight = e.weight := by
  rw [flatten_eq_bottomUp]
  exact weight_bottomUp Flatten.keepsKind_splice Flatten.wellFormed_splice
    (fun _ => Flatten.weight_splice) h

/-- Flattening an anchored tree descends and leaves it anchored. -/
theorem flatten_spec (h : e.WellFormed) (hanc : Everywhere Anchored e) :
    Descends e (flatten e) ∧ Everywhere Anchored (flatten e) := by
  induction e using operands_induct with
  | node e ih =>
    have hop : ∀ e' ∈ e.operands, e'.WellFormed := fun _ => h.of_mem_operands
    have hih := fun e' he' => ih e' he' (hop e' he') (hanc.operand he')
    have hwf : (e.mapOperands flatten).WellFormed :=
      h.mapOperands fun e' he' => wellFormed_flatten (hop e' he')
    have hroot := anchored_mapOperands keepsKind_flatten
      (fun e' he' => weight_flatten (hop e' he')) hanc.root
    have hops : ∀ e' ∈ (e.mapOperands flatten).operands, Everywhere Anchored e' := by
      rw [operands_mapOperands]
      exact List.forall_mem_map.2 fun e' he' => (hih e' he').2
    rw [flatten_eq_splice]
    constructor
    · exact (Descends.mapOperands fun e' he' => (hih e' he').1).trans
        (Flatten.splice_descends hwf hroot fun e' he' => (hops e' he').root)
    · refine .node (Flatten.anchored_splice hroot fun e' he' => (hops e' he').root) ?_
      intro e' he'
      rcases Flatten.mem_operands_splice he' with he' | ⟨e'', he'', he'⟩
      · exact hops e' he'
      · exact (hops e'' he'').operand he'

/-! ### Anchored trees -/

theorem everywhere_num (n : Int64) : Everywhere Anchored (.num n) :=
  .node trivial (by simp [operands])

theorem everywhere_sumOf (h : ∀ e ∈ es, Everywhere Anchored e) :
    Everywhere Anchored (sumOf es) := by
  match es, h with
  | [], _ => exact everywhere_num 0
  | [e], h => exact h e List.mem_cons_self
  | _ :: _ :: _, h => exact .node trivial h

/-- A product without a factor `1` is anchored. -/
theorem everywhere_prodOf (h : ∀ e ∈ es, Everywhere Anchored e) (h1 : 1 ∉ es) :
    Everywhere Anchored (prodOf es) := by
  match es, h with
  | [], _ => exact everywhere_num 0
  | [e], h => exact h e List.mem_cons_self
  | _ :: _ :: _, h => exact .node (fun hmem => absurd hmem h1) h

theorem everywhere_quot {a b : Expr} (ha : Everywhere Anchored a) (hb : Everywhere Anchored b) :
    Everywhere Anchored (.quot a b) :=
  .node trivial (by simp [operands, ha, hb])

theorem everywhere_ofFraction (q : Fraction) : Everywhere Anchored (ofFraction q) := by
  rw [ofFraction]
  split_ifs
  · exact everywhere_num _
  · exact everywhere_quot (everywhere_num _) (everywhere_num _)

namespace Fold

/-- Folding a quotient gives anchored trees. -/
theorem anchored_quotient {a b : Expr} (ha : Everywhere Anchored a) (hb : Everywhere Anchored b) :
    Everywhere Anchored (quotient a b) := by
  unfold quotient
  split
  · next n d =>
    split_ifs
    · exact everywhere_quot ha hb
    · cases Fraction.reduce? ⟨n, d⟩ with
      | none => exact everywhere_quot ha hb
      | some q => exact everywhere_ofFraction q
  · exact everywhere_quot ha hb

/-- Folding a sum gives anchored trees. -/
theorem anchored_addends (h : ∀ e ∈ es, Everywhere Anchored e) :
    Everywhere Anchored (addends es) := by
  have hothers : ∀ e ∈ es.filter fun e => e.fraction?.isNone, Everywhere Anchored e := fun e he =>
    h e (List.mem_of_mem_filter he)
  simp only [addends]
  split_ifs
  · exact .node trivial h
  · split
    · exact .node trivial h
    · refine everywhere_sumOf ?_
      split_ifs
      · exact hothers
      · rw [List.forall_mem_append]
        exact ⟨hothers, by simpa using everywhere_ofFraction _⟩

/-- Integers whose product does not fit have a weight, at least two of them. -/
theorem two_le_heavy (h : multiply? (es.filterMap num?) = none) : 2 ≤ heavy es := by
  by_contra! hlt
  have hcount : ((es.filterMap num?).filter (· ≠ 1)).length ≤ heavy es := by
    rw [heavy_perm (factors_perm es), Flatten.heavy_append, Flatten.heavy_append]
    refine le_trans (le_of_eq ?_) ((Nat.le_add_left _ _).trans (Nat.le_add_left _ _))
    rw [heavy, List.countP_map, eq_comm, List.countP_eq_length]
    intro n hn
    simpa [weight_num_eq_zero_iff] using (List.mem_filter.1 hn).2
  obtain ⟨c, hc⟩ := exists_multiply? (Nat.le_of_lt_succ (hcount.trans_lt hlt))
  rw [hc] at h
  cases h

/-- Folding a product gives anchored trees: a folded number is `1` only where it is the only
factor. -/
theorem anchored_product (h : ∀ e ∈ es, Everywhere Anchored e) :
    Everywhere Anchored (product es) := by
  have hothers : ∀ e ∈ es.filter fun e => e.num?.isNone, Everywhere Anchored e := fun e he =>
    h e (List.mem_of_mem_filter he)
  have hone : 1 ∉ es.filter fun e => e.num?.isNone := fun h1 => by
    simpa [num?] using (List.mem_filter.1 h1).2
  simp only [product]
  split
  · next hnone => exact .node (fun _ => two_le_heavy hnone) h
  · next c _ =>
    split_ifs with h0 h1
    · exact everywhere_num 0
    · have hall : ∀ e ∈ (es.filter fun e => e.num?.isNone) ++ [.num c], Everywhere Anchored e := by
        rw [List.forall_mem_append]
        exact ⟨hothers, by simpa using everywhere_num c⟩
      by_cases hc : c = 1
      · rw [h1.resolve_left (fun hne => hne hc)]
        exact everywhere_num c
      · refine everywhere_prodOf hall fun hmem => ?_
        rcases List.mem_append.1 hmem with hmem | hmem
        · exact hone hmem
        · cases List.mem_singleton.1 hmem
          exact hc rfl
    · exact everywhere_prodOf hothers hone

/-- Folding gives anchored trees. -/
theorem anchored_rule (h : ∀ e' ∈ e.operands, Everywhere Anchored e') :
    Everywhere Anchored (rule e) := by
  cases e with
  | quot a b => exact anchored_quotient (h a (by simp [operands])) (h b (by simp [operands]))
  | prod es => exact anchored_product h
  | sum es => exact anchored_addends h
  | _ => exact .node trivial h

end Fold

/-- After folding, all products are anchored, whatever was there before. -/
theorem anchored_fold (e : Expr) : Everywhere Anchored (fold e) :=
  .bottomUp (fun _ => Fold.anchored_rule) e

/-! ### Sorting -/

namespace Sorting

theorem keepsKind_rule : KeepsKind rule where
  num _ := rfl
  rank e := by cases e <;> rfl

theorem weight_rule (e : Expr) : (rule e).weight = e.weight := by
  cases e with
  | sum es => exact (sum_perm (Sorted.sort_perm Expr.le es)).1
  | prod es => exact (prod_perm (Sorted.sort_perm Expr.le es)).1
  | _ => rfl

theorem mem_operands_rule {e' : Expr} : e' ∈ (rule e).operands ↔ e' ∈ e.operands := by
  cases e with
  | sum es => exact (Sorted.sort_perm Expr.le es).mem_iff
  | prod es => exact (Sorted.sort_perm Expr.le es).mem_iff
  | _ => rfl

theorem anchored_rule (h : e.Anchored) : (rule e).Anchored := by
  cases e with
  | prod es =>
    have hperm := Sorted.sort_perm Expr.le es
    intro h1
    rw [heavy_perm hperm]
    exact h (hperm.mem_iff.1 h1)
  | _ => trivial

end Sorting

theorem keepsKind_sortOperands : KeepsKind sortOperands := Sorting.keepsKind_rule.bottomUp

theorem weight_sortOperands (h : e.WellFormed) : (sortOperands e).weight = e.weight :=
  weight_bottomUp Sorting.keepsKind_rule Sorting.wellFormed_rule
    (fun e _ => Sorting.weight_rule e) h

theorem anchored_sortOperands (h : e.WellFormed) (hanc : Everywhere Anchored e) :
    Everywhere Anchored (sortOperands e) := by
  induction e using operands_induct with
  | node e ih =>
    have hop : ∀ e' ∈ e.operands, e'.WellFormed := fun _ => h.of_mem_operands
    have hroot := anchored_mapOperands keepsKind_sortOperands
      (fun e' he' => weight_sortOperands (hop e' he')) hanc.root
    rw [sortOperands, bottomUp_eq]
    refine .node (Sorting.anchored_rule hroot) fun e' he' => ?_
    rw [Sorting.mem_operands_rule, operands_mapOperands] at he'
    obtain ⟨e'', he'', rfl⟩ := List.mem_map.1 he'
    exact ih e'' he'' (hop e'' he'') (hanc.operand he'')

/-- After a round, all products are anchored. -/
theorem anchored_round (e : Expr) : Everywhere Anchored (round e) :=
  anchored_sortOperands (wellFormed_fold (wellFormed_collect _)) (anchored_fold _)

end Simplification

end ComputerAlgebra
