import ComputerAlgebra.Proofs.Rational.Whole

/-!
# Trees that rounds leave alone

In a tree that no round changes, no rule of a pass changes any node, once folding and sorting are
taken as one pass (`inert_of_round`).
-/

namespace ComputerAlgebra

namespace Expr

variable {e e' : Expr} {es : List Expr}

/-! ### Sizes -/

theorem nodeCountAll_eq_sum (es : List Expr) : nodeCountAll es = (es.map nodeCount).sum := by
  induction es with
  | nil => rfl
  | cons e es ih => rw [nodeCountAll, ih, List.map_cons, List.sum_cons]

theorem one_le_nodeCount (e : Expr) : 1 ≤ e.nodeCount := by
  cases e <;> simp [nodeCount]

theorem length_le_nodeCountAll (es : List Expr) : es.length ≤ nodeCountAll es := by
  induction es with
  | nil => exact Nat.zero_le _
  | cons e es ih =>
    have := one_le_nodeCount e
    rw [nodeCountAll, List.length_cons]
    omega

/-- An operand has fewer nodes than the node. -/
theorem nodeCount_lt_of_mem_operands (he' : e' ∈ e.operands) : e'.nodeCount < e.nodeCount := by
  have hle := List.single_le_sum (fun _ _ => Nat.zero_le _) _
    (List.mem_map_of_mem (f := nodeCount) he')
  rw [Simplification.Flatten.nodeCount_eq e, nodeCountAll_eq_sum]
  omega

end Expr

namespace Simplification

open ComputerAlgebra.Expr

variable {a b e e' t : Expr} {es : List Expr}

/-- Writing nested sums and products as one does not add nodes. -/
theorem Flatten.nodeCount_splice_le (e : Expr) : (splice e).nodeCount ≤ e.nodeCount := by
  have hle {parts : Expr → List Expr} (h : ∀ e, nodeCountAll (parts e) ≤ e.nodeCount)
      (es : List Expr) : nodeCountAll (es.flatMap parts) ≤ nodeCountAll es := by
    induction es with
    | nil => exact le_rfl
    | cons e es ih =>
      have := h e
      rw [nodeCountAll_eq_sum] at ih this ⊢
      rw [List.flatMap_cons, List.map_append, List.sum_append, nodeCountAll]
      omega
  cases e with
  | sum es =>
    refine Nat.add_le_add_left (hle (fun e => ?_) es) 1
    cases e <;> simp [addends, nodeCount, nodeCountAll]
  | prod es =>
    refine Nat.add_le_add_left (hle (fun e => ?_) es) 1
    cases e <;> simp [factors, nodeCount, nodeCountAll]
  | _ => exact le_rfl

/-- A pass whose rule makes no node larger makes no tree larger. -/
theorem nodeCount_bottomUp_le {rule : Expr → Expr} (h : ∀ e, (rule e).nodeCount ≤ e.nodeCount)
    (e : Expr) : (e.bottomUp rule).nodeCount ≤ e.nodeCount := by
  induction e using operands_induct with
  | node e ih =>
    rw [bottomUp_eq]
    refine (h _).trans ?_
    rw [Flatten.nodeCount_eq, Flatten.nodeCount_eq e, operands_mapOperands, nodeCountAll_eq_sum,
      nodeCountAll_eq_sum, List.map_map]
    exact Nat.add_le_add_left (List.sum_le_sum ih) 1

/-- The first pass does not add nodes. -/
theorem nodeCount_flatten_le (e : Expr) : (flatten e).nodeCount ≤ e.nodeCount := by
  rw [flatten_eq_bottomUp]
  exact nodeCount_bottomUp_le Flatten.nodeCount_splice_le e

/-- A tree that can be stored has few literals `1` in its sums. -/
theorem everywhere_fewOnes (h : e.nodeCount < 2 ^ 63) : Everywhere FewOnes e := by
  induction e using operands_induct with
  | node e ih =>
    refine .node ?_ fun e' he' => ih e' he' ((nodeCount_lt_of_mem_operands he').trans h)
    cases e with
    | sum es =>
      have hlen := length_le_nodeCountAll es
      have hcount := List.count_le_length (a := (1 : Expr)) (l := es)
      rw [nodeCount] at h
      show es.count 1 < 2 ^ 63
      omega
    | _ => trivial

/-! ### Folding and sorting -/

/-- Fold the numbers among the operands of one node, and sort them. -/
def Fold.sorted (e : Expr) : Expr := Sorting.rule (rule e)

/-- Sorting is idempotent at a node. -/
theorem Sorting.rule_rule (e : Expr) : rule (rule e) = rule e := by
  cases e with
  | sum es => exact congrArg Expr.sum (sort_eq_of_perm (Sorted.sort_perm _ _))
  | prod es => exact congrArg Expr.prod (sort_eq_of_perm (Sorted.sort_perm _ _))
  | _ => rfl

theorem sortOperands_eq (e : Expr) :
    sortOperands e = Sorting.rule (e.mapOperands sortOperands) := bottomUp_eq _ _

theorem sortingRule_sortOperands (e : Expr) : Sorting.rule (sortOperands e) = sortOperands e := by
  rw [sortOperands_eq, Sorting.rule_rule]

theorem num?_sortOperands (e : Expr) : (sortOperands e).num? = e.num? := by
  cases e <;> simp [sortOperands, Sorting.rule, num?]

/-- Sorting does not change what is read as a fraction. -/
theorem fraction?_sortOperands (e : Expr) : (sortOperands e).fraction? = e.fraction? := by
  cases e with
  | quot a b =>
    have ha := num?_sortOperands a
    have hb := num?_sortOperands b
    have hquot : sortOperands (.quot a b) = .quot (sortOperands a) (sortOperands b) := by
      simp [sortOperands, Sorting.rule]
    rw [hquot]
    generalize sortOperands a = a' at ha ⊢
    generalize sortOperands b = b' at hb ⊢
    cases a <;> cases a' <;> simp_all [num?, fraction?]
    cases b <;> cases b' <;> simp_all
  | _ => simp [sortOperands, Sorting.rule, fraction?]

theorem sortOperands_ofFraction (q : Fraction) : sortOperands (ofFraction q) = ofFraction q := by
  rcases ofFraction_cases q with ⟨-, h⟩ | ⟨-, h⟩ <;> rw [h] <;> rfl

/-- Sorting a sum sorts its addends first. -/
theorem sortOperands_sumOf (es : List Expr) :
    sortOperands (sumOf es) = Sorting.rule (sumOf (es.map sortOperands)) := by
  match es with
  | [] => rfl
  | [e] => exact (sortingRule_sortOperands e).symm
  | _ :: _ :: _ => exact sortOperands_eq _

theorem sortOperands_prodOf (es : List Expr) :
    sortOperands (prodOf es) = Sorting.rule (prodOf (es.map sortOperands)) := by
  match es with
  | [] => rfl
  | [e] => exact (sortingRule_sortOperands e).symm
  | _ :: _ :: _ => exact sortOperands_eq _

/-- Sorting treats the operands of a sum that are no numbers, and keeps the numbers. -/
theorem Fold.addends_map (es : List Expr) :
    sortOperands (addends es) = Sorting.rule (addends (es.map sortOperands)) := by
  have hfractions : (es.map sortOperands).filterMap fraction? = es.filterMap fraction? := by
    rw [List.filterMap_map]
    exact List.filterMap_congr fun e _ => fraction?_sortOperands e
  have hothers : (es.map sortOperands).filter (fun e => e.fraction?.isNone) =
      (es.filter fun e => e.fraction?.isNone).map sortOperands := by
    rw [List.filter_map]
    exact congrArg _ (List.filter_congr fun e _ => by simp [fraction?_sortOperands])
  have hsum : sortOperands (.sum es) = Sorting.rule (.sum (es.map sortOperands)) :=
    sortOperands_eq _
  rw [addends, addends, hfractions, hothers]
  dsimp only
  split_ifs
  · exact hsum
  · cases Fraction.sum? (es.filterMap fraction?) with
    | none => exact hsum
    | some q =>
      dsimp only
      split_ifs <;> rw [sortOperands_sumOf]
      rw [List.map_append, List.map_singleton, sortOperands_ofFraction]

/-- Folding a product after sorting its factors differs from folding it before by the order only. -/
theorem Fold.product_map (es : List Expr) :
    sortOperands (product es) = Sorting.rule (product (es.map sortOperands)) := by
  have hnums : (es.map sortOperands).filterMap num? = es.filterMap num? := by
    rw [List.filterMap_map]
    exact List.filterMap_congr fun e _ => num?_sortOperands e
  have hothers : (es.map sortOperands).filter (fun e => e.num?.isNone) =
      (es.filter fun e => e.num?.isNone).map sortOperands := by
    rw [List.filter_map]
    exact congrArg _ (List.filter_congr fun e _ => by simp [num?_sortOperands])
  have hprod : sortOperands (.prod es) = Sorting.rule (.prod (es.map sortOperands)) :=
    sortOperands_eq _
  rw [product, product, hnums, hothers]
  cases multiply? (es.filterMap num?) with
  | none => exact hprod
  | some c =>
    simp only [List.map_eq_nil_iff]
    split_ifs
    · rfl
    · rw [sortOperands_prodOf, List.map_append]
      rfl
    · rw [sortOperands_prodOf]

/-- Folding a quotient after sorting its parts differs from folding it before by the order only. -/
theorem Fold.quotient_map (a b : Expr) :
    sortOperands (quotient a b) = Sorting.rule (quotient (sortOperands a) (sortOperands b)) := by
  have hquot : sortOperands (.quot a b) = .quot (sortOperands a) (sortOperands b) :=
    sortOperands_eq _
  have hkeep {a b : Expr} (h : a.num? = none ∨ b.num? = none) : quotient a b = .quot a b := by
    unfold quotient
    split
    · simp [num?] at h
    · rfl
  by_cases h : a.num? = none ∨ b.num? = none
  · rw [hkeep h, hkeep (by rwa [num?_sortOperands, num?_sortOperands]), hquot]
    rfl
  · obtain ⟨n, rfl⟩ : ∃ n, a = .num n := by cases a <;> simp_all [num?]
    obtain ⟨d, rfl⟩ : ∃ d, b = .num d := by cases b <;> simp_all [num?]
    show sortOperands (quotient (.num n) (.num d)) = Sorting.rule (quotient (.num n) (.num d))
    unfold quotient
    dsimp only
    split_ifs
    · rfl
    · cases Fraction.reduce? ⟨n, d⟩ with
      | none => rfl
      | some q => rcases ofFraction_cases q with ⟨-, h⟩ | ⟨-, h⟩ <;> simp [h] <;> rfl

/-- Folding and sorting in turn are one pass. -/
theorem sort_fold_eq_bottomUp (e : Expr) : sortOperands (fold e) = e.bottomUp Fold.sorted := by
  have hrule (e : Expr) :
      sortOperands (Fold.rule e) = Fold.sorted (e.mapOperands sortOperands) := by
    cases e with
    | sum es => exact Fold.addends_map es
    | prod es => exact Fold.product_map es
    | quot a b => exact Fold.quotient_map a b
    | _ => exact sortOperands_eq _
  induction e using operands_induct with
  | node e ih =>
    rw [fold_eq, hrule, mapOperands_mapOperands, bottomUp_eq]
    exact congrArg Fold.sorted (mapOperands_congr ih)

theorem Fold.keepsWhole_sorted : KeepsWhole sorted :=
  keepsWhole_of_refines (fun _ h => Sorting.whole_rule (whole_rule h)) fun e h =>
    sort_fold_eq_bottomUp e ▸ (refines_fold h).trans (refines_sortOperands (wellFormed_fold h))

/-! ### Inert trees -/

/-- Nothing is divided by the literal `0`, and it is the base of no power but those with exponents
beyond 64 bits, which no rule evaluates. -/
def Grounded : Expr → Prop
  | .quot _ b => b ≠ 0
  | .pow a b => a ≠ 0 ∨ Vast b
  | _ => True

/-- No literal `0` is divided by or raised to a power. -/
def Regular : Expr → Prop
  | .quot _ b => b ≠ 0
  | .pow a _ => a ≠ 0
  | _ => True

instance : DecidablePred Regular := fun e => by
  unfold Regular
  split <;> infer_instance

/-- Regular trees are grounded. -/
theorem Regular.grounded (h : Regular e) : Grounded e := by
  cases e with
  | pow a b => exact .inl h
  | _ => exact h

/-- A grounded node that no rule changes, and that is no equation. -/
structure Still (e : Expr) : Prop where
  wellFormed : e.WellFormed
  grounded : Grounded e
  noEquation : e.isEquation = false
  splice : Flatten.splice e = e
  identities : Identities.rule e = e
  fractions : Fractions.rule e = e
  collect : Collect.rule e = e
  distinct : Distinct e
  fold : Fold.sorted e = e

/-- No rule changes any node of the tree. -/
def Inert (e : Expr) : Prop := Everywhere Still e

/-- A tree in ascending order is sorted already. -/
theorem sortingRule_of_ascending (h : Ascending e) : Sorting.rule e = e := by
  have hsort {es : List Expr} (h : es.Pairwise fun a b => le a b = true) :
      Sorted.sort Expr.le es = es :=
    (Sorted.sort_perm _ _).eq_of_pairwise (fun _ _ _ _ => le_antisymm) (sort_pairwise es) h
  cases e with
  | sum es => exact congrArg Expr.sum (hsort h)
  | prod es => exact congrArg Expr.prod (hsort h)
  | _ => rfl

/-- Folding and sorting change nothing in a quiet tree that is sorted and has its like terms
collected. -/
theorem Quiet.bottomUp_sorted_eq_self (hq : Quiet e) (hfew : Everywhere FewOnes e)
    (hcollect : collect e = e) (hsorted : Everywhere (fun e => Sorting.rule e = e) e) :
    e.bottomUp Fold.sorted = e := by
  rw [← sort_fold_eq_bottomUp]
  conv_lhs => rw [← hcollect]
  exact hq.finish_eq_settle.trans
    ((hq.settle_eq_sort hfew).2.2.trans hsorted.bottomUp_eq_self)

/-- A grounded tree without equations that no round changes is inert. -/
theorem inert_of_round (hfix : round e = e) (hnodes : e.nodeCount < 2 ^ 63)
    (hground : Everywhere Grounded e) (hfree : Everywhere (fun e => e.isEquation = false) e) :
    Inert e := by
  obtain ⟨hprep, hdistinct, hcollect, hsort⟩ := prepared_of_fewOnes hfix <|
    everywhere_fewOnes ((nodeCount_flatten_le e).trans_lt hnodes)
  have hsorted : Everywhere (fun e => Sorting.rule e = e) e :=
    (hsort ▸ ascending_sortOperands e).imp fun _ => sortingRule_of_ascending
  have hfew := everywhere_fewOnes hnodes
  clear hfix hnodes hsort
  induction e using operands_induct with
  | node e ih =>
    refine .node ?_ fun e' he' => ih e' he' (hground.operand he') (hfree.operand he')
      ⟨hprep.identities.operand he', hprep.fractions.operand he', hprep.quiet.operand he'⟩
      (hdistinct.operand he') (hcollect.operand he') (hsorted.operand he') (hfew.operand he')
    have hops (e' : Expr) (he' : e' ∈ e.operands) : e'.bottomUp Fold.sorted = e' :=
      (hprep.quiet.operand he').bottomUp_sorted_eq_self (hfew.operand he')
        (hcollect.operand he').root (hsorted.operand he')
    have hroot := hprep.quiet.bottomUp_sorted_eq_self hfew hcollect.root hsorted
    rw [bottomUp_eq, mapOperands_eq_self hops] at hroot
    have hcroot := hcollect.root
    rw [collect_eq, mapOperands_eq_self fun e' he' => (hcollect.operand he').root] at hcroot
    exact ⟨hprep.quiet.wellFormed, hground.root, hfree.root,
      Flatten.splice_eq_self hprep.quiet.flat.root, hprep.identities.root, hprep.fractions.root,
      hcroot, hdistinct.root, hroot⟩

end Simplification

end ComputerAlgebra
