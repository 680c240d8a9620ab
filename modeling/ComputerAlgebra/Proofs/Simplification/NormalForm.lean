import ComputerAlgebra.Proofs.Simplification.Termination

/-!
# Normal form

A tree that no round changes is changed by none of the passes either, up to the order of operands
that the last pass restores (`simplify_normal`). So nothing is left for any rule at any of its
nodes.

A sum of more literals `1` than 64 bits can count is the one thing that rounds leave to each other:
collecting nests it in the sum that held them, folding cannot add it up, and flattening takes it
apart again. `Storable` excludes it, as memory does.
-/

namespace ComputerAlgebra

namespace Simplification

open ComputerAlgebra.Expr

variable {cap : Option ℕ} {e e' t v : Expr} {es : List Expr} {n : ℕ}

/-- The operands of a node are held in memory, so that a 64-bit integer counts them. -/
def Storable (e : Expr) : Prop := e.operands.length < 2 ^ 63

/-! ### Literals `1` -/

theorem fold_one : fold 1 = 1 := by
  rw [fold_eq]
  rfl

/-- As many literals `1` as 64 bits count are added up. -/
theorem ones_drop (h2 : 2 ≤ n) (hn : n < 2 ^ 63) :
    Drops (.sum (List.replicate n 1)) (fold (.sum (List.replicate n 1))) := by
  obtain ⟨q, hq⟩ := Fraction.exists_sum?_ones hn
  have hfractions : (List.replicate n (1 : Expr)).filterMap fraction? = List.replicate n ⟨1, 1⟩ :=
    List.filterMap_replicate_of_some rfl
  have hothers : (List.replicate n (1 : Expr)).filter (fun e => e.fraction?.isNone) = [] :=
    List.filter_replicate_of_neg (by decide)
  have hsum : ∀ fs, Fold.addends (List.replicate n 1) ≠ .sum fs := by
    have hne : List.replicate n (⟨1, 1⟩ : Fraction) ≠ [] := by simpa using by omega
    have hden : (List.replicate n (⟨1, 1⟩ : Fraction)).any (fun q => q.den = 0) = false := by
      simp
    intro fs
    simp only [Fold.addends, hfractions, hq, hothers, hne, hden, Bool.false_eq_true, or_self,
      if_false, List.nil_append, ofFraction]
    split_ifs <;> simp [sumOf]
  rw [fold_eq, mapOperands, List.map_replicate, fold_one]
  refine (Fold.addends_drops (by simpa using h2)).resolve_left ?_
  rintro ⟨fs, -, heq⟩
  exact hsum fs heq

/-! ### Nodes -/

/-- The operands of a sum or a product ascend. -/
def Ascending : Expr → Prop
  | .sum es => es.Pairwise fun a b => le a b = true
  | .prod es => es.Pairwise fun a b => le a b = true
  | _ => True

/-- No factor of a product is a quotient, and neither side of a quotient is one. -/
def OneBar : Expr → Prop
  | .prod es => ∀ a b, .quot a b ∉ es
  | .quot a b => (∀ c d, a ≠ .quot c d) ∧ ∀ c d, b ≠ .quot c d
  | _ => True

/-- No operand is neutral or absorbing, and no quotient has equal sides, apart from quotients with
the literal denominator `0`. -/
def NoIdentity : Expr → Prop
  | .quot a b => b ≠ 1 ∧ (a = 0 → b = 0) ∧ (a = b → b = 0)
  | .pow a b => b ≠ 0 ∧ b ≠ 1 ∧ a ≠ 1
  | .prod es => 0 ∉ es
  | _ => True

/-- A node on which no pass has anything to do. -/
structure Normal (e : Expr) : Prop where
  ascending : Ascending e
  flat : Flat e
  oneBar : OneBar e
  distinct : Distinct e
  noIdentity : NoIdentity e

/-- No tree is its own numerator. -/
theorem quot_ne_left (a b : Expr) : a ≠ .quot a b := fun h => by
  have hsize := congrArg sizeOf h
  simp only [quot.sizeOf_spec] at hsize
  omega

/-- Where the rule for fractions has nothing to do, there is one fraction bar. -/
theorem oneBar_of_rule (h : Fractions.rule e = e) : OneBar e := by
  cases e with
  | prod es =>
    intro a b hab
    have hmem : b ∈ es.filterMap Fractions.denominator? := List.mem_filterMap.2 ⟨_, hab, rfl⟩
    simp only [Fractions.rule, Fractions.product] at h
    split at h
    · next hnil => simp [hnil] at hmem
    · cases h
  | quot a b =>
    simp only [Fractions.rule] at h
    constructor
    · rintro c d rfl
      exact quot_ne_left c d (quot.inj h).1
    · rintro c d rfl
      unfold Fractions.quotient at h
      split at h
      · next c' d' => exact quot_ne_left c' d' (quot.inj h).1
      · next heq =>
        cases heq
        exact quot_ne_left c d (quot.inj h).2
      · next hquot => exact hquot c d rfl
  | _ => trivial

/-- Where the rule of identities has nothing to do, no identity is left. -/
theorem noIdentity_of_rule (h : Identities.rule e = e) : NoIdentity e := by
  cases e with
  | prod es =>
    intro h0
    rw [Identities.rule, if_pos h0] at h
    cases h
  | quot a b =>
    rw [Identities.rule, Identities.quotient] at h
    split_ifs at h with h1 h0 heq
    · exact absurd h (quot_ne_left a b)
    · exact ⟨h1, fun ha => by_contra fun hb => h0 ⟨ha, hb⟩,
        fun hab => by_contra fun hb => heq ⟨hab, hb⟩⟩
  | pow a b =>
    rw [Identities.rule] at h
    unfold Identities.power at h
    split_ifs at h with h0 h1
    · have hsize := congrArg sizeOf h
      simp only [pow.sizeOf_spec] at hsize
      omega
    · rw [not_or] at h0
      exact ⟨h0.1, h1, h0.2⟩
  | _ => trivial

/-- Sorting puts the operands of every node into order. -/
theorem ascending_sortOperands (e : Expr) : Everywhere Ascending (sortOperands e) := by
  refine .bottomUp (fun e h => .node ?_ fun e' he' => h e' (Sorting.mem_operands_rule.1 he')) e
  cases e with
  | sum es => exact sort_pairwise es
  | prod es => exact sort_pairwise es
  | _ => trivial

/-! ### Flat trees -/

theorem flat_sortOperands (h : Everywhere Flat e) : Everywhere Flat (sortOperands e) := by
  induction e using operands_induct with
  | node e ih =>
    have hops : ∀ e' ∈ (sortOperands e).operands, ∃ e'' ∈ e.operands, sortOperands e'' = e' := by
      intro e' he'
      rw [sortOperands, bottomUp_eq, Sorting.mem_operands_rule, operands_mapOperands] at he'
      exact List.mem_map.1 he'
    refine .node ?_ fun e' he' => ?_
    · -- sorting keeps the kinds of the root and of its operands
      have hrank := keepsKind_sortOperands.rank
      cases e with
      | sum es =>
        intro fs hfs
        obtain ⟨e', he', heq⟩ := hops _ hfs
        have hrank' := hrank e'
        rw [heq] at hrank'
        cases e' with
        | sum gs => exact h.root gs he'
        | _ => cases hrank'
      | prod es =>
        intro fs hfs
        obtain ⟨e', he', heq⟩ := hops _ hfs
        have hrank' := hrank e'
        rw [heq] at hrank'
        cases e' with
        | prod gs => exact h.root gs he'
        | _ => cases hrank'
      | _ => simp [sortOperands, Sorting.rule, Flat]
    · obtain ⟨e'', he'', rfl⟩ := hops e' he'
      exact ih e'' he'' (h.operand he'')

theorem Flatten.splice_eq_self (h : Flat e) : Flatten.splice e = e := by
  cases e with
  | sum es => exact congrArg Expr.sum (flatMap_addends h)
  | prod es => exact congrArg Expr.prod (flatMap_factors h)
  | _ => rfl

/-- The first pass leaves trees alone in which nested sums and products are written as one. -/
theorem flatten_eq_self (h : Everywhere Flat e) : flatten e = e := by
  rw [flatten_eq_bottomUp]
  exact (h.imp fun _ => Flatten.splice_eq_self).bottomUp_eq_self

/-! ### Fixed points -/

theorem everywhere_of_sumOf {p : Expr → Prop} (h : Everywhere p (sumOf es)) (he : e ∈ es) :
    Everywhere p e := by
  match es with
  | [_] => rwa [List.mem_singleton.1 he]
  | _ :: _ :: _ => exact h.operand he

/-- Sorting and folding keep the number of ones in a sum. -/
theorem Quiet.count_settle (h : Quiet (.sum es)) : (es.map settle).count 1 = es.count 1 :=
  count_one_map fun e he => by
    rw [← (h.operand he).finish_eq_settle, (h.operand he).finish_eq_one_iff]

/-- A 64-bit integer counts the literals `1` among the addends of a sum. -/
def FewOnes : Expr → Prop
  | .sum es => es.count 1 < 2 ^ 63
  | _ => True

/-- In a tree that settles to one that can be stored, sums have few literals `1`. -/
theorem Quiet.fewOnes (h : Quiet e) (hs : Everywhere Storable (settle e)) :
    Everywhere FewOnes e := by
  induction e using operands_induct with
  | node e ih =>
    cases e with
    | sum es =>
      have hmem {f : Expr} (hf : f ∈ nestOnes (es.map settle)) : Everywhere Storable f := by
        rw [settle_sum] at hs
        exact everywhere_of_sumOf hs ((Sorted.sort_perm _ _).mem_iff.2 hf)
      have hone : Everywhere FewOnes 1 := .node trivial nofun
      rw [nestOnes, h.count_settle] at hmem
      -- two ones or more are nested, and settling stores them in a sum of their own
      by_cases h2 : 2 ≤ es.count 1
      · rw [if_pos h2] at hmem
        refine .node ?_ fun e' he' => ?_
        · have hstored := (hmem List.mem_cons_self).root
          rwa [Storable, operands, List.length_replicate] at hstored
        · by_cases h1 : settle e' = 1
          · rw [← (h.operand he').finish_eq_settle, (h.operand he').finish_eq_one_iff] at h1
            exact h1 ▸ hone
          · exact ih e' he' (h.operand he') <| hmem <| List.mem_cons_of_mem _ <|
              List.mem_filter.2 ⟨List.mem_map_of_mem he', by simpa using h1⟩
      · rw [if_neg h2] at hmem
        exact .node (show es.count 1 < 2 ^ 63 by omega) fun e' he' =>
          ih e' he' (h.operand he') (hmem (List.mem_map_of_mem he'))
    | prod es =>
      rw [settle_prod] at hs
      exact .node trivial fun e' he' => ih e' he' (h.operand he') <|
        hs.operand ((Sorted.sort_perm _ _).mem_iff.2 (List.mem_map_of_mem he'))
    | _ =>
      rw [settle_eq] at hs
      refine .node trivial fun e' he' => ih e' he' (h.operand he') (hs.operand ?_)
      have hmem : settle e' ∈ (mapOperands settle _).operands :=
        operands_mapOperands settle _ ▸ List.mem_map_of_mem he'
      exact hmem

/-- Settling a tree with few literals `1` only sorts it, and collecting has nothing to do in it. -/
theorem Quiet.settle_eq_sort (h : Quiet e) (hs : Everywhere FewOnes e) :
    Everywhere Distinct e ∧ Everywhere (fun e => collect e = e) e ∧ settle e = sortOperands e := by
  induction e using operands_induct with
  | node e ih =>
    have hl := h.folded
    have hih := fun e' (he' : e' ∈ e.operands) => ih e' he' (h.operand he') (hs.operand he')
    rcases h.collect_cases with ⟨hcount, hdistinct, heq⟩ | ⟨es, fs, rfl, h2, heq, hperm⟩
    · have hsettle : settle e = Sorting.rule (e.mapOperands settle) := by
        rw [settle_eq]
        cases e with
        | sum es =>
          have hlen := (WellFormed.sum_iff.1 h.wellFormed).1
          rw [mapOperands, settleRule, nestOnes_eq_self (h.count_settle ▸ hcount es rfl),
            sumOf_of_two_le]
          · rfl
          · rwa [(Sorted.sort_perm _ _).length_eq, List.length_map]
        | _ => rfl
      have hcollect : e.mapOperands collect = e := mapOperands_eq_self fun e' he' =>
        (hih e' he').2.1.root
      rw [hcollect] at hdistinct heq
      refine ⟨.node hdistinct fun e' he' => (hih e' he').1,
        .node heq fun e' he' => (hih e' he').2.1, ?_⟩
      rw [hsettle, mapOperands_congr fun e' he' => (hih e' he').2.2, sortOperands, bottomUp_eq]
      rfl
    · -- the literals `1` that were put together are too many to be counted
      have hne : fs ≠ [] := List.ne_nil_of_mem (hperm.mem_iff.2 List.mem_cons_self)
      rw [heq] at hl
      have hones := (fold_multiple_one rfl h2 <|
        (fold_sumOf hne (heq ▸ wellFormed_collect _) hl).1 _
          (hperm.mem_iff.2 List.mem_cons_self)).1
      exact absurd hones (ones_drop h2 hs.root).not_level

/-- A tree that no round changes and that has few literals `1` in its sums is one that rounds have
nothing to do in. -/
theorem prepared_of_fewOnes (hfix : round t = t) (hs : Everywhere FewOnes (flatten t)) :
    Prepared t ∧ Everywhere Distinct t ∧ Everywhere (fun e => collect e = e) t ∧
      sortOperands t = t := by
  have hwf : t.WellFormed := hfix ▸ wellFormed_round t
  have hanc : Everywhere Anchored t := hfix ▸ anchored_round t
  have hl : Level t (round t) := hfix.symm ▸ .refl t
  have hprep := prepared_flatten hwf hanc hl
  have hsettle := round_eq_settle hwf hanc hl
  rw [hfix] at hsettle
  obtain ⟨hdistinct, hcollect, hsort⟩ := hprep.quiet.settle_eq_sort hs
  have hflat : Everywhere Flat t := by
    rw [hsettle, hsort]
    exact flat_sortOperands hprep.quiet.flat
  rw [flatten_eq_self hflat] at hprep hdistinct hcollect hsort hsettle
  exact ⟨hprep, hdistinct, hcollect, hsort.symm.trans hsettle.symm⟩

/-- A tree that no round changes and that can be stored is one that rounds have nothing to do in. -/
theorem prepared_of_round (hfix : round t = t) (hs : Everywhere Storable t) :
    Prepared t ∧ Everywhere Distinct t ∧ collect t = t ∧ sortOperands t = t := by
  have hwf : t.WellFormed := hfix ▸ wellFormed_round t
  have hanc : Everywhere Anchored t := hfix ▸ anchored_round t
  have hl : Level t (round t) := hfix.symm ▸ .refl t
  have hsettle := (round_eq_settle hwf hanc hl).symm.trans hfix
  obtain ⟨hprep, hdistinct, hcollect, hsort⟩ := prepared_of_fewOnes hfix <|
    (prepared_flatten hwf hanc hl).quiet.fewOnes (hsettle.symm ▸ hs)
  exact ⟨hprep, hdistinct, hcollect.root, hsort⟩

/-- What rounds converge to is a fixed point of them. -/
theorem step_eq_of_converge {α : Type*} [DecidableEq α] {step : α → α} {limit : ℕ} {a b : α}
    (h : converge step limit a = .ok b) : step b = b := by
  induction limit generalizing a with
  | zero => cases h
  | succ limit ih =>
    rw [converge] at h
    split_ifs at h with hstep
    · cases h
      exact hstep
    · exact ih h

/-- The tree that the simplifier returns is given back by every single pass, once its operands are
sorted again, and nothing is left to do at any of its nodes. -/
theorem simplify_normal (h : simplify cap v = .ok t) (hs : Everywhere Storable t) :
    (∀ pass ∈ passes, sortOperands (pass t) = t) ∧ Everywhere Normal t := by
  have hfix := step_eq_of_converge h
  obtain ⟨hprep, hdistinct, hcollect, hsort⟩ := prepared_of_round hfix hs
  have hflat := hprep.quiet.flat
  have hid : applyIdentities t = t := hprep.identities.bottomUp_eq_self
  have hmerge : mergeFractions t = t := hprep.fractions.bottomUp_eq_self
  have hfold : sortOperands (fold t) = t := by
    rw [round_eq_finish, prepare, flatten_eq_self hflat, hid, hmerge, finish, hcollect] at hfix
    exact hfix
  refine ⟨?_, ?_⟩
  · simp only [passes, List.forall_mem_cons]
    exact ⟨by rw [flatten_eq_self hflat, hsort], by rw [hid, hsort], by rw [hmerge, hsort],
      by rw [hcollect, hsort], hfold, by rw [hsort, hsort], by simp⟩
  · have hasc : Everywhere Ascending t := hsort ▸ ascending_sortOperands t
    refine ((hasc.and hflat).and (hdistinct.and (hprep.fractions.and hprep.identities))).imp ?_
    rintro e ⟨⟨hasc, hflat⟩, hdistinct, hmerge, hid⟩
    exact ⟨hasc, hflat, oneBar_of_rule hmerge, hdistinct, noIdentity_of_rule hid⟩

/-- `x + x` is simplified to `2 * x`. -/
theorem simplify_normal_double :
    simplify (some 2) (.sum [.var "x", .var "x"]) = .ok (.prod [.num 2, .var "x"]) ∧
      Everywhere Storable (.prod [.num 2, .var "x"]) ∧
      Everywhere Normal (.prod [.num 2, .var "x"]) := by
  have h : simplify (some 2) (.sum [.var "x", .var "x"]) = .ok (.prod [.num 2, .var "x"]) := by
    decide
  have hs : Everywhere Storable (.prod [.num 2, .var "x"]) := by
    refine .node (by simp [Storable, operands]) fun e he => ?_
    simp only [operands, List.mem_cons, List.not_mem_nil, or_false] at he
    rcases he with rfl | rfl <;> exact .node (by simp [Storable, operands]) (by simp [operands])
  exact ⟨h, hs, (simplify_normal h hs).2⟩

end Simplification

end ComputerAlgebra
