import ComputerAlgebra.Proofs.Simplification.Stability

/-!
# What a round leaves on its level

Literals `1` whose sum does not fit are put into a sum of their own by one round, and the next round
flattens that sum first. So a round of the same measure need not give back the tree it was given,
but it gives `settle` of the flattened tree (`Quiet.finish_eq_settle`), and settling a tree that was
flattened and settled before changes nothing any more (`settle_flatten_settle`).
-/

namespace ComputerAlgebra

namespace Simplification

open ComputerAlgebra.Expr

variable {e e' : Expr} {es fs : List Expr} {n : ℕ}

/-! ### Addends `1` -/

/-- The addends of a sum with all the literals `1` put together as a sum of their own. -/
def nestOnes (es : List Expr) : List Expr :=
  if 2 ≤ es.count 1 then .sum (List.replicate (es.count 1) 1) :: es.filter fun e => e ≠ 1 else es

/-- Ones are taken together alike in any order. -/
theorem nestOnes_perm (h : es.Perm fs) : (nestOnes es).Perm (nestOnes fs) := by
  rw [nestOnes, nestOnes, h.count_eq]
  split_ifs
  · exact (h.filter _).cons _
  · exact h

theorem nestOnes_eq_self (h : es.count 1 < 2) : nestOnes es = es := if_neg h.not_ge

/-- A function that makes a `1` of ones only keeps their number. -/
theorem count_one_map {f : Expr → Expr} (h : ∀ e ∈ es, f e = 1 ↔ e = 1) :
    (es.map f).count 1 = es.count 1 := by
  rw [List.count_eq_countP, List.count_eq_countP, List.countP_map]
  refine List.countP_congr fun e he => ?_
  simp [h e he]

theorem filter_ne_one_map {f : Expr → Expr} (h : ∀ e ∈ es, f e = 1 ↔ e = 1) :
    ((es.map f).filter fun e => e ≠ 1) = (es.filter fun e => e ≠ 1).map f := by
  rw [List.filter_map]
  congr 1
  refine List.filter_congr fun e he => ?_
  simp [h e he]

/-- The literals `1` and the other addends. -/
theorem ones_append_perm (es : List Expr) :
    (List.replicate (es.count 1) 1 ++ es.filter fun e => e ≠ 1).Perm es := by
  rw [← List.filter_eq]
  refine .trans ?_ (List.filter_append_perm (· = 1) es)
  simp

/-! ### Settling -/

/-- Sort the operands of a node, and put literals `1` together. -/
def settleRule : Expr → Expr
  | .sum es => .sumOf (Sorted.sort Expr.le (nestOnes es))
  | .prod es => .prod (Sorted.sort Expr.le es)
  | e => e

/-- What a round makes of a flattened tree of the same measure. -/
def settle (e : Expr) : Expr := e.bottomUp settleRule

theorem settle_eq (e : Expr) : settle e = settleRule (e.mapOperands settle) := bottomUp_eq _ _

/-- Settling a sum does not depend on the order of its addends. -/
theorem settleRule_sum_perm (h : es.Perm fs) : settleRule (.sum es) = settleRule (.sum fs) :=
  congrArg sumOf (sort_eq_of_perm (nestOnes_perm h))

/-- Settling a product does not depend on the order of its factors. -/
theorem settleRule_prod_perm (h : es.Perm fs) : settleRule (.prod es) = settleRule (.prod fs) :=
  congrArg prod (sort_eq_of_perm h)

theorem settle_sum (es : List Expr) :
    settle (.sum es) = sumOf (Sorted.sort Expr.le (nestOnes (es.map settle))) := settle_eq _

theorem settle_prod (es : List Expr) :
    settle (.prod es) = .prod (Sorted.sort Expr.le (es.map settle)) := settle_eq _

/-- Two addends or more settle to as many, or to a single sum of literals `1`. -/
theorem sort_nestOnes_cases (hlen : 2 ≤ es.length) :
    2 ≤ (Sorted.sort Expr.le (nestOnes es)).length ∨
      ∃ gs, Sorted.sort Expr.le (nestOnes es) = [.sum gs] := by
  rw [nestOnes]
  split_ifs
  · generalize (es.filter fun e => e ≠ 1) = others
    cases others with
    | nil => exact .inr ⟨_, rfl⟩
    | cons e others =>
      rw [(Sorted.sort_perm _ _).length_eq]
      exact .inl (by simp)
  · rw [(Sorted.sort_perm _ _).length_eq]
    exact .inl hlen

/-- Settling keeps the kind of a tree. -/
theorem rank_settle (h : e.WellFormed) : (settle e).rank = e.rank := by
  cases h with
  | @sum es hlen _ =>
    have hlen' : 2 ≤ (es.map settle).length := by rwa [List.length_map]
    rw [settle_sum]
    rcases sort_nestOnes_cases hlen' with hlen | ⟨gs, heq⟩
    · rw [sumOf_of_two_le hlen]
      rfl
    · rw [heq]
      rfl
  | _ => rw [settle_eq]; rfl

/-! ### Folding and sorting -/

theorem fold_eq (e : Expr) : fold e = Fold.rule (e.mapOperands fold) := bottomUp_eq _ _

/-- Folding that stays at the level does so node by node, except in a base without a weight. -/
theorem fold_levels (h : e.WellFormed) (hpow : ∀ a b, e = .pow a b → a.weight ≠ 0)
    (hl : Level e (fold e)) :
    (∀ e' ∈ e.operands, Level e' (fold e')) ∧
      Level (e.mapOperands fold) (Fold.rule (e.mapOperands fold)) :=
  Level.of_bottomUp Fold.wellFormed_rule (fun _ => Fold.rule_descends) h hpow hl

/-- On its level folding only moves the operands of a node. -/
theorem sort_fold_eq (h : e.WellFormed) (hpow : ∀ a b, e = .pow a b → a.weight ≠ 0)
    (hanc : (e.mapOperands fold).Anchored) (hl : Level e (fold e)) :
    sortOperands (fold e) = Sorting.rule (e.mapOperands fun e' => sortOperands (fold e')) := by
  have hl' := (fold_levels h hpow hl).2
  rw [fold_eq]
  cases h with
  | @sum es hlen _ =>
    have hlen' : 2 ≤ (es.map fold).length := by rwa [List.length_map]
    -- at its level a sum can only have been reordered
    obtain ⟨gs, hperm, heq⟩ := (Fold.addends_drops hlen').resolve_right fun hdrop =>
      hdrop.not_level hl'
    change sortOperands (Fold.addends (es.map fold)) = _
    rw [heq, sortOperands, bottomUp_sum]
    have hsort := sort_eq_of_perm (hperm.map sortOperands)
    rw [List.map_map] at hsort
    exact congrArg Expr.sum hsort
  | @prod es hlen _ =>
    have hlen' : 2 ≤ (es.map fold).length := by rwa [List.length_map]
    have hfolds := Fold.product_folds hlen'
    change Level (.prod (es.map fold)) (Fold.product (es.map fold)) at hl'
    change sortOperands (Fold.product (es.map fold)) = _
    generalize Fold.product (es.map fold) = e at hfolds hl' ⊢
    -- a product can only have been reordered: dropping a `1` would leave one without an anchor
    cases hfolds with
    | perm hperm =>
      rw [sortOperands, bottomUp_prod]
      have hsort := sort_eq_of_perm (hperm.map sortOperands)
      rw [List.map_map] at hsort
      exact congrArg Expr.prod hsort
    | other hperm =>
      have hheavy := hanc (hperm.mem_iff.2 List.mem_cons_self)
      rw [heavy_perm hperm] at hheavy
      simp only [heavy, List.countP_cons, List.countP_nil, weight_one] at hheavy
      split_ifs at hheavy <;> simp_all
    | drops hdrop => exact absurd hl' hdrop.not_level
  | @quot a b _ _ =>
    have heq := (Fold.quotient_drops (fold a) (fold b)).resolve_right fun hdrop =>
      hdrop.not_level hl'
    change sortOperands (Fold.quotient (fold a) (fold b)) = _
    rw [heq, sortOperands, bottomUp_quot]
    rfl
  | _ => simp [mapOperands, Fold.rule, sortOperands, Sorting.rule]

/-! ### Collecting, folding and sorting -/

/-- A flattened tree without work for identities, whose measure collecting and folding keep. -/
structure Quiet (e : Expr) : Prop extends Steady e where
  folded : Level (collect e) (fold (collect e))

/-- The part of a round after the fraction pass. -/
def finish (e : Expr) : Expr := sortOperands (fold (collect e))

theorem finish_one : finish 1 = 1 := rfl

theorem wellFormed_ones (hn : 2 ≤ n) : (Expr.sum (List.replicate n 1)).WellFormed :=
  .sum (by simpa using hn) fun _ he => List.eq_of_mem_replicate he ▸ .one

theorem sort_ones (n : ℕ) :
    sortOperands (.sum (List.replicate n 1)) = .sum (List.replicate n 1) := by
  rw [sortOperands, bottomUp_sum, List.map_replicate]
  exact congrArg Expr.sum (List.perm_replicate.1 (Sorted.sort_perm _ _))

/-- Literals `1` that were put together as a multiple of `1` become a sum of their own. -/
theorem fold_multiple_one {m : Expr} (hm : m = Collect.multiple 1 (.sum (List.replicate n 1)))
    (hn : 2 ≤ n) (hl : Level m (fold m)) :
    Level (.sum (List.replicate n 1)) (fold (.sum (List.replicate n 1))) ∧
      fold m = .sum (List.replicate n 1) := by
  have hwf := wellFormed_ones hn
  have hlevels := (fold_levels (e := m) (by simp [hm, Collect.multiple, hwf, WellFormed.one])
    (by simp [hm, Collect.multiple]) hl).1
  have hones := hlevels (.sum (List.replicate n 1)) (by simp [hm, Collect.multiple, operands])
  refine ⟨hones, ?_⟩
  have hfold : fold (.sum (List.replicate n 1)) = .sum (List.replicate n 1) := by
    have hl' := (fold_levels hwf (by simp) hones).2
    have hmap : (List.replicate n 1).map fold = List.replicate n 1 := by
      rw [List.map_replicate]
      rfl
    rw [mapOperands, hmap] at hl'
    have hlen : 2 ≤ (List.replicate n (1 : Expr)).length := by rwa [List.length_replicate]
    obtain ⟨gs, hperm, heq⟩ := (Fold.addends_drops hlen).resolve_right fun hdrop =>
      hdrop.not_level hl'
    rw [fold_eq, mapOperands, hmap]
    exact heq.trans (congrArg Expr.sum (List.perm_replicate.1 hperm))
  rw [hm, fold_eq, Collect.multiple, mapOperands, List.map_cons, hfold]
  rfl

/-- Folding that stays at the level changes nothing in a sum but the order of its addends. -/
theorem fold_sumOf (hne : fs ≠ []) (hwf : (sumOf fs).WellFormed)
    (hl : Level (sumOf fs) (fold (sumOf fs))) :
    (∀ e ∈ fs, Level e (fold e)) ∧ sortOperands (fold (sumOf fs)) =
      sumOf (Sorted.sort Expr.le (fs.map fun e => sortOperands (fold e))) := by
  match fs, hne with
  | [e], _ => exact ⟨List.forall_mem_singleton.2 hl, rfl⟩
  | e :: f :: fs, _ =>
    refine ⟨(fold_levels hwf nofun hl).1, ?_⟩
    refine (sort_fold_eq hwf nofun trivial hl).trans (sumOf_of_two_le ?_).symm
    rw [(Sorted.sort_perm _ _).length_eq]
    simp

/-- Collecting finds nothing to do at a node once it has treated the operands, or puts literals `1`
together. -/
theorem Steady.collect_cases (h : Steady e) :
    (∀ es, e = .sum es → es.count 1 < 2) ∧ Distinct (e.mapOperands collect) ∧
        collect e = e.mapOperands collect ∨
      ∃ es fs, e = .sum es ∧ 2 ≤ es.count 1 ∧ collect e = .sumOf fs ∧ fs.Perm
        (Collect.multiple 1 (.sum (List.replicate (es.count 1) 1)) ::
          (es.filter fun e => e ≠ 1).map collect) := by
  cases e with
  | sum es =>
    have hone : ∀ e ∈ es, collect e = 1 ↔ e = 1 := fun e he => (h.operand he).collect_eq_one_iff
    have hcount := count_one_map hone
    rcases h.collect_sum with ⟨hnodup, heq⟩ | ⟨h2, fs, heq, hperm⟩
    · refine .inl ⟨?_, hnodup, heq⟩
      rintro _ ⟨⟩
      have hle := List.nodup_iff_count_le_one.1 hnodup 1
      have hkey := List.count_le_count_map (f := Prod.fst ∘ Collect.termAndCoefficient)
        (l := es.map collect) (x := 1)
      rw [List.map_map] at hle
      exact Nat.lt_succ_of_le ((hcount ▸ hkey).trans hle)
    · rw [filter_ne_one_map hone, hcount] at hperm
      exact .inr ⟨es, fs, rfl, hcount ▸ h2, heq, hperm⟩
  | prod es => exact .inl ⟨by simp, h.collect_prod⟩
  | _ => exact .inl ⟨by simp, trivial, by rw [collect_eq]; rfl⟩

namespace Quiet

/-- No power of a quiet tree has a base without a weight. -/
theorem weight_base {a b : Expr} (h : Quiet e) (he : e.mapOperands collect = .pow a b) :
    a.weight ≠ 0 := by
  cases e with
  | pow a' b' =>
    cases he
    have ha' : a' ∈ (Expr.pow a' b').operands := by simp [operands]
    rw [(h.toSteady.operand ha').level.1]
    exact h.tidy.root.weight_base
  | _ => cases he

theorem operand (h : Quiet e) (he' : e' ∈ e.operands) : Quiet e' where
  toSteady := h.toSteady.operand he'
  folded := by
    have hl := h.folded
    rcases h.collect_cases with ⟨-, -, heq⟩ | ⟨es, fs, rfl, h2, heq, hperm⟩
    · rw [heq] at hl
      have hwf : (e.mapOperands collect).WellFormed :=
        h.wellFormed.mapOperands fun e' _ => wellFormed_collect e'
      refine (fold_levels hwf (fun _ _ => h.weight_base) hl).1 _ ?_
      rw [operands_mapOperands]
      exact List.mem_map_of_mem he'
    · by_cases h1 : e' = 1
      · subst h1
        exact .refl 1
      · rw [heq] at hl
        have hmem : collect e' ∈ fs := hperm.mem_iff.2 <| List.mem_cons_of_mem _ <|
          List.mem_map_of_mem (List.mem_filter.2 ⟨he', by simpa using h1⟩)
        refine (fold_sumOf (List.ne_nil_of_mem hmem) (heq ▸ wellFormed_collect _) hl).1 _ hmem

/-- The end of a round does not change the weight of a quiet tree. -/
theorem weight_finish (h : Quiet e) : (finish e).weight = e.weight := by
  rw [finish, weight_sortOperands (wellFormed_fold (wellFormed_collect e)), h.folded.1, h.level.1]

/-- The end of a round neither makes nor loses a `1`. -/
theorem finish_eq_one_iff (h : Quiet e) : finish e = 1 ↔ e = 1 := by
  constructor
  · intro h1
    exact h.tidy.root (by rw [← h.weight_finish, h1, weight_one])
  · rintro rfl
    exact finish_one

/-- One node after another, a round sorts operands and puts literals `1` together. -/
theorem finish_eq (h : Quiet e) : finish e = settleRule (e.mapOperands finish) := by
  have hl := h.folded
  rw [finish]
  -- collecting has nothing to do, or it makes a multiple of the ones
  rcases h.collect_cases with ⟨hcount, -, heq⟩ | ⟨es, fs, rfl, h2, heq, hperm⟩
  · rw [heq] at hl ⊢
    have hwf : (e.mapOperands collect).WellFormed :=
      h.wellFormed.mapOperands fun e' _ => wellFormed_collect e'
    have hanc : ((e.mapOperands collect).mapOperands fold).Anchored := by
      rw [mapOperands_mapOperands]
      exact h.anchored_mapOperands fun e' he' =>
        (h.operand he').folded.1.trans (h.operand he').level.1
    rw [sort_fold_eq hwf (fun _ _ => h.weight_base) hanc hl, mapOperands_mapOperands]
    cases e with
    | sum es =>
      have hone : (es.map finish).count 1 = es.count 1 := count_one_map fun e he =>
        (h.operand he).finish_eq_one_iff
      have hnest := nestOnes_eq_self (hone ▸ hcount es rfl : (es.map finish).count 1 < 2)
      have hlen := (WellFormed.sum_iff.1 h.wellFormed).1
      rw [mapOperands, mapOperands, settleRule, hnest, sumOf_of_two_le]
      · rfl
      · rwa [(Sorted.sort_perm _ _).length_eq, List.length_map]
    | _ => rfl
  -- the ones become a sum of their own, as `nestOnes` has it
  · have hone : ∀ e ∈ es, finish e = 1 ↔ e = 1 := fun e he => (h.operand he).finish_eq_one_iff
    have hne : fs ≠ [] := List.ne_nil_of_mem (hperm.mem_iff.2 List.mem_cons_self)
    rw [heq] at hl ⊢
    obtain ⟨hlevels, hfold⟩ := fold_sumOf hne (heq ▸ wellFormed_collect _) hl
    have hmultiple := (fold_multiple_one rfl h2 <|
      hlevels _ (hperm.mem_iff.2 List.mem_cons_self)).2
    have hnest := hperm.map fun e => sortOperands (fold e)
    rw [List.map_cons, hmultiple, sort_ones, List.map_map] at hnest
    rw [hfold, mapOperands, settleRule, nestOnes, count_one_map hone, if_pos h2,
      filter_ne_one_map hone]
    exact congrArg sumOf (sort_eq_of_perm hnest)

/-- Collecting, folding and sorting settle a tree. -/
theorem finish_eq_settle (h : Quiet e) : finish e = settle e := by
  induction e using operands_induct with
  | node e ih =>
    rw [h.finish_eq, settle_eq, mapOperands_congr fun e' he' => ih e' he' (h.operand he')]

end Quiet

/-! ### Flattening what was settled -/

theorem Flatten.addends_eq (h : ∀ gs, e ≠ .sum gs) : Flatten.addends e = [e] := by
  cases e with
  | sum gs => exact absurd rfl (h gs)
  | _ => rfl

theorem Flatten.factors_eq (h : ∀ gs, e ≠ .prod gs) : Flatten.factors e = [e] := by
  cases e with
  | prod gs => exact absurd rfl (h gs)
  | _ => rfl

/-- Where no addend is a sum, there is nothing to take together. -/
theorem Flatten.flatMap_addends (h : ∀ gs, .sum gs ∉ es) : es.flatMap Flatten.addends = es := by
  rw [List.flatMap_congr fun e he => addends_eq fun gs heq => h gs (heq ▸ he)]
  exact List.flatMap_singleton' es

theorem Flatten.flatMap_factors (h : ∀ gs, .prod gs ∉ es) : es.flatMap Flatten.factors = es := by
  rw [List.flatMap_congr fun e he => factors_eq fun gs heq => h gs (heq ▸ he)]
  exact List.flatMap_singleton' es

/-- A flattened tree is flat. -/
theorem flat_flatten (e : Expr) : Everywhere Flat (flatten e) := by
  rw [flatten_eq_bottomUp]
  refine .bottomUp (fun e h => .node ?_ fun e' he' => ?_) e
  · cases e with
    | sum es =>
      intro fs hfs
      obtain ⟨e, he, hfs⟩ := List.mem_flatMap.1 hfs
      cases e with
      | sum gs => exact (h _ he).root fs hfs
      | _ => cases List.mem_singleton.1 hfs
    | prod es =>
      intro fs hfs
      obtain ⟨e, he, hfs⟩ := List.mem_flatMap.1 hfs
      cases e with
      | prod gs => exact (h _ he).root fs hfs
      | _ => cases List.mem_singleton.1 hfs
    | _ => trivial
  · rcases Flatten.mem_operands_splice he' with he' | ⟨e'', he'', he'⟩
    · exact h e' he'
    · exact (h e'' he'').operand he'

/-- A sum of ones is left as it is by the first pass. -/
theorem flatten_ones (n : ℕ) :
    flatten (.sum (List.replicate n 1)) = .sum (List.replicate n 1) := by
  have hone : flatten 1 = 1 := keepsKind_flatten.num 1
  have hsum : ∀ gs, .sum gs ∉ List.replicate n (1 : Expr) := fun gs hgs => by
    cases List.eq_of_mem_replicate hgs
  rw [flatten_eq_splice, mapOperands, List.map_replicate, hone, Flatten.splice,
    Flatten.flatMap_addends hsum]

/-- Flattening takes a nested sum of literals `1` apart again. -/
theorem flatMap_nestOnes (h : ∀ e ∈ es, ∀ gs, e ≠ .sum gs) :
    (((nestOnes es).map flatten).flatMap Flatten.addends).Perm (es.map flatten) := by
  have hsum : ∀ gs, .sum gs ∉ es.map flatten := fun gs hgs => by
    obtain ⟨e, he, heq⟩ := List.mem_map.1 hgs
    have hrank := keepsKind_flatten.rank e
    rw [heq] at hrank
    cases e with
    | sum fs => exact h _ he fs rfl
    | _ => cases hrank
  rw [nestOnes]
  split_ifs
  · have hfilter : ∀ gs, .sum gs ∉ (es.filter fun e => e ≠ 1).map flatten := fun gs hgs =>
      hsum gs (List.map_subset _ (List.filter_subset_self _) hgs)
    have hone : flatten 1 = 1 := keepsKind_flatten.num 1
    have hones := (ones_append_perm es).map flatten
    rw [List.map_append, List.map_replicate, hone] at hones
    rwa [List.map_cons, List.flatMap_cons, flatten_ones, Flatten.flatMap_addends hfilter]
  · rw [Flatten.flatMap_addends hsum]

/-- A sum of addends that are not all there is flattens to a sum of what they contribute. -/
theorem flatten_sumOf (h : 2 ≤ es.length ∨ ∃ gs, es = [.sum gs]) :
    flatten (sumOf es) = .sum ((es.map flatten).flatMap Flatten.addends) := by
  rcases h with hlen | ⟨gs, rfl⟩
  · rw [sumOf_of_two_le hlen, flatten_eq_splice, mapOperands, Flatten.splice]
  · rw [sumOf, List.map_singleton, List.flatMap_singleton, flatten_eq_splice, mapOperands,
      Flatten.splice, Flatten.addends]

/-- A settled tree that is flattened settles to the same tree again. -/
theorem settle_flatten_settle (hwf : e.WellFormed) (h : Everywhere Flat e) :
    settle (flatten (settle e)) = settle e := by
  induction e using operands_induct with
  | node e ih =>
    have hih := fun e' he' => ih e' he' (hwf.of_mem_operands he') (h.operand he')
    cases e with
    | sum es =>
      have hlen := (WellFormed.sum_iff.1 hwf).1
      -- no addend is a sum after settling, since there was none before
      have hss : ∀ e ∈ es.map settle, ∀ gs, e ≠ .sum gs := by
        refine List.forall_mem_map.2 fun e he gs heq => ?_
        have hrank := rank_settle (hwf.of_mem_operands he : e.WellFormed)
        rw [heq] at hrank
        cases e with
        | sum fs => exact h.root fs he
        | _ => cases hrank
      have hsort := (Sorted.sort_perm Expr.le (nestOnes (es.map settle))).map flatten
      have hperm := (hsort.flatMap_right Flatten.addends).trans (flatMap_nestOnes hss)
      -- flattening takes the nested ones apart, and settling nests them again
      rw [settle_sum, flatten_sumOf (sort_nestOnes_cases (by simpa using hlen)), settle_eq]
      refine (settleRule_sum_perm (hperm.map settle)).trans ?_
      rw [List.map_map, List.map_map]
      exact congrArg (settleRule ∘ Expr.sum) (List.map_congr_left hih)
    | prod es =>
      -- no factor is a product, so there is nothing to flatten
      have hss : ∀ gs, .prod gs ∉ (Sorted.sort Expr.le (es.map settle)).map flatten := by
        intro gs hgs
        obtain ⟨s, hs, hgs⟩ := List.mem_map.1 hgs
        obtain ⟨e, he, rfl⟩ := List.mem_map.1 ((Sorted.sort_perm _ _).mem_iff.1 hs)
        have hrank := keepsKind_flatten.rank (settle e)
        rw [hgs, rank_settle (hwf.of_mem_operands he : e.WellFormed)] at hrank
        cases e with
        | prod fs => exact h.root fs he
        | _ => cases hrank
      rw [settle_prod, flatten_eq_splice, mapOperands, Flatten.splice, Flatten.flatMap_factors hss,
        settle_eq]
      refine (settleRule_prod_perm ((Sorted.sort_perm _ _).map _ |>.map _)).trans ?_
      rw [List.map_map, List.map_map]
      exact congrArg (settleRule ∘ Expr.prod) (List.map_congr_left hih)
    | var x => simp [settle_eq, flatten_eq_splice, mapOperands, settleRule, Flatten.splice]
    | num n => simp [settle_eq, flatten_eq_splice, mapOperands, settleRule, Flatten.splice]
    | _ =>
      simp only [operands, List.forall_mem_cons] at hih
      simp [settle_eq (.quot _ _), settle_eq (.pow _ _), settle_eq (.app _ _), settle_eq (.eqn _ _),
        flatten_eq_splice (.quot _ _), flatten_eq_splice (.pow _ _), flatten_eq_splice (.app _ _),
        flatten_eq_splice (.eqn _ _), mapOperands, settleRule, Flatten.splice, hih]

end Simplification

end ComputerAlgebra
