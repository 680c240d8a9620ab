import ComputerAlgebra.Proofs.Simplification.Arity
import ComputerAlgebra.Proofs.Simplification.Measure

/-!
# Collecting like terms descends

A group of at least two factors becomes one power, and a group of at least two addends one product.
The measure drops with either, except for addends `1` and multiples of `1`, which only keep it.
-/

namespace ComputerAlgebra

namespace Simplification

open ComputerAlgebra.Expr

namespace Collect

variable {k v e : Expr} {es vs : List Expr}

/-- A pair of key and value as a group of its own. -/
def alone (combine : Expr → Expr → Expr) (k v : Expr) : Expr := if v = 1 then k else combine k v

theorem regroup_singleton (combine : Expr → Expr → Expr) (k v : Expr) :
    regroup combine (k, [v]) = alone combine k v := rfl

/-- A group of several members is the key combined with their sum. -/
theorem regroup_of_two_le (combine : Expr → Expr → Expr) (k : Expr) (h : 2 ≤ vs.length) :
    regroup combine (k, vs) = combine k (.sum vs) := by
  match vs, h with
  | _ :: _ :: _, _ => rfl

/-- What is summed over pairs on their own may be summed group by group. -/
theorem sum_alone (f : Expr → ℕ) (combine : Expr → Expr → Expr) (ps : List (Expr × Expr)) :
    ((ps.map fun p => alone combine p.1 p.2).map f).sum =
      ((group ps).map fun g => (g.2.map fun v => f (alone combine g.1 v)).sum).sum := by
  rw [← Groups.sum_map_pairs fun k v => f (alone combine k v), List.map_map]
  exact ((group_pairs_perm ps).symm.map _).sum_eq

/-- Groups of one value each are the pairs on their own. -/
theorem map_regroup_eq (combine : Expr → Expr → Expr) {groups : Groups}
    (hne : ∀ g ∈ groups, g.2 ≠ []) (h : ∀ g ∈ groups, g.2.length < 2) :
    groups.map (regroup combine) = groups.pairs.map fun p => alone combine p.1 p.2 := by
  induction groups with
  | nil => rfl
  | cons g groups ih =>
    obtain ⟨k, vs⟩ := g
    rw [List.forall_mem_cons] at h hne
    match vs, h.1, hne.1 with
    | [v], _, _ =>
      rw [List.map_cons, ih hne.2 h.2]
      rfl

/-- Pairs with different keys stay on their own. -/
theorem map_regroup_of_nodup (combine : Expr → Expr → Expr) {ps : List (Expr × Expr)}
    (h : (ps.map Prod.fst).Nodup) :
    (group ps).map (regroup combine) = ps.map fun p => alone combine p.1 p.2 := by
  rw [group_eq_map h, List.map_map]
  rfl

/-! ### Factors -/

theorem weight_alone_pow (k v : Expr) : (alone .pow k v).weight = (Expr.pow k v).weight := by
  rw [alone]
  split_ifs with h
  · subst h
    rw [weight_pow]
    split_ifs with hk <;> simp [hk]
  · rfl

theorem bars_alone_pow (k v : Expr) : (alone .pow k v).bars = (Expr.pow k v).bars := by
  rw [alone]
  split_ifs with h
  · subst h
    rw [bars_pow]
    split_ifs <;> simp
  · rfl

/-- What a factor of a given base costs. -/
theorem le_factorCost (hk : k.weight ≠ 0) (v : Expr) :
    k.slack + 4 * k.bars + 5 + (v.slack + 4 * v.bars + dull [v]) ≤ factorCost (alone .pow k v) := by
  have hw : (alone .pow k v).weight ≠ 0 := by
    rw [weight_alone_pow, weight_pow, if_neg hk]
    omega
  rw [factorCost, if_neg hw, bars_alone_pow, bars_pow, if_neg hk, alone]
  split_ifs with h
  · subst h
    simp [dull]
  · rw [slack_pow, if_neg hk]
    have : dull [v] ≤ 1 := List.countP_le_length
    omega

theorem two_le_factorCost (k v : Expr) : k.slack + 2 ≤ factorCost (alone .pow k v) := by
  rw [factorCost, alone]
  split_ifs with h hw hw
  · omega
  · omega
  · rw [slack_pow]
    split_ifs <;> omega
  · rw [slack_pow]
    split_ifs <;> omega

/-- A weight taken several times, against the weight and the signs of a sum. -/
theorem add_signs_le {n w : ℕ} (hw : 1 ≤ w) (hn : 2 ≤ n) : w + (n - 1) ≤ n * w := by
  obtain ⟨m, rfl⟩ : ∃ m, n = m + 2 := ⟨n - 2, by omega⟩
  have hm : m ≤ m * w := Nat.le_mul_of_pos_right _ hw
  rw [Nat.add_mul]
  omega

/-- Two or more factors of one base cost more than the power that collects them. -/
theorem power_drops (k : Expr) (hvs : 2 ≤ vs.length) :
    (Expr.pow k (.sum vs)).weight < (vs.map fun v => (alone .pow k v).weight).sum ∨
      (Expr.pow k (.sum vs)).weight = (vs.map fun v => (alone .pow k v).weight).sum ∧
      (Expr.pow k (.sum vs)).bars ≤ (vs.map fun v => (alone .pow k v).bars).sum ∧
      factorCost (.pow k (.sum vs)) < (vs.map fun v => factorCost (alone .pow k v)).sum := by
  simp only [weight_alone_pow, bars_alone_pow]
  by_cases hk : k.weight = 0
  -- a base without a weight: the exponents count for nothing, but each power has a slack
  · right
    have hcost : factorCost (.pow k (.sum vs)) = k.slack + 3 := by
      simp [factorCost, hk, bars_eq_zero hk]
    have hsum := sum_le_sum_map vs fun v _ => two_le_factorCost k v
    have hmul : 2 * (k.slack + 2) ≤ vs.length * (k.slack + 2) := Nat.mul_le_mul_right _ hvs
    simp only [weight_pow, if_pos hk, bars_pow, bars_eq_zero hk, hcost]
    refine ⟨by simp, Nat.zero_le _, ?_⟩
    omega
  -- another base is written once instead of several times
  · have hweight := add_signs_le (Nat.one_le_iff_ne_zero.2 hk) hvs
    have hbars : k.bars ≤ vs.length * k.bars := Nat.le_mul_of_pos_left _ (by omega)
    have hslack : k.slack + 4 * k.bars ≤ vs.length * (k.slack + 4 * k.bars) :=
      Nat.le_mul_of_pos_left _ (by omega)
    have hcost := List.sum_le_sum fun v (_ : v ∈ vs) => le_factorCost hk v
    have hdull : dull vs ≤ vs.length := List.countP_le_length
    have hpow : factorCost (.pow k (.sum vs)) =
        k.slack + (Expr.sum vs).slack + 1 + 4 * (k.bars + (Expr.sum vs).bars) + 5 := by
      rw [factorCost, if_neg (by simp [hk]), slack_pow, if_neg hk, bars_pow, if_neg hk]
    rw [hpow]
    simp only [weight_pow, if_neg hk, bars_pow, weight_sum, bars_sum, slack_sum, List.sum_map_add,
      List.sum_map_mul_left, sum_dull, List.map_const', List.sum_replicate, smul_eq_mul,
      Nat.mul_add vs.length (k.slack + 4 * k.bars) 5] at hcost ⊢
    omega

/-- Factors keep their cost when they are taken for base and exponent, and drop a needless
exponent. -/
theorem alone_factor (e : Expr) :
    alone .pow (baseAndExponent e).1 (baseAndExponent e).2 = e ∨
      Drops e (alone .pow (baseAndExponent e).1 (baseAndExponent e).2) := by
  cases e with
  | pow a b =>
    by_cases hb : b = 1
    · subst hb
      right
      right
      rw [alone, if_pos (by rfl)]
      simp only [baseAndExponent, weight_pow, bars_pow, slack_pow, weight_one, bars_one, slack_one]
      split_ifs <;> omega
    · exact .inl (if_neg hb)
  | _ => exact .inl (if_pos rfl)

/-- Writing a factor as a power of one exponent descends. -/
theorem alone_factor_descends (e : Expr) :
    Descends e (alone .pow (baseAndExponent e).1 (baseAndExponent e).2) := by
  rcases alone_factor e with h | h
  · rw [h]
    exact .refl e
  · refine h.descends ?_
    rintro n rfl
    exact h.not_level (.refl _)

/-- A group of equal factors weighs less than its members one by one, or as much without more bars
or cost. -/
theorem regroup_factors (g : Expr × List Expr) (hne : g.2 ≠ []) :
    (regroup .pow g).weight < (g.2.map fun v => (alone .pow g.1 v).weight).sum ∨
      (regroup .pow g).weight = (g.2.map fun v => (alone .pow g.1 v).weight).sum ∧
      (regroup .pow g).bars ≤ (g.2.map fun v => (alone .pow g.1 v).bars).sum ∧
      factorCost (regroup .pow g) ≤ (g.2.map fun v => factorCost (alone .pow g.1 v)).sum := by
  obtain ⟨k, vs⟩ := g
  by_cases hvs : 2 ≤ vs.length
  · rw [regroup_of_two_le .pow k hvs]
    exact (power_drops k hvs).imp_right fun ⟨hw, hb, hc⟩ => ⟨hw, hb, hc.le⟩
  · match vs, hne with
    | [v], _ => simp [regroup_singleton]
    | _ :: _ :: _, _ => simp at hvs

theorem eq_one_of_alone_pow {k v : Expr} (h : alone .pow k v = 1) : k = 1 := by
  rw [alone] at h
  split_ifs at h
  exact h

/-- Two pairs in one group are all there is. -/
theorem group_eq_singleton {ps : List (Expr × Expr)} (hlen : ps.length = 2)
    {g : Expr × List Expr} (hg : g ∈ group ps) (hg2 : 2 ≤ g.2.length) : group ps = [g] := by
  obtain ⟨k, vs⟩ := g
  have hperm := List.perm_cons_erase hg
  have hpairs : (Groups.pairs ((k, vs) :: (group ps).erase (k, vs))).length = 2 := by
    rw [← hlen, ← (group_pairs_perm ps).length_eq]
    exact (Groups.pairs_perm hperm).length_eq.symm
  rw [Groups.pairs_cons, List.length_append, List.length_map] at hpairs
  change 2 ≤ vs.length at hg2
  have hnil : (group ps).erase (k, vs) = [] := by
    refine List.eq_nil_iff_forall_not_mem.2 fun g' hg' => ?_
    have hrest : Groups.pairs ((group ps).erase (k, vs)) = [] :=
      List.eq_nil_of_length_eq_zero (by omega)
    have hnil := List.flatMap_eq_nil_iff.1 hrest g' hg'
    exact group_ne_nil ps g' (List.mem_of_mem_erase hg') (List.map_eq_nil_iff.1 hnil)
  rw [hnil] at hperm
  exact List.perm_singleton.1 hperm

/-- A factor `1` and one other factor that falls into the same group. -/
theorem transparent_drops {ps : List (Expr × Expr)} (hlen : ps.length = 2)
    (h1 : 1 ∈ ps.map fun p => alone .pow p.1 p.2) {g : Expr × List Expr} (hg : g ∈ group ps)
    (hg2 : 2 ≤ g.2.length) :
    Drops (.prod (ps.map fun p => alone .pow p.1 p.2))
      (.prodOf ((group ps).map (regroup .pow))) := by
  obtain ⟨k, vs⟩ := g
  have hgroup := group_eq_singleton hlen hg hg2
  -- two factors with one group have one key
  have hkeys : ∀ p ∈ ps, p.1 = k := by
    intro p hp
    have hmem := (group_pairs_perm ps).mem_iff.2 hp
    rw [hgroup, Groups.pairs_cons, Groups.pairs_nil, List.append_nil] at hmem
    obtain ⟨v, -, rfl⟩ := List.mem_map.1 hmem
    rfl
  have hk : k = 1 := by
    obtain ⟨p, hp, hp1⟩ := List.mem_map.1 h1
    rw [← hkeys p hp]
    exact eq_one_of_alone_pow hp1
  have hweight : ∀ e ∈ ps.map fun p => alone .pow p.1 p.2, e.weight = 0 := by
    refine List.forall_mem_map.2 fun p hp => ?_
    rw [hkeys p hp, hk, weight_alone_pow, weight_pow, weight_one, if_pos rfl]
  -- both are without a weight, and only one of them is exempt from being counted
  have hidle : (ps.map fun p => alone .pow p.1 p.2).countP (fun e => e.weight = 0) = 2 := by
    rw [← hlen, ← List.length_map (fun p => alone .pow p.1 p.2), List.countP_eq_length]
    exact fun e he => decide_eq_true (hweight e he)
  rw [hgroup, List.map_singleton, regroup_of_two_le .pow k hg2, hk]
  right
  refine ⟨?_, ?_, ?_⟩
  · rw [weight_prod, List.sum_eq_zero_iff.2 (List.forall_mem_map.2 hweight)]
    rfl
  · exact Nat.zero_le _
  · rw [slack_prod, idle, hidle, List.length_map, if_pos ⟨hlen, h1⟩]
    change 1 < _
    omega

/-- Factors of which two or more fall into one group drop when they are collected. -/
theorem groups_drops {ps : List (Expr × Expr)} (h : ∃ g ∈ group ps, 2 ≤ g.2.length) :
    Drops (.prod (ps.map fun p => alone .pow p.1 p.2))
      (.prodOf ((group ps).map (regroup .pow))) := by
  obtain ⟨g, hg, hg2⟩ := h
  have hne : (group ps).map (regroup .pow) ≠ [] := by
    simpa using List.ne_nil_of_mem hg
  have hstrict := regroup_of_two_le .pow g.1 hg2 ▸ power_drops g.1 hg2
  have hsum := sum_drops (fun g hg => regroup_factors g (group_ne_nil ps g hg)) ⟨g, hg, hstrict⟩
  have hweight := sum_alone weight .pow ps
  have hbars := sum_alone bars .pow ps
  have hcost := sum_alone factorCost .pow ps
  -- two powers one of which is `1` are the case in which no factor counts as idle
  by_cases htr : (ps.map fun p => alone .pow p.1 p.2).length = 2 ∧
      1 ∈ ps.map fun p => alone .pow p.1 p.2
  · exact transparent_drops (by simpa using htr.1) htr.2 hg hg2
  generalize ps.map (fun p => alone .pow p.1 p.2) = fs at hweight hbars hcost htr ⊢
  have hidle : idle fs = fs.countP fun e => e.weight = 0 := by
    rw [idle, if_neg htr, Nat.sub_zero]
  have hslack := slack_prod_add hidle
  have hslack' := slack_prod_le ((group ps).map (regroup .pow))
  have hof := slack_prodOf_le ((group ps).map (regroup .pow))
  simp only [Drops, weight_prodOf hne, bars_prodOf, weight_prod, bars_prod, hweight, hbars,
    List.map_map, Function.comp_def]
  rcases hsum with hlt | ⟨heq, hle, hlt⟩
  · exact .inl hlt
  · have hw := congrArg List.sum (List.map_congr_left heq)
    have hheavy : heavy fs = 0 ↔ heavy ((group ps).map (regroup .pow)) = 0 := by
      rw [heavy_eq_zero_iff, heavy_eq_zero_iff, hweight, List.map_map, Function.comp_def, hw]
    simp only [hcost, hheavy] at hslack
    simp only [List.map_map, Function.comp_def] at hslack'
    exact .inr ⟨hw, hle, by omega⟩

/-- On its level a product has factors of different bases, and collecting keeps it as it is. -/
theorem rule_prod (hlen : 2 ≤ es.length) :
    ((es.map baseAndExponent).map Prod.fst).Nodup ∧ rule (.prod es) = .prod es ∨
      Drops (.prod es) (rule (.prod es)) := by
  have hdesc := Descends.prod fun e (_ : e ∈ es) => alone_factor_descends e
  by_cases hgroups : ∃ g ∈ group (es.map baseAndExponent), 2 ≤ g.2.length
  · right
    have hdrops := groups_drops hgroups
    rw [List.map_map] at hdrops
    exact hdesc.trans_drops hdrops
  · have hnodup := keys_nodup_of_length (es.map baseAndExponent) fun g hg =>
      not_le.1 fun hg2 => hgroups ⟨g, hg, hg2⟩
    have hrule : rule (.prod es) =
        .prod (es.map fun e => alone .pow (baseAndExponent e).1 (baseAndExponent e).2) := by
      rw [rule, map_regroup_of_nodup .pow hnodup, List.map_map]
      exact prodOf_of_two_le (by simpa using hlen)
    rw [hrule]
    by_cases hstrip : ∀ e ∈ es, alone .pow (baseAndExponent e).1 (baseAndExponent e).2 = e
    · left
      rw [(List.map_congr_left hstrip).trans (List.map_id es)]
      exact ⟨hnodup, rfl⟩
    · right
      push Not at hstrip
      obtain ⟨e, he, hne⟩ := hstrip
      have hdrop := (alone_factor e).resolve_left hne
      refine hdesc.drops fun hl => ?_
      exact hdrop.not_level (Level.of_prod (fun e _ => alone_factor_descends e) hl e he)

/-! ### Addends -/

/-- A coefficient times a term. -/
def multiple (term coefficient : Expr) : Expr := .prod [coefficient, term]

theorem weight_alone_multiple (t c : Expr) :
    (alone multiple t c).weight = c.weight + t.weight := by
  rw [alone]
  split_ifs with h
  · simp [h]
  · simp [multiple]

theorem bars_alone_multiple (t c : Expr) : (alone multiple t c).bars = c.bars + t.bars := by
  rw [alone]
  split_ifs with h
  · simp [h]
  · simp [multiple]

/-- What a coefficient next to a term without a weight costs. -/
theorem idle_pair {c t : Expr} (hc : c ≠ 1) (ht : t.weight = 0) :
    idle [c, t] + (if t = 1 then 1 else 0) = if c.weight = 0 then 2 else 1 := by
  simp only [idle, List.countP_cons, List.countP_nil, List.length_cons, List.length_nil,
    List.mem_cons, List.not_mem_nil, or_false, ht, hc.symm, false_or, eq_comm (a := t)]
  split_ifs <;> simp_all

/-- What a multiple of a term without weight costs. -/
theorem le_addendCost {t : Expr} (ht : t.weight = 0) (c : Expr) :
    t.slack + (if t = 1 then 1 else 3) + (c.slack + 4 * c.bars + 4 * dull [c]) ≤
      addendCost (alone multiple t c) := by
  have hbars := bars_eq_zero ht
  rw [alone]
  by_cases hc : c = 1
  · subst hc
    by_cases ht1 : t = 1 <;> simp [addendCost, dull_singleton, ht, ht1]
  · rw [if_neg hc]
    have hidle := idle_pair hc ht
    have hheavy : heavy [c, t] ≤ 1 := by
      simp only [heavy, List.countP_cons, List.countP_nil, ht]
      split_ifs <;> simp_all
    have hdull : dull [multiple t c] = if c.weight = 0 then 1 else 0 := by
      rw [dull_singleton]
      simp [multiple, ht]
    rw [addendCost, hdull, multiple, slack_prod]
    simp only [List.map_cons, List.map_nil, List.sum_cons, List.sum_nil, dull_singleton]
    split_ifs at * <;> omega

/-- What the multiple costs that collects the multiples of a term without weight. -/
theorem addendCost_multiple {t : Expr} (ht : t.weight = 0) (hvs : 2 ≤ vs.length) :
    addendCost (multiple t (.sum vs)) =
      (Expr.sum vs).slack + t.slack + (if t = 1 then 0 else 2) + 4 * (Expr.sum vs).bars + 1 := by
  have hsum : (Expr.sum vs).weight ≠ 0 := by
    rw [weight_sum]
    omega
  have hidle := idle_pair (c := .sum vs) (by simp) ht
  have hheavy : heavy [.sum vs, t] = 1 := by
    simp [heavy, ht, hsum, -weight_sum]
  have hdull : dull [multiple t (.sum vs)] = 0 := by
    rw [dull_singleton, if_neg]
    rw [multiple, weight_prod]
    simp only [List.map_cons, List.sum_cons]
    omega
  rw [if_neg hsum] at hidle
  rw [addendCost, hdull, multiple, slack_prod, hheavy]
  simp only [List.map_cons, List.map_nil, List.sum_cons, List.sum_nil, bars_eq_zero ht]
  split_ifs at * <;> omega

/-- Two or more multiples of one term cost at least as much as the multiple that collects them, and
more unless the term is `1`. -/
theorem multiple_drops (t : Expr) (hvs : 2 ≤ vs.length) :
    (multiple t (.sum vs)).weight + 1 < (vs.map fun c => (alone multiple t c).weight + 1).sum ∨
      (multiple t (.sum vs)).weight + 1 = (vs.map fun c => (alone multiple t c).weight + 1).sum ∧
      (multiple t (.sum vs)).bars ≤ (vs.map fun c => (alone multiple t c).bars).sum ∧
      addendCost (multiple t (.sum vs)) + (if t = 1 then 0 else 1) ≤
        (vs.map fun c => addendCost (alone multiple t c)).sum := by
  simp only [weight_alone_multiple, bars_alone_multiple]
  by_cases ht : t.weight = 0
  · right
    have hcost := List.sum_le_sum fun c (_ : c ∈ vs) => le_addendCost ht c
    rw [addendCost_multiple ht hvs]
    have hslack : t.slack ≤ vs.length * t.slack := Nat.le_mul_of_pos_left _ (by omega)
    simp only [multiple, weight_prod, bars_prod, List.map_cons, List.map_nil, List.sum_cons,
      List.sum_nil, weight_sum, bars_sum, slack_sum, ht, bars_eq_zero ht, List.sum_map_add,
      List.sum_map_mul_left, sum_dull, List.map_const', List.sum_replicate, smul_eq_mul,
      Nat.mul_add vs.length t.slack] at hcost ⊢
    split_ifs at * <;> omega
  · left
    have hmul : 2 * t.weight ≤ vs.length * t.weight := Nat.mul_le_mul_right _ hvs
    simp only [multiple, weight_prod, List.map_cons, List.map_nil, List.sum_cons,
      List.sum_nil, weight_sum, List.sum_map_add, List.map_const', List.sum_replicate, smul_eq_mul]
    omega

/-- A group of equal terms weighs less than its members one by one, or as much without more bars or
cost. -/
theorem regroup_addends (g : Expr × List Expr) (hne : g.2 ≠ []) :
    (regroup multiple g).weight + 1 < (g.2.map fun c => (alone multiple g.1 c).weight + 1).sum ∨
      (regroup multiple g).weight + 1 = (g.2.map fun c => (alone multiple g.1 c).weight + 1).sum ∧
      (regroup multiple g).bars ≤ (g.2.map fun c => (alone multiple g.1 c).bars).sum ∧
      addendCost (regroup multiple g) ≤
        (g.2.map fun c => addendCost (alone multiple g.1 c)).sum := by
  obtain ⟨t, vs⟩ := g
  by_cases hvs : 2 ≤ vs.length
  · rw [regroup_of_two_le multiple t hvs]
    exact (multiple_drops t hvs).imp_right fun ⟨hw, hb, hc⟩ =>
      ⟨hw, hb, (Nat.le_add_right _ _).trans hc⟩
  · match vs, hne with
    | [c], _ => simp [regroup_singleton]
    | _ :: _ :: _, _ => simp at hvs

/-- Groups of like terms descend from the members one by one. -/
theorem groups_sum_descends {ps : List (Expr × Expr)} (hps : ps ≠ []) :
    Descends (.sum (ps.map fun p => alone multiple p.1 p.2))
      (.sumOf ((group ps).map (regroup multiple))) := by
  refine .of_addends (by simpa using hps) (by simpa using group_ne_nil_of_ne_nil hps) ?_
  rw [sum_alone fun e => e.weight + 1, sum_alone bars, sum_alone addendCost]
  simp only [List.map_map, Function.comp_def]
  refine (sum_descends fun g hg => regroup_addends g (group_ne_nil ps g hg)).imp_right ?_
  exact fun ⟨hw, hb, hc⟩ => ⟨congrArg List.sum (List.map_congr_left hw), hb, hc⟩

/-- Only numbers and multiples of `1` may fall into one group without a drop. -/
theorem groups_sum_drops {ps : List (Expr × Expr)}
    (h : ∃ g ∈ group ps, 2 ≤ g.2.length ∧ g.1 ≠ 1) :
    Drops (.sum (ps.map fun p => alone multiple p.1 p.2))
      (.sumOf ((group ps).map (regroup multiple))) := by
  obtain ⟨g, hg, hg2, hg1⟩ := h
  have hgroup : group ps ≠ [] := List.ne_nil_of_mem hg
  have hps : ps ≠ [] := by
    rintro rfl
    exact hgroup rfl
  have hstrict := regroup_of_two_le multiple g.1 hg2 ▸ multiple_drops g.1 hg2
  rw [if_neg hg1] at hstrict
  refine .of_addends (by simpa using hps) (by simpa using hgroup) ?_
  rw [sum_alone fun e => e.weight + 1, sum_alone bars, sum_alone addendCost]
  simp only [List.map_map, Function.comp_def]
  refine (sum_drops (fun g hg => regroup_addends g (group_ne_nil ps g hg))
    ⟨g, hg, hstrict⟩).imp_right ?_
  exact fun ⟨hw, hb, hc⟩ => ⟨congrArg List.sum (List.map_congr_left hw), hb, hc⟩

/-- An addend is its term times its coefficient; only a needless coefficient `1` is lost. -/
theorem alone_addend (e : Expr) :
    alone multiple (termAndCoefficient e).1 (termAndCoefficient e).2 = e ∨
      ∃ t, e = .prod [1, t] ∧
        alone multiple (termAndCoefficient e).1 (termAndCoefficient e).2 = t := by
  unfold termAndCoefficient
  split
  · next c t =>
    by_cases hc : c = 1
    · exact .inr ⟨t, by rw [hc], if_pos hc⟩
    · exact .inl (if_neg hc)
  · exact .inl (if_pos rfl)

/-- Writing an addend as a multiple of one coefficient descends. -/
theorem alone_addend_descends (e : Expr) :
    Descends e (alone multiple (termAndCoefficient e).1 (termAndCoefficient e).2) := by
  rcases alone_addend e with h | ⟨t, rfl, h⟩
  · rw [h]
    exact .refl e
  · rw [h]
    exact .of_prod_one t

theorem sum_descends_rule (hne : es ≠ []) : Descends (.sum es) (rule (.sum es)) := by
  have hdesc := Descends.sum fun e (_ : e ∈ es) => alone_addend_descends e
  have hgroups :=
    groups_sum_descends (mt List.map_eq_nil_iff.1 hne : es.map termAndCoefficient ≠ [])
  rw [List.map_map] at hgroups
  exact hdesc.trans hgroups

/-! ### Addends `1` -/

theorem eq_one_of_alone_multiple {t c : Expr} (h : alone multiple t c = 1) : t = 1 := by
  rw [alone] at h
  split_ifs at h
  · exact h
  · cases (show Expr.prod [c, t] = .num 1 from h)

/-- A list that splits into literals `1` and others is split by counting and filtering. -/
theorem ones_split {others : List Expr} {n : ℕ} (h1 : 1 ∉ others)
    (h : es.Perm (List.replicate n 1 ++ others)) :
    es.count 1 = n ∧ (es.filter fun e => e ≠ 1).Perm others := by
  constructor
  · rw [h.count_eq, List.count_append, List.count_replicate_self, List.count_eq_zero_of_not_mem h1,
      Nat.add_zero]
  · have hfilter : (others.filter fun e => e ≠ 1) = others := by
      refine List.filter_eq_self.2 fun e he => decide_eq_true ?_
      rintro rfl
      exact h1 he
    refine (h.filter _).trans ?_
    rw [List.filter_append, hfilter, List.filter_replicate]
    simp

/-- Where no product has a factor `1`, only ones are in the group of `1`. -/
theorem group_of_ones {vs : List Expr} (h1 : ∀ c t, Expr.prod [c, t] ∈ es → c ≠ 1 ∧ t ≠ 1)
    (hg : (1, vs) ∈ group (es.map termAndCoefficient)) : vs = List.replicate vs.length 1 := by
  refine List.eq_replicate_iff.2 ⟨rfl, fun v hv => ?_⟩
  obtain ⟨e, he, hpair⟩ := List.mem_map.1 (mem_of_mem_group _ hg hv)
  unfold termAndCoefficient at hpair
  split at hpair
  · next c t =>
    cases hpair
    exact absurd rfl (h1 _ _ he).2
  · cases hpair
    rfl

/-- The addends that fall into groups apart from the literals `1`. -/
theorem exists_others {ps : List (Expr × Expr)} {vs : List Expr} (hg : (1, vs) ∈ group ps)
    (h : ∀ g ∈ group ps, 2 ≤ g.2.length → g.1 = 1) :
    ∃ others : List Expr, 1 ∉ others ∧
      (ps.map fun p => alone multiple p.1 p.2).Perm (vs.map (alone multiple 1) ++ others) ∧
      ((group ps).map (regroup multiple)).Perm (regroup multiple (1, vs) :: others) := by
  have hperm := List.perm_cons_erase hg
  have hnodup := (hperm.map Prod.fst).nodup_iff.1 (group_keys_nodup ps)
  rw [List.map_cons, List.nodup_cons] at hnodup
  have hne : ∀ g ∈ (group ps).erase (1, vs), g.2 ≠ [] := fun g hg =>
    group_ne_nil ps g (List.mem_of_mem_erase hg)
  have hkey : ∀ g ∈ (group ps).erase (1, vs), g.1 ≠ 1 := fun g hg hg1 =>
    hnodup.1 (List.mem_map.2 ⟨g, hg, hg1⟩)
  have hlen : ∀ g ∈ (group ps).erase (1, vs), g.2.length < 2 := fun g hg =>
    not_le.1 fun hg2 => hkey g hg (h g (List.mem_of_mem_erase hg) hg2)
  have hpairs := (Groups.pairs_perm hperm).symm.trans (group_pairs_perm ps)
  refine ⟨((group ps).erase (1, vs)).map (regroup multiple), ?_, ?_, hperm.map _⟩
  · rw [map_regroup_eq multiple hne hlen]
    intro hmem
    obtain ⟨p, hp, hone⟩ := List.mem_map.1 hmem
    obtain ⟨ws, hg, -⟩ := mem_pairs.1 hp
    exact hkey _ hg (eq_one_of_alone_multiple hone)
  · rw [map_regroup_eq multiple hne hlen]
    have hmap := (hpairs.map fun p => alone multiple p.1 p.2).symm
    rwa [Groups.pairs_cons, List.map_append, List.map_map] at hmap

/-- On its level a sum has addends of different terms, and collecting keeps it as it is, or all it
has twice is the literal `1`, and these are put together. -/
theorem rule_sum (h1 : ∀ c t, Expr.prod [c, t] ∈ es → c ≠ 1 ∧ t ≠ 1) :
    (((es.map termAndCoefficient).map Prod.fst).Nodup ∧ rule (.sum es) = .sumOf es) ∨
      (2 ≤ es.count 1 ∧ ∃ fs : List Expr, rule (.sum es) = .sumOf fs ∧ fs.Perm
        (multiple 1 (.sum (List.replicate (es.count 1) 1)) :: es.filter fun e => e ≠ 1)) ∨
      Drops (.sum es) (rule (.sum es)) := by
  have hes : (es.map termAndCoefficient).map (fun p => alone multiple p.1 p.2) = es := by
    rw [List.map_map]
    refine (List.map_congr_left fun e he => ?_).trans (List.map_id es)
    rcases alone_addend e with h | ⟨t, rfl, -⟩
    · exact h
    · exact absurd rfl (h1 1 t he).1
  by_cases hdrop : ∃ g ∈ group (es.map termAndCoefficient), 2 ≤ g.2.length ∧ g.1 ≠ 1
  · have hdrops := groups_sum_drops hdrop
    rw [hes] at hdrops
    exact .inr (.inr hdrops)
  · push Not at hdrop
    by_cases hones : ∃ g ∈ group (es.map termAndCoefficient), 2 ≤ g.2.length
    · right
      left
      obtain ⟨⟨k, vs⟩, hg, hg2⟩ := hones
      obtain rfl : k = 1 := hdrop _ hg hg2
      have hvs := group_of_ones h1 hg
      obtain ⟨others, hothers, hperm, hgroups⟩ := exists_others hg hdrop
      rw [regroup_of_two_le multiple 1 hg2, hvs] at hgroups
      rw [hes, hvs, List.map_replicate] at hperm
      obtain ⟨hcount, hfilter⟩ := ones_split hothers hperm
      rw [hcount]
      exact ⟨hg2, _, rfl, hgroups.trans (hfilter.symm.cons _)⟩
    · left
      push Not at hones
      have hnodup := keys_nodup_of_length _ hones
      have hgroups := map_regroup_of_nodup multiple hnodup
      rw [hes] at hgroups
      exact ⟨hnodup, congrArg sumOf hgroups⟩

theorem rule_descends (h : e.WellFormed) : Descends e (rule e) := by
  cases h with
  | @sum es hlen _ => exact sum_descends_rule (List.ne_nil_of_length_pos (by omega))
  | @prod es hlen _ =>
    rcases rule_prod hlen with ⟨-, heq⟩ | hdrop
    · rw [heq]
      exact .refl _
    · exact hdrop.descends (by simp)
  | _ => exact .refl _

end Collect

theorem descends_collect {e : Expr} (h : e.WellFormed) : Descends e (collect e) :=
  .bottomUp Collect.wellFormed_rule (fun _ => Collect.rule_descends) h

end Simplification

end ComputerAlgebra
