import ComputerAlgebra.Proofs.Vanishing.Pending

/-!
# Collecting like terms of tame trees

Equal factors of a tame product become a power, whose exponent counts them if they need not be
solid. Addends with a common term become a multiple of it; that it has one zero less in it for each
but the first makes up for the coefficients being counted as addends.
-/

namespace ComputerAlgebra

namespace Simplification

open ComputerAlgebra.Expr Magnitude

variable {σ : Stage} {a b c e t : Expr} {es cs : List Expr}

/-! ### Collecting factors -/

/-- A factor is a power that collecting does not see. -/
theorem Collect.baseAndExponent_of_tame (h : Tame .collected e) :
    Tame .collected (.pow (baseAndExponent e).1 (baseAndExponent e).2) ∧
      (Solid e → Solid (.pow (baseAndExponent e).1 (baseAndExponent e).2)) ∧
      (Vanishing e → Vanishing (.pow (baseAndExponent e).1 (baseAndExponent e).2)) ∧
      zeroCount (.pow (baseAndExponent e).1 (baseAndExponent e).2) = zeroCount e := by
  cases e with
  | pow a b => exact ⟨h, id, id, rfl⟩
  | _ => exact ⟨.pow h .one, .pow 1, fun hv => .pow hv .one fun _ => not_vast_num 1,
      zeroCount_pow_one _⟩

/-- The factors of base `0` are powers of it that no rule evaluates, if none is a pending zero. -/
theorem Collect.vast_of_not_pending (h : ¬Pending e) (h0 : (baseAndExponent e).1 = 0) :
    Vast (baseAndExponent e).2 := by
  cases e with
  | pow a b => exact not_not.1 fun hb => h (pending_pow_iff.2 ⟨h0, hb⟩)
  | _ => exact absurd (.inl h0) h

/-- A group of equal factors becomes a power that is tame, solid if all of its members are and
vanishing if one of them is. A base `0` is met only with exponents that do not fit. -/
theorem Collect.fades_power {k : Expr} {vs : List Expr} (hne : vs ≠ [])
    (h : ∀ v ∈ vs, Tame .collected (.pow k v)) (hvast : k = 0 → ∀ v ∈ vs, Vast v) :
    Tame .collected (regroup .pow (k, vs)) ∧
      ((∀ v ∈ vs, Solid (.pow k v)) → Solid (regroup .pow (k, vs))) ∧
      ((∃ v ∈ vs, Vanishing (.pow k v)) → Vanishing (regroup .pow (k, vs))) ∧
      zeroCount (regroup .pow (k, vs)) ≤ (vs.map fun v => zeroCount (.pow k v)).sum := by
  rcases regroup_eq .pow (g := (k, vs)) hne with ⟨heq, hone⟩ | heq
  · obtain rfl : vs = [1] := hone
    rw [heq]
    refine ⟨(h 1 (by simp)).tame_base, fun hs => ?_, ?_, by simp [zeroCount_pow_one]⟩
    · exact (hs 1 (by simp)).base.resolve_right fun hb => not_vast_num 1 hb.2
    · rintro ⟨v, -, hv⟩
      exact (Vanishing.pow_iff.1 hv).1
  obtain ⟨v, hv⟩ := List.exists_mem_of_ne_nil vs hne
  have hmem {v : Expr} (hv : v ∈ vs) :
      zeroCount (.pow k v) ≤ (vs.map fun v => zeroCount (.pow k v)).sum :=
    List.single_le_sum (fun _ _ => Nat.zero_le _) _
      (List.mem_map_of_mem (f := fun v => zeroCount (.pow k v)) hv)
  rw [heq]
  by_cases hk : Solid k ∨ k = 0
  · -- then the powers and the power under the sum of their exponents are all solid
    have hsolid : ∀ v ∈ vs, Solid (.pow k v) := fun v hv => by
      rcases hk with hk | rfl
      · exact .pow v hk
      · exact .vast (hvast rfl v hv)
    have hsum : Solid (.pow k (.sumOf vs)) := by
      rcases hk with hk | rfl
      · exact .pow _ hk
      · exact .vast (.sumOf hne (hvast rfl))
    refine ⟨.solid hsum, fun _ => hsum, ?_, ?_⟩
    · rintro ⟨v, hv, hvanish⟩
      exact absurd hvanish (hsolid v hv).not_vanishing
    · have hle := hmem hv
      rwa [zeroCount_pow_of_solid (hsolid v hv), ← zeroCount_pow_of_solid hsum] at hle
  · rw [not_or] at hk
    have hnot (b : Expr) : ¬Solid (.pow k b) := fun hs =>
      hs.base.elim hk.1 fun hb => hk.2 hb.1
    have hvs : ∀ v ∈ vs, Counting v := fun v hv => ((h v hv).base.resolve_left (hnot v)).2
    refine ⟨.pow (h v hv).tame_base (.sumOf hne hvs), fun hs => absurd (hs v hv) (hnot v), ?_, ?_⟩
    · rintro ⟨v, hv, hvanish⟩
      exact .pow (Vanishing.pow_iff.1 hvanish).1 (.sumOf hne hvs) fun hk0 => absurd hk0 hk.2
    · simp only [zeroCount_pow_of_not_solid (hnot _),
        Whole.num_sumOf hne fun v hv => (hvs v hv).whole]
      rw [List.sum_map_mul_left]

/-- Every pair is in one of the groups. -/
theorem Collect.exists_group {ps : List (Expr × Expr)} {k v : Expr} (h : (k, v) ∈ ps) :
    ∃ vs, (k, vs) ∈ group ps ∧ v ∈ vs :=
  mem_pairs.1 ((group_pairs_perm ps).mem_iff.2 h)

/-- Collecting the factors of a tame product without pending zeros fades. -/
theorem Collect.fades_prod (h : Tame .collected (.prod es)) (hfactors : ∀ e ∈ es, ¬Pending e) :
    Fades .collected (.prod es) (rule (.prod es)) := by
  obtain ⟨hne, hes⟩ := h.factors_of_ne_raw (by decide)
  have hpairs := forall_group (es.map baseAndExponent) (p := fun k v => Tame .collected (.pow k v))
    (List.forall_mem_map.2 fun e he => (baseAndExponent_of_tame (hes e he)).1)
  -- a base may be `0` only where all its exponents are vast
  have hvast := forall_group (es.map baseAndExponent) (p := fun k v => k = 0 → Vast v)
    (List.forall_mem_map.2 fun e he => vast_of_not_pending (hfactors e he))
  have hgroups g (hg : g ∈ group (es.map baseAndExponent)) :=
    fades_power (group_ne_nil _ g hg) (hpairs g hg) fun h0 v hv => hvast g hg v hv h0
  have hnil : (group (es.map baseAndExponent)).map (regroup .pow) ≠ [] := by
    simpa using group_ne_nil_of_ne_nil (by simpa using hne)
  refine ⟨⟨.prodOf (List.forall_mem_map.2 fun g hg => (hgroups g hg).1), fun hs => ?_,
    fun hv => ?_⟩, ?_⟩
  · refine .prodOf hnil (List.forall_mem_map.2 fun g hg => (hgroups g hg).2.1 ?_)
    exact forall_group _ (p := fun k v => Solid (.pow k v)) (List.forall_mem_map.2 fun e he =>
      (baseAndExponent_of_tame (hes e he)).2.1 (hs.of_mem he)) g hg
  -- a vanishing factor has its pair in one of the groups
  · obtain ⟨e, he, hv⟩ := Vanishing.prod_iff.1 hv
    obtain ⟨vs, hg, hmem⟩ := exists_group (List.mem_map_of_mem (f := baseAndExponent) he)
    exact .prodOf (List.mem_map_of_mem hg)
      ((hgroups _ hg).2.2.1 ⟨_, hmem, (baseAndExponent_of_tame (hes e he)).2.2.1 hv⟩)
  -- counted by groups, then by pairs of base and exponent, then by factors
  · calc zeroCount (rule (.prod es))
        ≤ ((group (es.map baseAndExponent)).map fun g =>
            (g.2.map fun v => zeroCount (.pow g.1 v)).sum).sum := by
          rw [rule, zeroCount_prodOf hnil, List.map_map]
          exact List.sum_le_sum fun g hg => (hgroups g hg).2.2.2
      _ = ((es.map baseAndExponent).map fun p => zeroCount (.pow p.1 p.2)).sum := by
          rw [← Groups.sum_map_pairs fun k v => zeroCount (.pow k v)]
          exact ((group_pairs_perm _).map _).sum_eq
      _ = zeroCount (.prod es) := by
          rw [List.map_map, zeroCount_prod]
          exact congrArg _ (List.map_congr_left fun e he =>
            (baseAndExponent_of_tame (hes e he)).2.2.2)

/-! ### Collecting addends -/

/-- Term and coefficient of a tame addend are tame, one of them vanishes if the addend does, and
they have its zeros. -/
theorem Collect.termAndCoefficient_of_tame (h : Tame .collected e) :
    Tame .collected (termAndCoefficient e).1 ∧ Tame .collected (termAndCoefficient e).2 ∧
      (Vanishing e → Vanishing (termAndCoefficient e).1 ∨ Vanishing (termAndCoefficient e).2) ∧
      zeroCount (termAndCoefficient e).2 + zeroCount (termAndCoefficient e).1 = zeroCount e := by
  unfold termAndCoefficient
  split
  · next c t =>
    have hes := (h.factors_of_ne_raw (by decide)).2
    refine ⟨hes t (by simp), hes c (by simp), fun hv => ?_, by simp⟩
    obtain ⟨e, he, hv'⟩ := Vanishing.prod_iff.1 hv
    rcases List.mem_pair.1 he with rfl | rfl
    · exact .inr hv'
    · exact .inl hv'
  · exact ⟨h, .solid .one, .inl, by simp⟩

/-- Taking a common term out of several addends saves its zeros, which make up for the coefficients
having become addends. -/
theorem Collect.max_sum_add_le {l : List ℕ} {z : ℕ} (hlen : 2 ≤ l.length) (hz : z ≠ 1) :
    max 1 ((l.map (max 1)).sum + z) ≤ (l.map fun x => max 1 (x + z)).sum := by
  have hsum (l : List ℕ) : (l.map (max 1)).sum + l.length * (z - 1) ≤
      (l.map fun x => max 1 (x + z)).sum := by
    induction l with
    | nil => simp
    | cons x l ih =>
      have hx : max 1 x + (z - 1) ≤ max 1 (x + z) := by omega
      simp only [List.map_cons, List.sum_cons, List.length_cons, Nat.succ_mul]
      omega
  have hone : l.length ≤ (l.map (max 1)).sum := by
    clear hsum hlen
    induction l with
    | nil => simp
    | cons x l ih =>
      simp only [List.map_cons, List.sum_cons, List.length_cons]
      omega
  have h := hsum l
  have hmul := Nat.mul_le_mul_right (z - 1) hlen
  omega

/-- A group of equal terms is tame, and has no more zeros than its members one by one. -/
theorem Collect.fades_multiple (hne : cs ≠ []) (ht : Tame .collected t)
    (hcs : ∀ c ∈ cs, Tame .collected c) :
    Tame .collected (regroup (fun t c => .prod [c, t]) (t, cs)) ∧
      max 1 (zeroCount (regroup (fun t c => .prod [c, t]) (t, cs))) ≤
        (cs.map fun c => max 1 (zeroCount c + zeroCount t)).sum := by
  rcases regroup_eq (fun t c => .prod [c, t]) (g := (t, cs)) hne with ⟨heq, hone⟩ | heq
  · obtain rfl : cs = [1] := hone
    rw [heq]
    exact ⟨ht, by simp⟩
  · rw [heq]
    refine ⟨.prod (by simp) (by simp [ht, Tame.sumOf hcs]), ?_⟩
    match cs, hne with
    | [c], _ => simp [sumOf]
    | c :: c' :: cs, _ =>
      have hle := max_sum_add_le (l := (c :: c' :: cs).map zeroCount) (by simp) ht.zeroCount_ne_one
      rw [List.map_map, List.map_map] at hle
      simpa [sumOf, Function.comp_def] using hle

/-- A group of equal terms vanishes if all its members do. -/
theorem Collect.vanishing_multiple (hne : cs ≠ [])
    (h : ∀ c ∈ cs, Vanishing t ∨ Vanishing c) :
    Vanishing (regroup (fun t c => .prod [c, t]) (t, cs)) := by
  by_cases ht : Vanishing t
  · rcases regroup_eq (fun t c => .prod [c, t]) (g := (t, cs)) hne with ⟨heq, -⟩ | heq
    · rwa [heq]
    · rw [heq]
      exact .prod (by simp) ht
  · have hcs : ∀ c ∈ cs, Vanishing c := fun c hc => (h c hc).resolve_left ht
    rcases regroup_eq (fun t c => .prod [c, t]) (g := (t, cs)) hne with ⟨-, hone⟩ | heq
    · exact absurd (hcs 1 (by simp [show cs = [1] from hone])) Solid.one.not_vanishing
    · rw [heq]
      exact .prod List.mem_cons_self (.sumOf hcs)

/-- Collecting the addends of a tame sum fades. -/
theorem Collect.fades_sum (h : Tame .collected (.sum es)) (hi : ¬Inert (.sum es)) :
    Fades .collected (.sum es) (rule (.sum es)) := by
  obtain ⟨hlen, hes⟩ := h.addends
  have hkeys := forall_group_key (es.map termAndCoefficient) (p := Tame .collected)
    (List.forall_mem_map.2 fun e he => (termAndCoefficient_of_tame (hes e he)).1)
  have hvalues := forall_group_value (es.map termAndCoefficient) (p := Tame .collected)
    (List.forall_mem_map.2 fun e he => (termAndCoefficient_of_tame (hes e he)).2.1)
  have hgroups g (hg : g ∈ group (es.map termAndCoefficient)) :=
    fades_multiple (group_ne_nil _ g hg) (hkeys g hg) (hvalues g hg)
  have hnil : (group (es.map termAndCoefficient)).map (regroup fun t c => .prod [c, t]) ≠ [] := by
    simpa using group_ne_nil_of_ne_nil (by simpa using List.ne_nil_of_length_pos (by omega))
  refine ⟨⟨.sumOf (List.forall_mem_map.2 fun g hg => (hgroups g hg).1),
    fun hs => absurd hs.inert_sum hi, fun hv => .sumOf (List.forall_mem_map.2 fun g hg => ?_)⟩, ?_⟩
  · refine vanishing_multiple (group_ne_nil _ g hg) (forall_group _ (p := fun t c =>
      Vanishing t ∨ Vanishing c) (List.forall_mem_map.2 fun e he => ?_) g hg)
    exact (termAndCoefficient_of_tame (hes e he)).2.2.1 ((Vanishing.sum_iff.1 hv).2 e he)
  · calc zeroCount (rule (.sum es))
        ≤ ((group (es.map termAndCoefficient)).map fun g =>
            (g.2.map fun c => max 1 (zeroCount c + zeroCount g.1)).sum).sum := by
          refine (zeroCount_sumOf_le hnil).trans ?_
          rw [List.map_map]
          exact List.sum_le_sum fun g hg => (hgroups g hg).2
      _ = ((es.map termAndCoefficient).map fun p => max 1 (zeroCount p.2 + zeroCount p.1)).sum := by
          rw [← Groups.sum_map_pairs fun t c => max 1 (zeroCount c + zeroCount t)]
          exact ((group_pairs_perm _).map _).sum_eq
      _ = zeroCount (.sum es) := by
          rw [List.map_map, zeroCount_sum]
          refine congrArg _ (List.map_congr_left fun e he => ?_)
          exact congrArg (max 1) (termAndCoefficient_of_tame (hes e he)).2.2.2

/-- Collecting fades a tame node, if it is no product with a pending zero. -/
theorem Collect.fades_rule (h : Tame .collected e)
    (hfactors : ∀ es, e = .prod es → ∀ e ∈ es, ¬Pending e) : Fades .collected e (rule e) := by
  by_cases hi : Inert e
  · rw [hi.root.collect]
    exact .refl h
  cases e with
  | sum es => exact fades_sum h hi
  | prod es => exact fades_prod h (hfactors es rfl)
  | _ => exact .refl h

/-! ### Clean trees -/

theorem Collect.solid_collect (h : Solid e) : Solid (collect e) :=
  h.bottomUp (fun _ => Still.collect) keepsWhole fun _ hs =>
    (fades_rule (.solid hs) fun _ heq _ he => ((heq ▸ hs).of_mem he).not_pending).solid hs

/-- The values of the only group are as many as the pairs. -/
theorem Collect.length_of_group_eq {ps : List (Expr × Expr)} {g : Expr × List Expr}
    (h : group ps = [g]) : g.2.length = ps.length := by
  rw [← (group_pairs_perm ps).length_eq, h]
  simp [Groups.pairs]

/-- Collecting factors leaves no pending zero where there was none. -/
theorem Collect.not_pending_prod (hlen : 2 ≤ es.length) (h : ∀ e ∈ es, ¬Pending e) :
    ¬Pending (rule (.prod es)) := by
  have hvast := forall_group (es.map baseAndExponent) (p := fun k v => k = 0 → Vast v)
    (List.forall_mem_map.2 fun e he => vast_of_not_pending (h e he))
  have hne : es.map baseAndExponent ≠ [] := by
    simpa using List.ne_nil_of_length_pos (by omega : 0 < es.length)
  obtain ⟨g, gs, hg⟩ := List.exists_cons_of_ne_nil (group_ne_nil_of_ne_nil hne)
  rw [rule, hg]
  cases gs with
  | nil =>
    have hlen' := length_of_group_eq hg
    have hmem : g ∈ group (es.map baseAndExponent) := by simp [hg]
    rw [List.length_map] at hlen'
    rcases regroup_eq .pow (group_ne_nil _ g hmem) with ⟨-, hone⟩ | heq
    · rw [hone, List.length_singleton] at hlen'
      omega
    · rw [List.map_singleton, prodOf, heq, pending_pow_iff, not_and, not_not]
      exact fun h0 => .sumOf (group_ne_nil _ g hmem) fun v hv => hvast g hmem v hv h0
  | cons g' gs => exact Simplification.not_pending_prod _

theorem Collect.not_pending_sum (hlen : 2 ≤ es.length) : ¬Pending (rule (.sum es)) := by
  have hne : es.map termAndCoefficient ≠ [] := by
    simpa using List.ne_nil_of_length_pos (by omega : 0 < es.length)
  obtain ⟨g, gs, hg⟩ := List.exists_cons_of_ne_nil (group_ne_nil_of_ne_nil hne)
  rw [rule, hg]
  cases gs with
  | nil =>
    have hlen' := length_of_group_eq hg
    rw [List.length_map] at hlen'
    rcases regroup_eq (fun t c => .prod [c, t]) (group_ne_nil (es.map termAndCoefficient) g
      (by simp [hg])) with ⟨-, hone⟩ | heq
    · rw [hone, List.length_singleton] at hlen'
      omega
    · rw [List.map_singleton, sumOf, heq]
      exact Simplification.not_pending_prod _
  | cons g' gs => exact Simplification.not_pending_sum _

/-- Collecting makes no pending zeros in clean trees. -/
theorem Clean.not_pending_collect (h : Clean e) (hp : ¬Pending e) : ¬Pending (collect e) := by
  induction h with
  | zero => exact absurd (.inl rfl) hp
  | solid h => exact (Collect.solid_collect h).not_pending
  | sum hlen _ _ =>
    rw [collect, bottomUp_sum]
    exact Collect.not_pending_sum (by simpa using hlen)
  | prod hlen _ hfactors ih =>
    rw [collect, bottomUp_prod]
    exact Collect.not_pending_prod (by simpa using hlen)
      (List.forall_mem_map.2 fun e he => ih e he (hfactors e he))
  | quot _ _ _ _ =>
    rw [collect, bottomUp_quot]
    exact not_pending_quot _ _
  | @pow a b ha ih =>
    rw [collect, bottomUp_pow]
    show ¬Pending (.pow (collect a) (collect b))
    rw [pending_pow_iff, not_and, not_not] at hp ⊢
    intro h0
    refine (hp (by_contra fun ha0 => ?_)).bottomUp Collect.keepsWhole
    by_cases hpa : Pending a
    · obtain ⟨c, rfl, -⟩ := hpa.resolve_left ha0
      rw [collect, bottomUp_pow] at h0
      cases h0
    · exact ih hpa (.inl h0)

end Simplification

end ComputerAlgebra
