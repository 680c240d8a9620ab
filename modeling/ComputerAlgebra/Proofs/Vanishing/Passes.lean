import ComputerAlgebra.Proofs.Vanishing.Folding

/-!
# Rounds on tame trees

A round fades a tame tree, and of a vanishing one that no round changes nothing is left but `0`
(`Tame.eq_zero_of_round`). Before the first round there may be products with a factor `0` and other
factors that are not tame; identities take them away before anything is divided by what is in them.
-/

namespace ComputerAlgebra

namespace Simplification

open ComputerAlgebra.Expr Magnitude

variable {τ : Stage} {a b e t : Expr} {es : List Expr}

/-! ### Before the first round -/

/-- At first a function on the operands of a node keeps of the node what it keeps of the operands,
unless there is a factor `0`. -/
theorem Tame.keeps_mapOperands_of_raw {g : Expr → Expr} (h : Tame .raw e)
    (hdead : ¬∃ es, e = .prod es ∧ 0 ∈ es) (hg : ∀ u, Inert u → g u = u)
    (hvast : ∀ b, Vast b → Vast (g b)) (hops : ∀ e' ∈ parts e, Tame .raw e' → Keeps τ e' (g e')) :
    Keeps τ e (e.mapOperands g) := by
  by_cases hi : Inert e
  · rw [mapOperands_eq_self fun e' he' => hg e' (hi.operand he')]
    exact ⟨hi.tame, id, id⟩
  · exact h.keeps_mapOperands hi (fun es he _ h0 => hdead ⟨es, he, h0⟩) hg hvast hops
      fun _ _ _ _ hb => hb.elim

/-- A pass of the first round: its rule keeps what is to be kept of tame nodes, and makes products
with a factor `0` vanish. -/
structure Opening (τ : Stage) (rule : Expr → Expr) : Prop where
  still : ∀ e, Still e → rule e = e
  whole : KeepsWhole rule
  dead : ∀ es : List Expr, 0 ∈ es → Tame τ (rule (.prod es)) ∧ Vanishing (rule (.prod es))
  node : ∀ e, Tame τ e → Keeps τ e (rule e)

namespace Opening

variable {rule : Expr → Expr}

/-- What is to be kept of a node is kept before the rule is applied to it, if it is of its parts. -/
theorem mapOperands (hr : Opening τ rule) (h : Tame .raw e) (hlive : ¬∃ es, e = .prod es ∧ 0 ∈ es)
    (hops : ∀ e' ∈ parts e, Tame .raw e' → Keeps τ e' (e'.bottomUp rule)) :
    Keeps τ e (e.mapOperands (Expr.bottomUp rule)) :=
  h.keeps_mapOperands_of_raw hlive (fun _ hu => hu.bottomUp_eq_self hr.still)
    (fun _ hb => hb.bottomUp hr.whole) hops

/-- A pass of the first round keeps what is to be kept of raw trees. -/
theorem bottomUp (hr : Opening τ rule) (h : Tame .raw e) : Keeps τ e (e.bottomUp rule) := by
  induction e using operands_induct with
  | node e ih =>
    by_cases h0 : ∃ es, e = .prod es ∧ 0 ∈ es
    · obtain ⟨es, rfl, h0⟩ := h0
      have hzero : (0 : Expr).bottomUp rule = 0 := (inert_num 0).bottomUp_eq_self hr.still
      obtain ⟨ht, hv⟩ := hr.dead (es.map (Expr.bottomUp rule)) (List.mem_map.2 ⟨0, h0, hzero⟩)
      rw [bottomUp_prod]
      exact ⟨ht, fun hs => absurd rfl (hs.of_mem h0).ne_zero, fun _ => hv⟩
    · have hnode := hr.mapOperands h h0 fun e' he' => ih e' (parts_subset he')
      have hroot := hr.node _ hnode.tame
      rw [bottomUp_eq]
      exact ⟨hroot.tame, hroot.solid ∘ hnode.solid, hroot.vanishing ∘ hnode.vanishing⟩

/-- Before the rule is applied, it is kept in a node that has no factor `0`. -/
theorem operands (hr : Opening τ rule) (h : Tame .raw e) (hlive : ¬∃ es, e = .prod es ∧ 0 ∈ es) :
    Keeps τ e (e.mapOperands (Expr.bottomUp rule)) :=
  hr.mapOperands h hlive fun _ _ h' => hr.bottomUp h'

end Opening

theorem Flatten.opening : Opening .raw splice where
  still _ := Still.splice
  whole := keepsWhole
  dead es h0 := by
    have hsplice := fades_splice (.dead h0)
    exact ⟨hsplice.tame, hsplice.vanishing (.prod h0 .zero)⟩
  node _ he := (fades_splice he).toKeeps

theorem Identities.opening : Opening .live rule where
  still _ := Still.identities
  whole := keepsWhole
  dead es h0 := by
    rw [rule, if_pos h0]
    exact ⟨.zero, .zero⟩
  node _ he := (fades_rule he).toKeeps

/-- The first pass of the first round keeps trees raw. -/
theorem keeps_flatten_of_raw (h : Tame .raw e) : Keeps .raw e (flatten e) := by
  rw [flatten_eq_bottomUp]
  exact Flatten.opening.bottomUp h

/-- The identities of the first round leave no product with a factor `0`, so that live trees
result. -/
theorem keeps_applyIdentities_of_raw (h : Tame .raw e) : Keeps .live e (applyIdentities e) :=
  Identities.opening.bottomUp h

/-- Before the first round no exponent counts anything, so that a tree has no more zeros than
nodes. -/
theorem zeroCount_applyIdentities_le (h : Tame .raw e) :
    zeroCount (applyIdentities e) ≤ 2 * e.nodeCount := by
  induction e using operands_induct with
  | node e ih =>
    have hone := one_le_nodeCount e
    by_cases h0 : ∃ es, e = .prod es ∧ 0 ∈ es
    -- a product with a factor `0` is evaluated, whatever its other factors are
    · obtain ⟨es, rfl, h0⟩ := h0
      have hzero : applyIdentities (.prod es) = 0 := by
        rw [applyIdentities, bottomUp_prod, Identities.rule, if_pos]
        exact List.mem_map.2 ⟨0, h0, rfl⟩
      rw [hzero, zeroCount_zero]
      omega
    have hparts e' (he' : e' ∈ parts e) (h' : Tame .raw e') := ih e' (parts_subset he') h'
    have hkeeps : Keeps .live e (e.mapOperands applyIdentities) := Identities.opening.operands h h0
    have hnode : zeroCount (e.mapOperands applyIdentities) ≤ 2 * e.nodeCount := by
      cases e with
      | num n =>
        rw [mapOperands, zeroCount_num]
        split_ifs <;> simp [nodeCount]
      | sum es =>
        have hle := List.sum_le_sum fun e he =>
          max_le ((one_le_nodeCount e).trans (Nat.le_mul_of_pos_left _ two_pos))
            (hparts e he (h.addends.2 e he))
        rw [mapOperands, zeroCount_sum, List.map_map, nodeCount, nodeCountAll_eq_sum, mul_add,
          ← List.sum_map_mul_left]
        exact hle.trans (Nat.le_add_left _ _)
      | prod es =>
        have hes := (h.factors.resolve_right fun h0' => h0 ⟨es, rfl, h0'.2⟩).2
        have hle := List.sum_le_sum fun e he => hparts e he (hes e he)
        rw [mapOperands, zeroCount_prod, List.map_map, nodeCount, nodeCountAll_eq_sum, mul_add,
          ← List.sum_map_mul_left]
        exact hle.trans (Nat.le_add_left _ _)
      | quot a b =>
        have ha := hparts a (by simp [parts]) h.sides.1
        have hb := hparts b (by simp [parts]) (.solid h.sides.2)
        rw [mapOperands, zeroCount_quot, nodeCount]
        omega
      | pow a b =>
        -- a raw power is solid, since no exponent counts at this stage
        have hs : Solid (.pow a b) := h.base.resolve_right fun hb => hb.2.elim
        have ha := hparts a (by simp [parts]) h.tame_base
        have hs' := hkeeps.solid hs
        rw [mapOperands] at hs' ⊢
        rw [zeroCount_pow_of_solid hs', nodeCount]
        omega
      | app f u =>
        rw [mapOperands, zeroCount_app]
        exact Nat.zero_le _
      | var x => simp [mapOperands, zeroCount]
      | eqn a b => exact h.not_eqn.elim
    rw [applyIdentities, bottomUp_eq]
    exact (Identities.fades_rule hkeeps.tame).count.trans hnode

/-! ### Rounds -/

/-- No rule changes an integer exponent. -/
theorem Stage.Exponent.bottomUp {rule : Expr → Expr} (hτ : τ ≠ .raw)
    (hstill : ∀ e, Still e → rule e = e) (h : Stage.live.Exponent b) :
    τ.Exponent (b.bottomUp rule) ∧ (b.bottomUp rule).magnitude.num ≤ b.magnitude.num := by
  obtain ⟨n, hn, rfl⟩ := h
  rw [(inert_num n).bottomUp_eq_self hstill]
  refine ⟨?_, le_rfl⟩
  cases τ with
  | raw => exact absurd rfl hτ
  | live => exact ⟨n, hn, rfl⟩
  | collected => exact .num hn

/-- Tame trees whose exponents are integers fade under a pass whose rule fades tame nodes. -/
theorem Fading.of_live {rule : Expr → Expr} (hstill : ∀ e, Still e → rule e = e)
    (hwhole : KeepsWhole rule) (hrule : ∀ e, Tame .live e → Fades .live e (rule e)) :
    Fading .live .live (fun _ => True) rule where
  ne_raw := nofun
  still := hstill
  whole := hwhole
  exponent _ hb _ := hb.bottomUp nofun hstill
  parts _ _ _ _ := trivial
  node _ _ := hrule _

theorem Flatten.fading : Fading .live .live (fun _ => True) splice :=
  .of_live (fun _ => Still.splice) keepsWhole fun _ => fades_splice

theorem Identities.fading : Fading .live .live (fun _ => True) rule :=
  .of_live (fun _ => Still.identities) keepsWhole fun _ => fades_rule

theorem Fractions.fading : Fading .live .live (fun _ => True) rule :=
  .of_live (fun _ => Still.fractions) keepsWhole fun _ => fades_rule

/-- Collecting fades a node whose operands have been collected, if the node was clean before. -/
theorem Collect.fades_node (hclean : Clean e) (h : Tame .collected (e.mapOperands collect)) :
    Fades .collected (e.mapOperands collect) (rule (e.mapOperands collect)) := by
  refine fades_rule h fun es' heq => ?_
  cases e with
  | prod es =>
    cases heq
    exact List.forall_mem_map.2 fun e he =>
      (hclean.factors e he).1.not_pending_collect (hclean.factors e he).2
  | _ => cases heq

theorem Collect.fading : Fading .live .collected Clean rule where
  ne_raw := nofun
  still _ := Still.collect
  whole := keepsWhole
  exponent _ hb _ := hb.bottomUp nofun fun _ => Still.collect
  parts _ hc := hc.of_mem_parts
  node _ := fades_node

theorem Fold.fading_sorted : Fading .collected .live (fun _ => True) sorted where
  ne_raw := nofun
  still _ := Still.fold
  whole := keepsWhole_sorted
  exponent _ := Counting.bottomUp_sorted
  parts _ _ _ _ := trivial
  node _ _ := fades_sorted

/-- Once trees are live, the first pass fades. -/
theorem fades_flatten (h : Tame .live e) (hcount : zeroCount e < 2 ^ 64) :
    Fades .live e (flatten e) := by
  rw [flatten_eq_bottomUp]
  exact Flatten.fading.bottomUp h trivial hcount

theorem fades_applyIdentities (h : Tame .live e) (hcount : zeroCount e < 2 ^ 64) :
    Fades .live e (applyIdentities e) :=
  Identities.fading.bottomUp h trivial hcount

theorem fades_mergeFractions (h : Tame .live e) (hcount : zeroCount e < 2 ^ 64) :
    Fades .live e (mergeFractions e) :=
  Fractions.fading.bottomUp h trivial hcount

theorem fades_collect (h : Tame .live e) (hclean : Clean e) (hcount : zeroCount e < 2 ^ 64) :
    Fades .collected e (collect e) :=
  Collect.fading.bottomUp h hclean hcount

/-- Folding and sorting fade what was collected, and bring it back to live trees. -/
theorem fades_sort_fold (h : Tame .collected e) (hcount : zeroCount e < 2 ^ 64) :
    Fades .live e (sortOperands (fold e)) := by
  rw [sort_fold_eq_bottomUp]
  exact Fold.fading_sorted.bottomUp h trivial hcount

/-- What the passes from fractions on do to a tame tree that is clean. -/
theorem fades_finish (h : Tame .live e) (hclean : Clean e) (hcount : zeroCount e < 2 ^ 64) :
    Fades .live e (finish (mergeFractions e)) := by
  have hmerge := fades_mergeFractions h hcount
  have hcollect := hmerge.trans <| fades_collect hmerge.tame hclean.mergeFractions <|
    hmerge.count.trans_lt hcount
  exact hcollect.trans (fades_sort_fold hcollect.tame (hcollect.count.trans_lt hcount))

/-- Identities clean a tame tree. -/
theorem clean_applyIdentities (h : Tame .live (applyIdentities e)) (hwf : e.WellFormed) :
    Clean (applyIdentities e) :=
  h.clean (wellFormed_applyIdentities hwf) (everywhere_evaluated e)

/-- A round fades a tame tree. -/
theorem fades_round (h : Tame .live e) (hwf : e.WellFormed) (hcount : zeroCount e < 2 ^ 64) :
    Fades .live e (round e) := by
  have hflat := fades_flatten h hcount
  have hid := hflat.trans (fades_applyIdentities hflat.tame (hflat.count.trans_lt hcount))
  exact hid.trans (fades_finish hid.tame (clean_applyIdentities hid.tame (wellFormed_flatten hwf))
    (hid.count.trans_lt hcount))

/-- A tree that memory can hold has few enough zeros after the first two passes. -/
theorem zeroCount_applyIdentities_flatten (h : Tame .raw e) (hnodes : e.nodeCount < 2 ^ 63) :
    zeroCount (applyIdentities (flatten e)) < 2 ^ 64 := by
  have hle := zeroCount_applyIdentities_le (keeps_flatten_of_raw h).tame
  have hle' := nodeCount_flatten_le e
  omega

/-- The first round makes a tame tree of one that was not simplified before. -/
theorem keeps_round_of_raw (h : Tame .raw e) (hwf : e.WellFormed) (hnodes : e.nodeCount < 2 ^ 63) :
    Keeps .live e (round e) ∧ zeroCount (round e) < 2 ^ 64 := by
  have hflat := keeps_flatten_of_raw h
  have hid := keeps_applyIdentities_of_raw hflat.tame
  have hcount := zeroCount_applyIdentities_flatten h hnodes
  have hfinish := fades_finish hid.tame (clean_applyIdentities hid.tame (wellFormed_flatten hwf))
    hcount
  exact ⟨⟨hfinish.tame, hfinish.solid ∘ hid.solid ∘ hflat.solid,
    hfinish.vanishing ∘ hid.vanishing ∘ hflat.vanishing⟩, hfinish.count.trans_lt hcount⟩

/-- From the first round on all trees are tame. -/
theorem keeps_iterate_round_of_raw (h : Tame .raw e) (hwf : e.WellFormed)
    (hnodes : e.nodeCount < 2 ^ 63) (k : ℕ) :
    Keeps .live e (round^[k + 1] e) ∧ zeroCount (round^[k + 1] e) < 2 ^ 64 := by
  induction k with
  | zero => exact keeps_round_of_raw h hwf hnodes
  | succ k ih =>
    obtain ⟨hkeeps, hcount⟩ := ih
    have hround := fades_round hkeeps.tame (wellFormed_iterate_round hwf _) hcount
    rw [Function.iterate_succ_apply']
    exact ⟨⟨hround.tame, hround.solid ∘ hkeeps.solid, hround.vanishing ∘ hkeeps.vanishing⟩,
      hround.count.trans_lt hcount⟩

/-! ### Fixed points -/

/-- Where identities and collecting have nothing to do, a tame tree that vanishes is the literal
`0`. -/
theorem Tame.eq_zero (hv : Vanishing e) (h : Tame .live e)
    (hid : Everywhere (fun e => Identities.rule e = e) e) (hq : Steady e) : e = 0 := by
  induction hv with
  | zero => rfl
  | @sum es hne _ ih =>
    obtain ⟨hlen, hes⟩ := h.addends
    have hzero e (he : e ∈ es) : e = 0 := ih e he (hes e he) (hid.operand he) (hq.operand he)
    have hmap : es.map collect = List.replicate es.length 0 :=
      List.eq_replicate_iff.2 ⟨List.length_map _, List.forall_mem_map.2 fun e he => by
        rw [hzero e he]
        rfl⟩
    rcases hq.collect_sum with ⟨hdistinct, -⟩ | ⟨hcount, -⟩
    · rw [hmap, Distinct, List.map_replicate, List.map_replicate, List.nodup_replicate] at hdistinct
      omega
    · rw [hmap, List.count_replicate, if_neg (by decide)] at hcount
      omega
  | @prod e es he _ ih =>
    have hes := (h.factors_of_ne_raw (by decide)).2
    have hzero := ih (hes e he) (hid.operand he) (hq.operand he)
    exact absurd (hzero ▸ he) (noIdentity_of_rule hid.root)
  | @quot a b _ ih =>
    have ha : a ∈ (Expr.quot a b).operands := by simp [operands]
    have hzero := ih h.sides.1 (hid.operand ha) (hq.operand ha)
    exact absurd ((noIdentity_of_rule hid.root).2.1 hzero) h.sides.2.ne_zero
  | @pow a b hv hb hvast ih =>
    have ha : a ∈ (Expr.pow a b).operands := by simp [operands]
    obtain ⟨hta, n, hn, rfl⟩ := h.base.resolve_left fun hs => hs.not_vanishing (.pow hv hb hvast)
    obtain rfl : a = 0 := ih hta (hid.operand ha) (hq.operand ha)
    have hrule := hid.root
    rw [Identities.rule, Identities.power_zero hn] at hrule
    cases hrule

/-- A tame tree that vanishes and that no round changes is the literal `0`. -/
theorem Tame.eq_zero_of_round (h : Tame .live t) (hv : Vanishing t) (hcount : zeroCount t < 2 ^ 64)
    (hfix : round t = t) : t = 0 := by
  have hflat := fades_flatten h hcount
  have hprep := prepared_flatten (hfix ▸ wellFormed_round t) (hfix ▸ anchored_round t)
    (hfix.symm ▸ .refl t)
  exact keepsKind_flatten.eq_num
    (hflat.tame.eq_zero (hflat.vanishing hv) hprep.identities hprep.quiet.toSteady)

/-- Whatever number of rounds comes to rest at, if they started at a tree that vanishes, is `0`. -/
theorem eq_zero_of_iterate_round {k : ℕ} (h : Tame .raw e) (hv : Vanishing e) (hwf : e.WellFormed)
    (hnodes : e.nodeCount < 2 ^ 63) (hfix : round (round^[k] e) = round^[k] e) :
    round^[k] e = 0 := by
  obtain ⟨hkeeps, hcount⟩ := keeps_iterate_round_of_raw h hwf hnodes k
  rw [Function.iterate_succ_apply', hfix] at hkeeps hcount
  exact hkeeps.tame.eq_zero_of_round (hkeeps.vanishing hv) hcount hfix

end Simplification

end ComputerAlgebra
