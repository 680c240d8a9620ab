import ComputerAlgebra.Proofs.Vanishing.Tame

/-!
# Flattening, identities and fractions on tame nodes

These rules fade a tame node. Flattening does at every stage, the other two once no product has a
factor `0`. Identities evaluate powers of `0` with positive exponents only, and fractions multiply
denominators, which are solid.
-/

namespace ComputerAlgebra

namespace Simplification

open ComputerAlgebra.Expr Magnitude

variable {σ : Stage} {a b e u : Expr} {es : List Expr} {f : Func}

/-! ### Flattening -/

/-- The addends of a tame tree are tame, and have its zeros. -/
theorem Flatten.addends_of_tame (h : Tame σ e) :
    addends e ≠ [] ∧ (∀ e' ∈ addends e, Tame σ e') ∧
      ((addends e).map fun e => max 1 (zeroCount e)).sum = max 1 (zeroCount e) := by
  cases e with
  | sum gs =>
    obtain ⟨hlen, hgs⟩ := h.addends
    refine ⟨List.ne_nil_of_length_pos (by simp only [addends]; omega), hgs, ?_⟩
    have hcount := length_le_zeroCount_sum gs
    rw [zeroCount_sum] at hcount ⊢
    simp only [addends]
    omega
  | _ => simp [addends, h]

/-- All addends of a vanishing tree vanish. -/
theorem Flatten.vanishing_addends (h : Vanishing e) : ∀ e' ∈ addends e, Vanishing e' := by
  cases e with
  | sum gs => exact (Vanishing.sum_iff.1 h).2
  | _ => simpa [addends] using h

/-- The factors of a tame tree are tame, unless one of them is `0` in a raw tree. -/
theorem Flatten.factors_of_tame (h : Tame σ e) :
    factors e ≠ [] ∧ ((∀ e' ∈ factors e, Tame σ e') ∨ σ = .raw ∧ 0 ∈ factors e) := by
  cases e with
  | prod gs =>
    rcases h.factors with ⟨hne, hgs⟩ | ⟨hσ, h0⟩
    · exact ⟨hne, .inl hgs⟩
    · exact ⟨List.ne_nil_of_mem h0, .inr ⟨hσ, h0⟩⟩
  | _ => simp [factors, h]

/-- One factor of a vanishing tree vanishes. -/
theorem Flatten.vanishing_factors (h : Vanishing e) : ∃ e' ∈ factors e, Vanishing e' := by
  cases e with
  | prod gs => exact Vanishing.prod_iff.1 h
  | _ => simpa [factors] using h

theorem Flatten.solid_factors (h : Solid e) : ∀ e' ∈ factors e, Solid e' := by
  cases e with
  | prod gs => exact fun e' he' => h.of_mem he'
  | _ => simpa [factors] using h

theorem Flatten.tame_prod (h : Tame σ (.prod es)) : Tame σ (.prod (es.flatMap factors)) := by
  by_cases hdead : σ = .raw ∧ 0 ∈ es.flatMap factors
  · obtain ⟨rfl, h0⟩ := hdead
    exact .dead h0
  obtain ⟨hne, hes⟩ := h.factors.resolve_right fun ⟨hσ, h0⟩ =>
    hdead ⟨hσ, List.mem_flatMap.2 ⟨0, h0, List.mem_singleton.2 rfl⟩⟩
  refine .prod ?_ fun e' he' => ?_
  · have hlen := length_le_of_two_le fun e he => (factors_of_tame (hes e he)).1
    have := List.length_pos_of_ne_nil hne
    exact List.ne_nil_of_length_pos (by omega)
  · obtain ⟨e, he, he'⟩ := List.mem_flatMap.1 he'
    exact (factors_of_tame (hes e he)).2.resolve_right
      (fun ⟨hσ, h0⟩ => hdead ⟨hσ, List.mem_flatMap.2 ⟨e, he, h0⟩⟩) e' he'

theorem Flatten.fades_splice (h : Tame σ e) : Fades σ e (splice e) := by
  by_cases hi : Inert e
  · rw [hi.root.splice]
    exact .refl h
  cases e with
  | sum es =>
    obtain ⟨hlen, hes⟩ := h.addends
    have hspec e he := addends_of_tame (hes e he)
    have hlen' := hlen.trans (length_le_of_two_le fun e he => (hspec e he).1)
    refine ⟨⟨.sum hlen' ?_, fun hs => absurd hs.inert_sum hi, fun hv => ?_⟩, ?_⟩
    · intro e' he'
      obtain ⟨e, he, he'⟩ := List.mem_flatMap.1 he'
      exact (hspec e he).2.1 e' he'
    · refine .sum (List.ne_nil_of_length_pos (by omega)) fun e' he' => ?_
      obtain ⟨e, he, he'⟩ := List.mem_flatMap.1 he'
      exact vanishing_addends ((Vanishing.sum_iff.1 hv).2 e he) e' he'
    · rw [splice, zeroCount_sum, zeroCount_sum, sum_flatMap fun e he => (hspec e he).2.2]
  | prod es =>
    refine ⟨⟨tame_prod h, fun hs => ?_, fun hv => ?_⟩, ?_⟩
    · refine .prod ?_ fun e' he' => ?_
      · obtain ⟨e, he⟩ := List.exists_mem_of_ne_nil es hs.factors_ne_nil
        obtain ⟨e', he'⟩ := List.exists_mem_of_ne_nil _
          (factors_of_tame (σ := σ) (.solid (hs.of_mem he))).1
        exact List.ne_nil_of_mem (List.mem_flatMap.2 ⟨e, he, he'⟩)
      · obtain ⟨e, he, he'⟩ := List.mem_flatMap.1 he'
        exact solid_factors (hs.of_mem he) e' he'
    · obtain ⟨e, he, hv⟩ := Vanishing.prod_iff.1 hv
      obtain ⟨e', he', hv⟩ := vanishing_factors hv
      exact .prod (List.mem_flatMap.2 ⟨e, he, he'⟩) hv
    · rw [splice, zeroCount_prod, zeroCount_prod, sum_flatMap fun e _ => ?_]
      cases e <;> simp [factors]
  | _ => exact .refl h

/-! ### Identities -/

/-- Identities of quotients fade: the denominator is solid, so it is not `0`. -/
theorem Identities.fades_quotient (h : Tame .live (.quot a b)) :
    Fades .live (.quot a b) (quotient a b) := by
  obtain ⟨ha, hb⟩ := h.sides
  rw [quotient]
  split_ifs with h1 h0 heq
  · exact ⟨⟨ha, Solid.numerator, Vanishing.quot_iff.1⟩, by simp⟩
  · rw [h0.1]
    exact ⟨.of_zero (.quot b .zero), by simp⟩
  · exact ⟨.of_solid (.quot (heq.1 ▸ hb) hb) .one, by simp⟩
  · exact .refl h

theorem ne_zero_of_pow {n v : Int64} {k : ℕ} (h : v.toInt = n.toInt ^ k) (hn : n ≠ 0) : v ≠ 0 := by
  rw [Int64.ne_zero_iff_toInt_ne_zero] at hn ⊢
  rw [h]
  exact pow_ne_zero k hn

/-- The power of an integer other than `0` is solid, and that of `0` is `0`. -/
theorem Identities.fades_integerPower {n m : Int64} (h : Tame .live (.pow (.num n) (.num m)))
    (hv : integerPower? n m = some e) : Fades .live (.pow (.num n) (.num m)) e := by
  have hbase (hn : n = 0) : 0 < m.toInt := by
    have hsolid : ¬Solid (.pow (.num n) (.num m)) := fun hs => by
      rcases hs.base with hs | ⟨-, hvast⟩
      · exact hs.ne_zero (congrArg Expr.num hn)
      · exact not_vast_num m hvast
    obtain ⟨-, m', hm', heq⟩ := h.base.resolve_left hsolid
    cases heq
    exact hm'
  obtain ⟨hm, v, hpow, rfl⟩ | ⟨hm, k, v, -, hpow, rfl⟩ := integerPower?_eq_some hv
  all_goals have hval := Int64.pow?_eq_some hpow
  · by_cases hn : n = 0
    · have hm := hbase hn
      have hv0 : v = 0 := by
        rw [hn, Int64.toInt_zero, zero_pow (by omega)] at hval
        exact Int64.toInt_inj.1 hval
      rw [hn, hv0]
      refine ⟨.of_zero (.pow .zero (.num hm) fun _ => not_vast_num m), ?_⟩
      exact zeroCount_le_pow (.inr (Counting.num hm).one_le)
    · have hv0 : v ≠ 0 := ne_zero_of_pow hval hn
      refine ⟨.of_solid (.pow _ (.num hn)) (.num hv0), ?_⟩
      rw [zeroCount_num, if_neg hv0]
      exact Nat.zero_le _
  · have hn : n ≠ 0 := fun hn => by
      have := hbase hn
      omega
    have hv0 : v ≠ 0 := ne_zero_of_pow hval hn
    refine ⟨.of_solid (.pow _ (.num hn)) (.quot .one (.num hv0)), ?_⟩
    rw [zeroCount_quot, zeroCount_one, zeroCount_num, if_neg hv0]
    exact Nat.zero_le _

/-- Identities of powers fade. Only a power of `0` is made `0`, and only with a positive
exponent. -/
theorem Identities.fades_power (h : Tame .live (.pow a b)) :
    Fades .live (.pow a b) (power a b) := by
  obtain ⟨htriv, heq⟩ | ⟨rfl, heq⟩ | ⟨n, m, rfl, rfl, heq⟩ | ⟨-, heq⟩ := power_cases a b
  · have hs : Solid (.pow a b) := by
      by_contra hs
      obtain ⟨-, n, hn, rfl⟩ := h.base.resolve_left hs
      rcases htriv with h0 | rfl
      · cases Expr.num.inj h0
        simp at hn
      · exact hs (.pow _ .one)
    rw [heq]
    exact ⟨.of_solid hs .one, by simp⟩
  · rw [heq]
    refine ⟨⟨h.tame_base, fun hs => ?_, fun hv => (Vanishing.pow_iff.1 hv).1⟩, ?_⟩
    · exact hs.base.resolve_right fun hb => not_vast_num 1 hb.2
    · exact zeroCount_le_pow (.inr Counting.one.one_le)
  · exact fades_integerPower h heq
  · rw [heq]
    exact .refl h

theorem Identities.fades_rule (h : Tame .live e) : Fades .live e (rule e) := by
  cases e with
  | quot a b => exact fades_quotient h
  | pow a b => exact fades_power h
  | prod es =>
    rw [rule]
    split_ifs with h0
    · exact ⟨.of_zero (.prod h0 .zero), zeroCount_le_prod h0⟩
    · exact .refl h
  | app f u =>
    obtain ⟨hu, hvalue⟩ := h.argument
    rw [rule]
    cases hv : valueAt? f u with
    | none => exact .refl h
    | some v =>
      have hv0 : v ≠ 0 := fun h0 => hvalue (h0 ▸ hv)
      exact ⟨.of_solid (.app hu hvalue) (.num hv0), by simp [zeroCount_num, hv0]⟩
  | _ => exact .refl h

/-! ### Fractions -/

theorem Fractions.fades_quotient (h : Tame .live (.quot a b)) :
    Fades .live (.quot a b) (quotient a b) := by
  obtain ⟨ha, hb⟩ := h.sides
  unfold quotient
  split
  · next c d =>
    obtain ⟨hc, hd⟩ := ha.sides
    have hden : Solid (.prod [d, b]) := .prod (by simp) (by simp [hd, hb])
    refine ⟨⟨.quot hc hden, fun hs => .quot hs.numerator.numerator hden, fun hv => ?_⟩, ?_⟩
    · rw [Vanishing.quot_iff, Vanishing.quot_iff] at hv
      exact .quot _ hv
    · simp [add_assoc]
  · next c d hquot =>
    have hnum : Tame .live (.prod [a, d]) :=
      .prod (by simp) (by simp [ha, Tame.solid hb.denominator])
    refine ⟨⟨.quot hnum hb.numerator, fun hs => .quot (.prod (by simp) ?_) hb.numerator,
      fun hv => .quot _ (.prod List.mem_cons_self (Vanishing.quot_iff.1 hv))⟩, ?_⟩
    · simp [hs.numerator, hb.denominator]
    · simp
      omega
  · exact .refl h

/-- All denominators of a tame product are solid. -/
theorem Fractions.solid_denominators {σ : Stage} (h : ∀ e ∈ es, Tame σ e) :
    ∀ b ∈ es.filterMap denominator?, Solid b := by
  intro b hb
  obtain ⟨e, he, hb⟩ := List.mem_filterMap.1 hb
  rcases eq_quot_or e with ⟨a, c, rfl⟩ | ⟨-, heq⟩
  · cases hb
    exact (h _ he).sides.2
  · rw [heq] at hb
    cases hb

/-- Numerators and denominators have the zeros of the factors between them. -/
theorem Fractions.zeroCount_parts (es : List Expr) :
    ((es.map numerator).map zeroCount).sum + ((es.filterMap denominator?).map zeroCount).sum =
      (es.map zeroCount).sum := by
  induction es with
  | nil => rfl
  | cons e es ih =>
    rcases eq_quot_or e with ⟨a, b, rfl⟩ | ⟨heq, hnone⟩
    · have hb : denominator? (.quot a b) = some b := rfl
      simp only [List.map_cons, List.sum_cons, List.filterMap_cons_some hb, numerator,
        zeroCount_quot]
      omega
    · simp only [List.map_cons, List.sum_cons, List.filterMap_cons_none hnone, heq]
      omega

theorem Fractions.fades_product (h : Tame .live (.prod es)) :
    Fades .live (.prod es) (product es) := by
  obtain ⟨hne, hes⟩ := h.factors_of_ne_raw (by decide)
  have hnum (e : Expr) (h : Tame .live e) : Tame .live (numerator e) := by
    rcases eq_quot_or e with ⟨a, b, rfl⟩ | ⟨heq, -⟩
    · exact h.sides.1
    · rwa [heq]
  have hnums : es.map numerator ≠ [] := by simpa using hne
  have hden := solid_denominators hes
  rw [product]
  split
  · exact .refl h
  · next hdens =>
    have hdenom : Solid (.prodOf (es.filterMap denominator?)) := .prodOf hdens hden
    refine ⟨⟨.quot (.prodOf (List.forall_mem_map.2 fun e he => hnum e (hes e he))) hdenom,
      fun hs => .quot (.prodOf hnums ?_) hdenom, fun hv => ?_⟩, ?_⟩
    · refine List.forall_mem_map.2 fun e he => ?_
      rcases eq_quot_or e with ⟨a, b, rfl⟩ | ⟨heq, -⟩
      · exact (hs.of_mem he).numerator
      · rw [heq]
        exact hs.of_mem he
    · obtain ⟨e, he, hv⟩ := Vanishing.prod_iff.1 hv
      refine .quot _ (.prodOf (List.mem_map_of_mem he) ?_)
      rcases eq_quot_or e with ⟨a, b, rfl⟩ | ⟨heq, -⟩
      · exact Vanishing.quot_iff.1 hv
      · rwa [heq]
    · rw [zeroCount_quot, zeroCount_prodOf hnums, zeroCount_prodOf hdens, zeroCount_parts,
        zeroCount_prod]

theorem Fractions.fades_rule (h : Tame .live e) : Fades .live e (rule e) := by
  cases e with
  | quot a b => exact fades_quotient h
  | prod es => exact fades_product h
  | _ => exact .refl h

end Simplification

end ComputerAlgebra
