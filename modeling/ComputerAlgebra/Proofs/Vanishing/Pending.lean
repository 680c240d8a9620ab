import ComputerAlgebra.Proofs.Vanishing.Rules

/-!
# Zeros among factors

A power of `0` whose exponent does not fit into 64 bits is solid: no rule evaluates it. Collecting
must not add the exponent of a factor `0` to its exponent, or that of a power that identities make
`0`, since the product would vanish no longer. In a `Clean` tree no factor and no numerator is such
a `Pending` zero. Identities clean trees, and merging fractions keeps them clean.
-/

namespace ComputerAlgebra

namespace Simplification

open ComputerAlgebra.Expr

variable {a b e : Expr} {es : List Expr}

/-! ### Pending zeros -/

/-- The literal `0`, or a power of it that is to be evaluated. -/
def Pending (e : Expr) : Prop := e = 0 ∨ ∃ b, e = .pow 0 b ∧ ¬Vast b

/-- A power is a pending zero if its base is `0` and its exponent fits. -/
theorem pending_pow_iff : Pending (.pow a b) ↔ a = 0 ∧ ¬Vast b := by
  constructor
  · rintro (h | ⟨c, h, hc⟩)
    · cases h
    · cases h
      exact ⟨rfl, hc⟩
  · rintro ⟨rfl, hb⟩
    exact .inr ⟨b, rfl, hb⟩

theorem not_pending_sum (es : List Expr) : ¬Pending (.sum es) := by
  rintro (h | ⟨b, h, -⟩) <;> cases h

theorem not_pending_prod (es : List Expr) : ¬Pending (.prod es) := by
  rintro (h | ⟨b, h, -⟩) <;> cases h

theorem not_pending_quot (a b : Expr) : ¬Pending (.quot a b) := by
  rintro (h | ⟨c, h, -⟩) <;> cases h

/-- Nothing solid is a pending zero. -/
theorem Solid.not_pending (h : Solid e) : ¬Pending e := by
  rintro (rfl | ⟨b, rfl, hb⟩)
  · exact h.ne_zero rfl
  · rcases h.base with h0 | ⟨-, hvast⟩
    · exact h0.ne_zero rfl
    · exact hb hvast

theorem not_pending_prodOf (hne : es ≠ []) (h : ∀ e ∈ es, ¬Pending e) : ¬Pending (.prodOf es) := by
  match es, hne with
  | [e], _ => exact h e List.mem_cons_self
  | e :: e' :: es, _ => exact not_pending_prod _

/-! ### Clean trees -/

/-- No factor and no numerator is a pending zero, apart from what is in solid trees and
exponents. -/
inductive Clean : Expr → Prop where
  | zero : Clean 0
  | solid {e : Expr} (h : Solid e) : Clean e
  | sum {es : List Expr} (hlen : 2 ≤ es.length) (h : ∀ e ∈ es, Clean e) : Clean (.sum es)
  | prod {es : List Expr} (hlen : 2 ≤ es.length) (h : ∀ e ∈ es, Clean e)
      (hfactors : ∀ e ∈ es, ¬Pending e) : Clean (.prod es)
  | quot {a b : Expr} (ha : Clean a) (hnum : ¬Pending a) (hb : Solid b) : Clean (.quot a b)
  | pow {a : Expr} (b : Expr) (ha : Clean a) : Clean (.pow a b)

namespace Clean

/-- The factors of a clean product are clean, and none is a pending zero. -/
theorem factors (h : Clean (.prod es)) : ∀ e ∈ es, Clean e ∧ ¬Pending e := by
  cases h with
  | solid h => exact fun e he => ⟨.solid (h.of_mem he), (h.of_mem he).not_pending⟩
  | prod _ h hfactors => exact fun e he => ⟨h e he, hfactors e he⟩

/-- The parts of a clean quotient are clean, its numerator is no pending zero, and its denominator
is solid. -/
theorem sides (h : Clean (.quot a b)) : Clean a ∧ ¬Pending a ∧ Solid b := by
  cases h with
  | solid h => exact ⟨.solid h.numerator, h.numerator.not_pending, h.denominator⟩
  | quot ha hnum hb => exact ⟨ha, hnum, hb⟩

theorem base (h : Clean (.pow a b)) : Clean a := by
  cases h with
  | solid h =>
    rcases h.base with ha | ⟨rfl, -⟩
    · exact .solid ha
    · exact .zero
  | pow _ ha => exact ha

theorem of_mem_parts (h : Clean e) : ∀ e' ∈ parts e, Clean e' := by
  cases e with
  | sum es =>
    cases h with
    | solid h =>
      intro e he
      by_cases h0 : e = 0
      · exact h0 ▸ .zero
      · exact .solid (.inert (h.inert_sum.operand he) h0)
    | sum _ h => exact h
  | prod es => exact fun e he => (h.factors e he).1
  | quot a b =>
    obtain ⟨ha, -, hb⟩ := h.sides
    simpa [parts] using ⟨ha, .solid hb⟩
  | pow a b => simpa [parts] using h.base
  | _ => simp [parts]

theorem prodOf (hne : es ≠ []) (h : ∀ e ∈ es, Clean e ∧ ¬Pending e) : Clean (.prodOf es) := by
  match es, hne with
  | [e], _ => exact (h e List.mem_cons_self).1
  | e :: e' :: es, _ => exact .prod (by simp) (fun e he => (h e he).1) fun e he => (h e he).2

end Clean

/-! ### Identities clean trees -/

/-- What identities leave of products, quotients and powers of the literal `0`, and of powers with
the exponent `0`. -/
def Evaluated : Expr → Prop
  | .prod es => 0 ∉ es
  | .quot a b => a = 0 → b = 0
  | .pow a (.num n) => n ≠ 0 ∧ (a = 0 → n.toInt ≤ 0)
  | _ => True

/-- `0` to the power of a positive integer is `0`. -/
theorem Identities.power_zero {n : Int64} (hn : 0 < n.toInt) : power 0 (.num n) = 0 := by
  have hn0 : (Expr.num n) ≠ 0 := fun h => by
    cases Expr.num.inj h
    simp at hn
  have hnonneg : 0 ≤ n := by
    rw [Int64.le_iff_toInt_le, Int64.toInt_zero]
    exact hn.le
  obtain ⟨v, hv⟩ := Int64.exists_pow? (a := 0) (n := n.toInt.toNat) (by
    rw [Int64.toInt_zero, Int.natAbs_zero, zero_pow (by omega)]
    decide)
  have hval := Int64.pow?_eq_some hv
  rw [Int64.toInt_zero, zero_pow (by omega), ← Int64.toInt_zero] at hval
  change power (.num 0) (.num n) = .num 0
  rw [power, if_neg (not_or.2 ⟨hn0, by decide⟩)]
  split_ifs
  · rfl
  · rw [integerPower?, if_pos hnonneg, hv, Int64.toInt_inj.1 hval]
    rfl

/-- After identities, no power of numbers is left to evaluate. -/
theorem everywhere_evaluated (e : Expr) : Everywhere Evaluated (applyIdentities e) := by
  refine .bottomUp (fun e h => ?_) e
  -- what remains of a rule is a number, an operand or the node itself
  have hnum (n : Int64) : Everywhere Evaluated (.num n) := .node trivial (by simp [operands])
  have hself (hroot : Evaluated e) : Everywhere Evaluated e := .node hroot h
  cases e with
  | prod es =>
    rw [Identities.rule]
    split_ifs with h0
    · exact hnum 0
    · exact hself h0
  | quot a b =>
    rw [Identities.rule, Identities.quotient]
    split_ifs with h1 h0
    · exact h a (by simp [operands])
    · exact hnum 0
    · exact hnum 1
    · exact hself fun ha => by_contra fun hb => h0 ⟨ha, hb⟩
  | pow a b =>
    rw [Identities.rule]
    obtain ⟨-, heq⟩ | ⟨rfl, heq⟩ | ⟨n, m, rfl, rfl, heq⟩ | ⟨-, heq⟩ := Identities.power_cases a b
    · rw [heq]
      exact hnum 1
    · rw [heq]
      exact h a (by simp [operands])
    -- a power of integers is evaluated to an integer or to the inverse of one
    · obtain ⟨-, v, -, heq⟩ | ⟨-, k, v, -, -, heq⟩ := Identities.integerPower?_eq_some heq
      · rw [heq]
        exact hnum v
      · rw [heq]
        have hroot : Evaluated (.quot 1 (.num v)) := fun h => absurd h (by decide)
        exact .node hroot (by simpa [operands] using ⟨hnum 1, hnum v⟩)
    · rw [heq]
      refine hself ?_
      -- otherwise the base is not `0`, or the exponent is not positive
      cases b with
      | num n =>
        constructor
        · rintro rfl
          unfold Identities.power at heq
          rw [if_pos (.inl rfl)] at heq
          cases heq
        · rintro rfl
          by_contra! hn
          rw [Identities.power_zero hn] at heq
          cases heq
      | _ => trivial
  | app f u =>
    rw [Identities.rule]
    cases Identities.valueAt? f u with
    | none => exact hself trivial
    | some v => exact hnum v
  | _ => exact hself trivial

/-- In a tame tree with nothing left to evaluate, only the literal `0` is a pending zero. -/
theorem Tame.not_pending (h : Tame .live e) (hval : Evaluated e) (h0 : e ≠ 0) : ¬Pending e := by
  rintro (rfl | ⟨b, rfl, hb⟩)
  · exact h0 rfl
  · rcases h.base with hs | ⟨-, n, hn, rfl⟩
    · exact hs.not_pending (pending_pow_iff.2 ⟨rfl, hb⟩)
    · have := hval.2 rfl
      omega

theorem Tame.clean (h : Tame .live e) (hwf : e.WellFormed) (hval : Everywhere Evaluated e) :
    Clean e := by
  induction e using operands_induct with
  | node e ih =>
    have hih (e' : Expr) (he' : e' ∈ e.operands) (h' : Tame .live e') : Clean e' :=
      ih e' he' h' (hwf.of_mem_operands he') (hval.operand he')
    -- only `0`, sums, products, quotients and powers are left
    by_cases hs : Solid e
    · exact .solid hs
    cases e with
    | num n =>
      by_cases hn : n = 0
      · exact hn ▸ .zero
      · exact absurd (.num hn) hs
    | var x => exact absurd (.inert h.inert_var nofun) hs
    | app f u => exact absurd (.app h.argument.1 h.argument.2) hs
    | eqn a b => exact h.not_eqn.elim
    | sum es => exact .sum h.addends.1 fun e he => hih e he (h.addends.2 e he)
    | prod es =>
      have hes := (h.factors_of_ne_raw (by decide)).2
      refine .prod (WellFormed.prod_iff.1 hwf).1 (fun e he => hih e he (hes e he)) fun e he =>
        (hes e he).not_pending (hval.operand he).root ?_
      rintro rfl
      exact hval.root he
    | quot a b =>
      obtain ⟨ha, hb⟩ := h.sides
      have hmem : a ∈ (Expr.quot a b).operands := by simp [operands]
      exact .quot (hih a hmem ha) (ha.not_pending (hval.operand hmem).root fun ha0 =>
        hb.ne_zero (hval.root ha0)) hb
    | pow a b => exact .pow b (hih a (by simp [operands]) h.tame_base)

/-! ### Merging fractions -/

theorem Fractions.solid_rule (h : Solid e) : Solid (rule e) := (fades_rule (.solid h)).solid h

theorem Fractions.solid_merge (h : Solid e) : Solid (mergeFractions e) :=
  h.bottomUp (fun _ => Still.fractions) keepsWhole fun _ => solid_rule

theorem Fractions.not_pending_product (es : List Expr) : ¬Pending (product es) := by
  rw [product]
  split
  · exact not_pending_prod _
  · exact not_pending_quot _ _

theorem Fractions.not_pending_quotient (a b : Expr) : ¬Pending (quotient a b) := by
  unfold quotient
  split <;> exact not_pending_quot _ _

/-- Merging fractions makes a `0` of `0` only. -/
theorem Fractions.eq_zero_of_merge (h : mergeFractions e = 0) : e = 0 := by
  cases e with
  | num n => exact h
  | prod es =>
    rw [mergeFractions, bottomUp_prod, rule] at h
    exact absurd (.inl h) (not_pending_product _)
  | quot a b =>
    rw [mergeFractions, bottomUp_quot, rule] at h
    exact absurd (.inl h) (not_pending_quotient _ _)
  | _ =>
    simp only [mergeFractions, bottomUp_var, bottomUp_sum, bottomUp_pow, bottomUp_app, bottomUp_eqn,
      rule] at h
    cases h

theorem Fractions.not_pending_merge (h : ¬Pending e) : ¬Pending (mergeFractions e) := by
  cases e with
  | prod es =>
    rw [mergeFractions, bottomUp_prod, rule]
    exact not_pending_product _
  | quot a b =>
    rw [mergeFractions, bottomUp_quot, rule]
    exact not_pending_quotient _ _
  | pow a b =>
    rw [mergeFractions, bottomUp_pow]
    show ¬Pending (.pow (mergeFractions a) (mergeFractions b))
    rw [pending_pow_iff, not_and, not_not] at h ⊢
    exact fun ha => (h (eq_zero_of_merge ha)).bottomUp keepsWhole
  | num n => exact h
  | _ =>
    simp only [mergeFractions, bottomUp_var, bottomUp_sum, bottomUp_app, bottomUp_eqn, rule]
    rintro (h | ⟨b, h, -⟩) <;> cases h

/-- Moving a denominator out of a clean numerator gives clean trees. -/
theorem Fractions.clean_quotient (ha : Clean a) (hnum : ¬Pending a) (hb : Solid b) :
    Clean (quotient a b) := by
  unfold quotient
  split
  · next c d =>
    obtain ⟨hc, hnum, hd⟩ := ha.sides
    exact .quot hc hnum (.prod (by simp) (by simp [hd, hb]))
  · next c d _ =>
    have hd := hb.denominator
    refine .quot (.prod (by simp) ?_ ?_) (not_pending_prod _) hb.numerator
    · simpa using ⟨ha, .solid hd⟩
    · simpa using ⟨hnum, hd.not_pending⟩
  · exact .quot ha hnum hb

/-- Moving denominators out of a clean product gives clean trees. -/
theorem Fractions.clean_product (hlen : 2 ≤ es.length) (h : ∀ e ∈ es, Clean e ∧ ¬Pending e) :
    Clean (product es) := by
  have hne : es ≠ [] := List.ne_nil_of_length_pos (by omega)
  have hnums : ∀ e ∈ es.map numerator, Clean e ∧ ¬Pending e :=
    List.forall_mem_map.2 fun e he => by
      rcases eq_quot_or e with ⟨a, b, rfl⟩ | ⟨heq, -⟩
      · obtain ⟨ha, hnum, -⟩ := (h _ he).1.sides
        exact ⟨ha, hnum⟩
      · rw [heq]
        exact h e he
  rw [product]
  split
  · exact .prod hlen (fun e he => (h e he).1) fun e he => (h e he).2
  · next hdens =>
    refine .quot (.prodOf (by simpa using hne) hnums)
      (not_pending_prodOf (by simpa using hne) fun e he => (hnums e he).2) (.prodOf hdens ?_)
    intro b hb
    obtain ⟨e, he, hb⟩ := List.mem_filterMap.1 hb
    rcases eq_quot_or e with ⟨a, c, rfl⟩ | ⟨-, heq⟩
    · cases hb
      exact (h _ he).1.sides.2.2
    · rw [heq] at hb
      cases hb

theorem Clean.mergeFractions (h : Clean e) : Clean (mergeFractions e) := by
  induction h with
  | zero => exact .zero
  | solid h => exact .solid (Fractions.solid_merge h)
  | sum hlen _ ih =>
    rw [Simplification.mergeFractions, bottomUp_sum]
    exact .sum (by simpa using hlen) (List.forall_mem_map.2 ih)
  | prod hlen _ hfactors ih =>
    rw [Simplification.mergeFractions, bottomUp_prod, Fractions.rule]
    exact Fractions.clean_product (by simpa using hlen) <| List.forall_mem_map.2 fun e he =>
      ⟨ih e he, Fractions.not_pending_merge (hfactors e he)⟩
  | quot _ hnum hb ih =>
    rw [Simplification.mergeFractions, bottomUp_quot, Fractions.rule]
    exact Fractions.clean_quotient ih (Fractions.not_pending_merge hnum) (Fractions.solid_merge hb)
  | pow b _ ih =>
    rw [Simplification.mergeFractions, bottomUp_pow]
    exact .pow _ ih

end Simplification

end ComputerAlgebra
