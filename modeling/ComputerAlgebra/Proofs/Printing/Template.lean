import ComputerAlgebra.Proofs.Expr.Interpretation
import ComputerAlgebra.Proofs.Printing.RoundTrip

/-!
# What a style has to do for sums and products

One template writes sums and products in every style, with its rules on parentheses and signs.
Whether the result means what was written can be asked of any reader of the texts. If the reader
gets along with single steps (a further factor, a further addend, a minus sign in front), it gets
along with sums and products of any length (`Style.Template.prod`, `Style.Template.sum`).

Readers tell how tightly a text holds together: a text is written between two levels if operators of
lower levels, waiting on its left or following on its right, take no part of it away.
-/

namespace ComputerAlgebra

universe u

namespace Expr

/-- An expression that carries a minus sign in front is the negative of its opposite. -/
theorem negate_opposite {e e' : Expr} (hwell : e.WellFormed) (h : e.opposite? = some e') :
    Interchangeable.{u} (.negate e') e := by
  unfold opposite? at h
  split at h
  · split_ifs at h
    obtain ⟨m, hm, rfl⟩ := Option.map_eq_some_iff.1 h
    exact .negate_num hm
  · next lead es =>
    split_ifs at h with hone
    · cases h
      rw [hone]
      refine .negate_prodOf ?_
      rintro rfl
      simp at hwell
    · obtain ⟨m, hm, rfl⟩ := Option.map_eq_some_iff.1 h
      exact .negate_prod hm es
  · cases h

end Expr

namespace Printing

namespace Style

open ComputerAlgebra.Expr

/-- A reader of the texts of a style: `Written left right e text` says that the text is read as an
expression that may stand for `e`, between operators of these levels. -/
structure Template (s : Style) (Written : Nat → Nat → Expr → String → Prop) : Prop where
  mono : ∀ {left right left' right' e text}, Written left right e text → left' ≤ left →
    right' ≤ right → Written left' right' e text
  congr : ∀ {left right e e' text}, Written left right e text → Interchangeable.{u} e e' →
    Written left right e' text
  paren : ∀ {left right e text}, Written 1 1 e text → Written left right e (s.paren text)
  wrap : ∀ {context op text}, op ≠ .div → s.wrap context op text =
    if contextLevel context ≤ op.precedence then text else s.paren text
  times : ∀ {a b ta tb}, Written 2 3 a ta → Written 3 3 b tb →
    Written 2 3 (.prod [a, b]) (ta ++ s.times ++ tb)
  plus : ∀ {a b ta tb}, Written 1 2 a ta → Written 2 2 b tb →
    Written 1 2 (.sum [a, b]) (ta ++ (" + " ++ tb))
  minus : ∀ {a b ta tb}, Written 1 2 a ta → Written 2 2 b tb →
    Written 1 2 (.subtract a b) (ta ++ (" - " ++ tb))
  negate : ∀ {b tb}, Written 3 3 b tb → Written 3 3 (.negate b) ("-" ++ tb)
  digits : ∀ n, Written 3 3 (.num n) (digits n)
  digits_nonneg : ∀ {left right n}, 0 ≤ n → Written left right (.num n) (Style.digits n)

/-- In every context, the text of the expression is read as an operand that may stand for it. -/
def Faithful (s : Style) (Written : Nat → Nat → Expr → String → Prop) (e : Expr) : Prop :=
  ∀ context, Written (contextLevel context) (contextLevel context) e (s.render context e)

/-- A faithful expression that may be an addend: what follows a minus sign if it is subtracted
instead is faithful too. -/
structure FaithfulAddend (s : Style) (Written : Nat → Nat → Expr → String → Prop) (e : Expr) :
    Prop where
  wellFormed : e.WellFormed
  faithful : s.Faithful Written e
  opposite : ∀ e', e.opposite? = some e' → s.Faithful Written e'

namespace Template

variable {s : Style} {Written : Nat → Nat → Expr → String → Prop} {a e e' : Expr} {es : List Expr}
  {text : String} {context : Option Operator} {op : Operator}

variable (h : Template.{u} s Written)
include h

/-- Where parentheses stand around what is weaker than its context, a text fits into its context. -/
theorem wrapped (hop : op ≠ .div) (he : Written op.precedence op.precedence e text) :
    Written (contextLevel context) (contextLevel context) e (s.wrap context op text) := by
  rw [h.wrap hop]
  split_ifs with hlevel
  · exact h.mono he hlevel hlevel
  · have hone : 1 ≤ op.precedence := by cases op <;> decide
    exact h.paren (h.mono he hone hone)

/-- Numbers are written faithfully. -/
theorem num (n : Int64) : s.Faithful Written (.num n) := by
  intro context
  rw [render, number]
  split_ifs with hparen
  · exact h.paren (h.mono (h.digits n) (by decide) (by decide))
  · by_cases hneg : n < 0
    · have hnone : context = none := by simpa [hneg] using hparen
      rw [hnone]
      exact h.mono (h.digits n) (by decide) (by decide)
    · exact h.digits_nonneg (Int64.not_lt.1 hneg)

/-! ### Products -/

/-- Factors are read from left to right: those that were read are one operand, which a further
factor may follow. -/
theorem factors (ha : Written 2 3 a text) (hes : ∀ e ∈ es, s.Faithful Written e) :
    Written 2 3 (.prod (a :: es))
      (s.times.intercalate (text :: es.map (s.render (some .mul)))) := by
  induction es generalizing a text with
  | nil => exact h.congr ha (Interchangeable.prod_singleton a).symm
  | cons e es ih =>
    rw [List.forall_mem_cons] at hes
    have hae : Written 2 3 (.prod [a, e]) _ := h.times ha (hes.1 (some .mul))
    exact h.congr (ih hae hes.2) (.prod_prod a e es)

/-- Two or more factors are written so that they are read as factors. -/
theorem product (hlen : 2 ≤ es.length) (hes : ∀ e ∈ es, s.Faithful Written e) :
    Written 2 3 (.prod es) (s.product es (s.renderFactors es)) := by
  match es, hlen with
  | a :: b :: es, _ =>
    rw [renderFactors_eq_map]
    obtain ⟨ha, htail⟩ := List.forall_mem_cons.1 hes
    have hplain := h.factors (h.mono (ha (some .mul)) (by decide) (by decide)) htail
    cases a with
    | num n =>
      simp only [List.map_cons, Style.product]
      split_ifs with hone hneg
      · -- the minus sign belongs to the first of the other factors
        rw [hone, ← String.intercalate_cons_append]
        obtain ⟨hb, hes⟩ := List.forall_mem_cons.1 htail
        have hnegate : Written 2 3 (.negate b) _ :=
          h.mono (h.negate (hb (some .mul))) (by decide) le_rfl
        exact h.congr (h.factors hnegate hes) (.prod_prod _ b es)
      · exact h.factors (h.mono (h.digits n) (by decide) le_rfl) htail
      · exact hplain
    | _ => exact hplain

/-- A product is written faithfully. -/
theorem prod (hlen : 2 ≤ es.length) (hes : ∀ e ∈ es, s.Faithful Written e) :
    s.Faithful Written (.prod es) :=
  fun _ => h.wrapped (by decide) (h.mono (h.product hlen hes) le_rfl (by decide))

theorem prodOf (hne : es ≠ []) (hes : ∀ e ∈ es, s.Faithful Written e) :
    s.Faithful Written (.prodOf es) := by
  match es, hne with
  | [e], _ => exact hes e List.mem_cons_self
  | _ :: _ :: _, _ => exact h.prod (by simp) hes

/-- The opposite of a product has the same factors but for the one in front. -/
theorem opposite_prod (hlen : 2 ≤ es.length) (hes : ∀ e ∈ es, s.Faithful Written e)
    (he' : Expr.opposite? (.prod es) = some e') : s.Faithful Written e' := by
  unfold opposite? at he'
  split at he'
  · next hes' => cases hes'
  · next lead factors hes' =>
    cases hes'
    rw [List.forall_mem_cons] at hes
    split_ifs at he'
    · cases he'
      refine h.prodOf ?_ hes.2
      rintro rfl
      simp at hlen
    · obtain ⟨m, -, rfl⟩ := Option.map_eq_some_iff.1 he'
      exact h.prod (by simpa using hlen) (List.forall_mem_cons.2 ⟨h.num m, hes.2⟩)
  · cases he'

/-! ### Sums -/

/-- Addends are read from left to right, those that carry a minus sign as subtractions. -/
theorem addends (ha : Written 1 2 a text) (hes : ∀ e ∈ es, s.FaithfulAddend Written e) :
    Written 1 2 (.sum (a :: es)) (text ++ s.renderAddends es) := by
  induction es generalizing a text with
  | nil =>
    rw [renderAddends, String.append_empty]
    exact h.congr ha (Interchangeable.sum_singleton a).symm
  | cons e es ih =>
    obtain ⟨he, hes⟩ := List.forall_mem_cons.1 hes
    rw [renderAddends, renderOpposite?_eq_map, ← String.append_assoc]
    suffices hae : Written 1 2 (.sum [a, e]) _ from h.congr (ih hae hes) (.sum_sum a e es)
    cases hopp : e.opposite? with
    | none => exact h.plus ha (he.faithful (some .add))
    | some e' =>
      have hsub : Written 1 2 (.subtract a e') _ := h.minus ha (he.opposite e' hopp (some .add))
      exact h.congr hsub (.sum_pair a (negate_opposite he.wellFormed hopp))

/-- A sum is written faithfully: its first addend as it is, each of the others with its sign. -/
theorem sum (hlen : 2 ≤ es.length) (hes : ∀ e ∈ es, s.FaithfulAddend Written e) :
    s.Faithful Written (.sum es) := by
  match es, hlen with
  | a :: es, _ =>
    intro context
    obtain ⟨ha, htail⟩ := List.forall_mem_cons.1 hes
    rw [render]
    suffices hsum : Written 1 2 (.sum (a :: es)) _ from
      h.wrapped (by decide) (h.mono hsum le_rfl (by decide))
    have hplain := h.addends (h.mono (ha.faithful (some .add)) (by decide) le_rfl) htail
    cases a with
    | num n =>
      -- a number in front is written without parentheses
      exact h.addends (h.mono (h.digits n) (by decide) (by decide)) htail
    | _ => exact hplain

/-! ### Addends -/

/-- A number is written faithfully as an addend, with its opposite behind a minus sign. -/
theorem numAddend (n : Int64) : s.FaithfulAddend Written (.num n) := by
  refine ⟨.num n, h.num n, fun e' he' => ?_⟩
  rw [opposite?] at he'
  split_ifs at he'
  obtain ⟨m, -, rfl⟩ := Option.map_eq_some_iff.1 he'
  exact h.num m

theorem sumAddend (hlen : 2 ≤ es.length) (hes : ∀ e ∈ es, s.FaithfulAddend Written e) :
    s.FaithfulAddend Written (.sum es) :=
  ⟨.sum hlen fun e he => (hes e he).wellFormed, h.sum hlen hes, by rintro _ ⟨⟩⟩

/-- A product is written faithfully as an addend: a negative coefficient becomes a minus sign. -/
theorem prodAddend (hlen : 2 ≤ es.length) (hes : ∀ e ∈ es, s.FaithfulAddend Written e) :
    s.FaithfulAddend Written (.prod es) := by
  have hfaithful := fun e he => (hes e he).faithful
  exact ⟨.prod hlen fun e he => (hes e he).wellFormed, h.prod hlen hfaithful,
    fun _ => h.opposite_prod hlen hfaithful⟩

end Template

end Style

end Printing

end ComputerAlgebra
