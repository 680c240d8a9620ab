import ComputerAlgebra.Proofs.Checked.Basic
import ComputerAlgebra.Proofs.Simplification.Arity

/-!
# Passes with checked construction

The six passes of a round, with every sum and product built by the checked constructors. On
well-formed trees no check fails, and each of them does what the pass does (`passes_build`).
-/

namespace ComputerAlgebra

namespace Checked

open ComputerAlgebra.Expr Simplification

variable {a b e : Expr} {es : List Expr}

/-! ### Flattening -/

/-- Splice the operands of the same operation into a sum or a product. -/
def splice : Expr → Option Expr
  | .sum es => sum (es.flatMap Flatten.addends)
  | .prod es => prod (es.flatMap Flatten.factors)
  | e => some e

/-- Flatten nested sums and products. -/
def flatten (e : Expr) : Option Expr := Flatten.runWith splice (2 * e.nodeCount) [.enter e] []

/-- Splicing nested sums and products leaves at least as many operands as there were. -/
theorem splice_builds (h : e.WellFormed) : Builds (splice e) (Flatten.splice e) := by
  have hwf := Flatten.wellFormed_splice e h
  cases h with
  | sum hlen h =>
    obtain ⟨hlen', h'⟩ := WellFormed.sum_iff.mp hwf
    exact .sum hlen' h'
  | prod hlen h =>
    obtain ⟨hlen', h'⟩ := WellFormed.prod_iff.mp hwf
    exact .prod hlen' h'
  | _ => exact .of_wellFormed hwf

theorem flatten_builds (h : e.WellFormed) : Builds (flatten e) (Simplification.flatten e) := by
  have hrun := Flatten.runWith_enter splice e 0 [] []
  have hbuilds := Builds.bottomUp (fun e he => splice_builds he) h
  rw [hbuilds.eq_some] at hrun
  rw [flatten_eq_bottomUp]
  exact ⟨hrun, hbuilds.wellFormed⟩

/-! ### Identities -/

/-- Apply the identities at one node. None of them makes a sum or a product. -/
def identity : Expr → Option Expr
  | .sum es => sum es
  | .prod es => if 0 ∈ es then some 0 else prod es
  | e => some (Identities.rule e)

/-- An identity is built: it gives a number, an operand, or a sum or product of the operands it
keeps. -/
theorem identity_builds (h : e.WellFormed) : Builds (identity e) (Identities.rule e) := by
  have hwf := Identities.wellFormed_rule e h
  cases h with
  | sum hlen h => exact .sum hlen h
  | prod hlen h =>
    rw [identity, Identities.rule]
    split_ifs
    · exact .of_wellFormed .zero
    · exact .prod hlen h
  | _ => exact .of_wellFormed hwf

/-! ### Fractions -/

/-- Move quotients out of a quotient. -/
def quotient : Expr → Expr → Option Expr
  | .quot a b, c => do return .quot a (← prod [b, c])
  | a, .quot b c => do return .quot (← prod [a, c]) b
  | a, b => some (.quot a b)

/-- Move quotients out of a product. -/
def product (es : List Expr) : Option Expr :=
  match es.filterMap Fractions.denominator? with
  | [] => prod es
  | denominators => do
    return .quot (← prodOf (es.map Fractions.numerator)) (← prodOf denominators)

/-- Move quotients out of one node. -/
def fraction : Expr → Option Expr
  | .quot a b => quotient a b
  | .prod es => product es
  | .sum es => sum es
  | e => some e

theorem quotient_builds (ha : a.WellFormed) (hb : b.WellFormed) :
    Builds (quotient a b) (Fractions.quotient a b) := by
  have ha' := ha
  have hb' := hb
  cases ha with
  | quot ha hc =>
    have hden := Builds.prod_pair hc hb
    exact hden.bind (.of_wellFormed (.quot ha hden.wellFormed))
  | _ =>
    cases hb with
    | quot hc hd =>
      have hnum := Builds.prod_pair ha' hd
      exact hnum.bind (.of_wellFormed (.quot hnum.wellFormed hc))
    | _ => exact .of_wellFormed (.quot ha' hb')

theorem product_builds (hlen : 2 ≤ es.length) (h : ∀ e ∈ es, e.WellFormed) :
    Builds (product es) (Fractions.product es) := by
  have hnums := Builds.prodOf (Fractions.wellFormed_numerators h)
  have hdens := Builds.prodOf (Fractions.wellFormed_denominators h)
  rw [product, Fractions.product]
  cases hden : es.filterMap Fractions.denominator? with
  | nil => exact .prod hlen h
  | cons d ds =>
    rw [hden] at hdens
    exact hnums.bind (hdens.bind (.of_wellFormed (.quot hnums.wellFormed hdens.wellFormed)))

theorem fraction_builds (h : e.WellFormed) : Builds (fraction e) (Fractions.rule e) := by
  cases h with
  | quot ha hb => exact quotient_builds ha hb
  | prod hlen h => exact product_builds hlen h
  | sum hlen h => exact .sum hlen h
  | var x => exact .of_wellFormed (.var x)
  | num n => exact .of_wellFormed (.num n)
  | pow ha hb => exact .of_wellFormed (.pow ha hb)
  | app f ha => exact .of_wellFormed (.app f ha)
  | eqn ha hb => exact .of_wellFormed (.eqn ha hb)

/-! ### Like terms -/

/-- One operand for a key and its values. -/
def regroup (combine : Expr → Expr → Option Expr) : Expr × List Expr → Option Expr
  | (key, [value]) => if value = 1 then some key else combine key value
  | (key, values) => do combine key (← sumOf values)

/-- Collect the operands of one node. -/
def like : Expr → Option Expr
  | .prod es => do
    prodOf (← (Collect.group (es.map Collect.baseAndExponent)).mapM
      (regroup fun base exponent => some (.pow base exponent)))
  | .sum es => do
    sumOf (← (Collect.group (es.map Collect.termAndCoefficient)).mapM
      (regroup fun term coefficient => prod [coefficient, term]))
  | e => some e

theorem mapM_eq_some {α β : Type} {f : α → Option β} {g : α → β} {as : List α}
    (h : ∀ a ∈ as, f a = some (g a)) : as.mapM f = some (as.map g) := by
  induction as with
  | nil => rfl
  | cons a as ih =>
    rw [List.forall_mem_cons] at h
    rw [List.mapM_cons, h.1, ih h.2]
    rfl

theorem regroup_builds {combine : Expr → Expr → Expr} {combine' : Expr → Expr → Option Expr}
    (hcombine : ∀ a b, a.WellFormed → b.WellFormed → Builds (combine' a b) (combine a b))
    {g : Expr × List Expr} (hkey : g.1.WellFormed) (hvalues : ∀ v ∈ g.2, v.WellFormed) :
    Builds (regroup combine' g) (Collect.regroup combine g) := by
  obtain ⟨key, values⟩ := g
  match values with
  | [value] =>
    rw [regroup, Collect.regroup]
    split_ifs
    · exact .of_wellFormed hkey
    · exact hcombine _ _ hkey (hvalues _ List.mem_cons_self)
  | [] | _ :: _ :: _ =>
    have hsum := Builds.sumOf hvalues
    exact hsum.bind (hcombine _ _ hkey hsum.wellFormed)

theorem like_builds (h : e.WellFormed) : Builds (like e) (Collect.rule e) := by
  cases h with
  | @sum es hlen h =>
    have hpairs : ∀ p ∈ es.map Collect.termAndCoefficient, p.1.WellFormed ∧ p.2.WellFormed :=
      List.forall_mem_map.2 fun e he => Collect.wellFormed_termAndCoefficient (h e he)
    have hgroups : ∀ g ∈ Collect.group (es.map Collect.termAndCoefficient),
        Builds (regroup (fun term coefficient => prod [coefficient, term]) g)
          (Collect.regroup (fun term coefficient => .prod [coefficient, term]) g) := fun g hg =>
      regroup_builds (fun a b ha hb => .prod_pair hb ha)
        (Collect.forall_group_key _ (fun p hp => (hpairs p hp).1) g hg)
        (Collect.forall_group_value _ (fun p hp => (hpairs p hp).2) g hg)
    rw [like, Collect.rule, mapM_eq_some fun g hg => (hgroups g hg).eq_some]
    exact .sumOf (List.forall_mem_map.2 fun g hg => (hgroups g hg).wellFormed)
  | @prod es hlen h =>
    have hpairs : ∀ p ∈ es.map Collect.baseAndExponent, p.1.WellFormed ∧ p.2.WellFormed :=
      List.forall_mem_map.2 fun e he => Collect.wellFormed_baseAndExponent (h e he)
    have hgroups : ∀ g ∈ Collect.group (es.map Collect.baseAndExponent),
        Builds (regroup (fun base exponent => some (.pow base exponent)) g)
          (Collect.regroup .pow g) := fun g hg =>
      regroup_builds (fun a b ha hb => .of_wellFormed (.pow ha hb))
        (Collect.forall_group_key _ (fun p hp => (hpairs p hp).1) g hg)
        (Collect.forall_group_value _ (fun p hp => (hpairs p hp).2) g hg)
    rw [like, Collect.rule, mapM_eq_some fun g hg => (hgroups g hg).eq_some]
    exact .prodOf (List.forall_mem_map.2 fun g hg => (hgroups g hg).wellFormed)
  | var x => exact .of_wellFormed (.var x)
  | num n => exact .of_wellFormed (.num n)
  | quot ha hb => exact .of_wellFormed (.quot ha hb)
  | pow ha hb => exact .of_wellFormed (.pow ha hb)
  | app f ha => exact .of_wellFormed (.app f ha)
  | eqn ha hb => exact .of_wellFormed (.eqn ha hb)

/-! ### Numbers -/

/-- Multiply the integers among the factors. -/
def foldProduct (es : List Expr) : Option Expr :=
  match Fold.multiply? (es.filterMap num?) with
  | none => prod es
  | some c =>
    let others := es.filter fun e => e.num?.isNone
    if c = 0 then some 0
    else if c ≠ 1 ∨ others = [] then prodOf (others ++ [.num c])
    else prodOf others

/-- Add the integers and fractions among the addends. -/
def foldSum (es : List Expr) : Option Expr :=
  let fractions := es.filterMap fraction?
  if fractions = [] ∨ fractions.any fun q => q.den = 0 then sum es
  else match Fraction.sum? fractions with
    | none => sum es
    | some q =>
      let others := es.filter fun e => e.fraction?.isNone
      sumOf (if q.num = 0 then others else others ++ [.ofFraction q])

/-- Fold the numbers among the operands of one node. A reduced fraction is no sum and no product. -/
def number : Expr → Option Expr
  | .prod es => foldProduct es
  | .sum es => foldSum es
  | e => some (Fold.rule e)

theorem foldProduct_builds (hlen : 2 ≤ es.length) (h : ∀ e ∈ es, e.WellFormed) :
    Builds (foldProduct es) (Fold.product es) := by
  have hothers : ∀ e ∈ es.filter fun e => e.num?.isNone, e.WellFormed := fun e he =>
    h e (List.mem_of_mem_filter he)
  simp only [foldProduct, Fold.product]
  cases Fold.multiply? (es.filterMap num?) with
  | none => exact .prod hlen h
  | some c =>
    dsimp only
    split_ifs
    · exact .of_wellFormed .zero
    · exact .prodOf (List.forall_mem_append.mpr ⟨hothers, by simp⟩)
    · exact .prodOf hothers

theorem foldSum_builds (hlen : 2 ≤ es.length) (h : ∀ e ∈ es, e.WellFormed) :
    Builds (foldSum es) (Fold.addends es) := by
  have hothers : ∀ e ∈ es.filter fun e => e.fraction?.isNone, e.WellFormed := fun e he =>
    h e (List.mem_of_mem_filter he)
  simp only [foldSum, Fold.addends]
  split_ifs with hkeep
  · exact .sum hlen h
  · cases Fraction.sum? (es.filterMap fraction?) with
    | none => exact .sum hlen h
    | some q =>
      refine .sumOf ?_
      split_ifs
      · exact hothers
      · exact List.forall_mem_append.mpr ⟨hothers, by simpa using wellFormed_ofFraction q⟩

theorem number_builds (h : e.WellFormed) : Builds (number e) (Fold.rule e) := by
  have hwf := Fold.wellFormed_rule e h
  cases h with
  | prod hlen h => exact foldProduct_builds hlen h
  | sum hlen h => exact foldSum_builds hlen h
  | _ => exact .of_wellFormed hwf

/-! ### Sorting -/

/-- Sort the operands of one node. -/
def sorted : Expr → Option Expr
  | .sum es => sum (Sorted.sort Expr.le es)
  | .prod es => prod (Sorted.sort Expr.le es)
  | e => some e

/-- Sorting operands is built, since it keeps their number. -/
theorem sorted_builds (h : e.WellFormed) : Builds (sorted e) (Sorting.rule e) := by
  have hwf := Sorting.wellFormed_rule e h
  cases h with
  | sum =>
    obtain ⟨hlen, h⟩ := WellFormed.sum_iff.mp hwf
    exact .sum hlen h
  | prod =>
    obtain ⟨hlen, h⟩ := WellFormed.prod_iff.mp hwf
    exact .prod hlen h
  | _ => exact .of_wellFormed hwf

/-! ### Rounds -/

/-- The passes of a round, in order. -/
def passes : List (Expr → Option Expr) :=
  [flatten, bottomUp identity, bottomUp fraction, bottomUp like, bottomUp number, bottomUp sorted]

/-- Apply every pass once. -/
def round (e : Expr) : Option Expr := passes.foldlM (fun e pass => pass e) e

/-- On well-formed trees, no check of a pass fails. -/
theorem passes_build :
    List.Forall₂ (fun checked pass => ∀ e : Expr, e.WellFormed → Builds (checked e) (pass e)) passes
      Simplification.passes := by
  refine .cons (fun e h => flatten_builds h)
    (.cons ?_ (.cons ?_ (.cons ?_ (.cons ?_ (.cons ?_ .nil)))))
  · exact fun e h => .bottomUp (fun e he => identity_builds he) h
  · exact fun e h => .bottomUp (fun e he => fraction_builds he) h
  · exact fun e h => .bottomUp (fun e he => like_builds he) h
  · exact fun e h => .bottomUp (fun e he => number_builds he) h
  · exact fun e h => .bottomUp (fun e he => sorted_builds he) h

theorem foldlM_builds {checked : List (Expr → Option Expr)} {passes : List (Expr → Expr)}
    (hpasses : List.Forall₂
      (fun checked pass => ∀ e : Expr, e.WellFormed → Builds (checked e) (pass e)) checked passes)
    (h : e.WellFormed) :
    Builds (checked.foldlM (fun e pass => pass e) e) (passes.foldl (fun e pass => pass e) e) := by
  induction hpasses generalizing e with
  | nil => exact .of_wellFormed h
  | cons hpass _ ih => exact (hpass e h).bind (ih (hpass e h).wellFormed)

/-- A round is built, and so are all of its passes. -/
theorem round_builds (h : e.WellFormed) : Builds (round e) (Simplification.round e) :=
  foldlM_builds passes_build h

end Checked

end ComputerAlgebra
