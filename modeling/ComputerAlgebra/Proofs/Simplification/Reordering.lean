import ComputerAlgebra.Proofs.Simplification.Soundness
import ComputerAlgebra.Proofs.Simplification.Stability

/-!
# The order of operands

Sorting takes trees that differ in the order of operands to one tree (`Reordered.sort_eq`), and what
they are simplified to has one value (`simplify_reordered`). It need not be one tree: like terms are
collected before operands are sorted, and a product of two factors is read as coefficient and term
in the order in which they stand (`simplify_reordered_ne`).
-/

namespace ComputerAlgebra

namespace Simplification

open ComputerAlgebra.Expr

variable {cap cap' : Option ℕ} {a b c e s t : Expr} {es fs : List Expr} {f g : Expr → Expr}

/-- The second tree is the first one with the operands of sums and products in another order, at any
depth. -/
inductive Reordered : Expr → Expr → Prop where
  | sum {es fs : List Expr} (h : es.Perm fs) : Reordered (.sum es) (.sum fs)
  | prod {es fs : List Expr} (h : es.Perm fs) : Reordered (.prod es) (.prod fs)
  /-- Reordering within the operands; those of `e` only mark the places. -/
  | operands {e : Expr} {f g : Expr → Expr} (h : ∀ e' ∈ e.operands, Reordered (f e') (g e')) :
      Reordered (e.mapOperands f) (e.mapOperands g)
  | trans {a b c : Expr} (h : Reordered a b) (h' : Reordered b c) : Reordered a c

namespace Reordered

theorem symm (h : Reordered a b) : Reordered b a := by
  induction h with
  | sum h => exact .sum h.symm
  | prod h => exact .prod h.symm
  | operands _ ih => exact .operands ih
  | trans _ _ ih ih' => exact .trans ih' ih

/-- Sorting takes reordered trees to one tree. -/
theorem sort_eq (h : Reordered a b) : sortOperands a = sortOperands b := by
  induction h with
  | sum h =>
    simp only [sortOperands, bottomUp_sum]
    exact congrArg Expr.sum (sort_eq_of_perm (h.map _))
  | prod h =>
    simp only [sortOperands, bottomUp_prod]
    exact congrArg Expr.prod (sort_eq_of_perm (h.map _))
  | @operands e f g _ ih =>
    have hmap : ∀ k : Expr → Expr, sortOperands (e.mapOperands k) =
        Sorting.rule (e.mapOperands fun e' => sortOperands (k e')) := by
      intro k
      rw [sortOperands, bottomUp_eq, mapOperands_mapOperands]
      rfl
    rw [hmap, hmap, mapOperands_congr ih]
  | trans _ _ ih ih' => exact ih.trans ih'

/-- A reordering of a well-formed tree is well-formed. -/
theorem wellFormed (h : Reordered a b) (hwf : a.WellFormed) : b.WellFormed := by
  induction h with
  | sum h =>
    obtain ⟨hlen, hops⟩ := WellFormed.sum_iff.1 hwf
    exact .sum (h.length_eq ▸ hlen) fun e he => hops e (h.mem_iff.2 he)
  | prod h =>
    obtain ⟨hlen, hops⟩ := WellFormed.prod_iff.1 hwf
    exact .prod (h.length_eq ▸ hlen) fun e he => hops e (h.mem_iff.2 he)
  | @operands e f g _ ih =>
    have hops : ∀ e' ∈ e.operands, (g e').WellFormed := fun e' he' =>
      ih e' he' (hwf.of_mem_operands (by simpa using ⟨e', he', rfl⟩))
    cases e <;> simp_all [mapOperands, Expr.operands]
  | trans _ _ ih ih' => exact ih' (ih hwf)

end Reordered

/-- Operands of the same values make nodes of the same value. -/
theorem refines_mapOperands (h : ∀ e' ∈ e.operands, Refines (f e') (g e')) :
    Refines (e.mapOperands f) (e.mapOperands g) := by
  have hall : ∀ es : List Expr, (∀ e' ∈ es, Refines (f e') (g e')) → ∀ ρ,
      (∀ e' ∈ es.map f, e'.Defined ρ) → (∀ e' ∈ es.map g, e'.Defined ρ) ∧
        (es.map g).map (real ρ) = (es.map f).map (real ρ) := by
    intro es h ρ hdef
    rw [List.forall_mem_map] at hdef
    refine ⟨List.forall_mem_map.2 fun e' he' => (h e' he' ρ (hdef e' he')).1, ?_⟩
    rw [List.map_map, List.map_map]
    exact List.map_congr_left fun e' he' => (h e' he' ρ (hdef e' he')).2
  cases e with
  | sum es =>
    intro ρ hdef
    obtain ⟨hdef', heq⟩ := hall es h ρ (Defined.sum_iff.1 hdef)
    exact ⟨.sum hdef', by rw [mapOperands, mapOperands, real_sum, real_sum, heq]⟩
  | prod es =>
    intro ρ hdef
    obtain ⟨hdef', heq⟩ := hall es h ρ (Defined.prod_iff.1 hdef)
    exact ⟨.prod hdef', by rw [mapOperands, mapOperands, real_prod, real_prod, heq]⟩
  | quot a b => exact .quot (h a (by simp [operands])) (h b (by simp [operands]))
  | pow a b => exact .pow (h a (by simp [operands])) (h b (by simp [operands]))
  | app k a => exact .app (h a (by simp [operands]))
  | eqn a b => exact .eqn _ _ _
  | _ => exact .refl _

/-- A reordering refines: order matters for no value. -/
theorem Reordered.refines (h : Reordered a b) : Refines a b := by
  induction h with
  | sum h =>
    intro ρ hdef
    rw [Defined.sum_iff] at hdef
    exact ⟨.sum fun e he => hdef e (h.mem_iff.2 he), by rw [real_sum, real_sum, (h.map _).sum_eq]⟩
  | prod h =>
    intro ρ hdef
    rw [Defined.prod_iff] at hdef
    exact ⟨.prod fun e he => hdef e (h.mem_iff.2 he),
      by rw [real_prod, real_prod, (h.map _).prod_eq]⟩
  | operands _ ih => exact refines_mapOperands ih
  | trans _ _ ih ih' => exact ih.trans ih'

/-- Reordered trees are one tree once they are sorted, and wherever one of them has a value, what
either of them is simplified to has that value. -/
theorem simplify_reordered (h : Reordered a b) (hwf : a.WellFormed)
    (hs : simplify cap a = .ok s) (ht : simplify cap' b = .ok t) :
    sortOperands a = sortOperands b ∧ Refines a s ∧ Refines a t := by
  obtain ⟨k, rfl⟩ := converge_eq_iterate (.inl hs)
  obtain ⟨j, rfl⟩ := converge_eq_iterate (.inl ht)
  exact ⟨h.sort_eq, refines_iterate_round hwf k,
    h.refines.trans (refines_iterate_round (h.wellFormed hwf) j)⟩

/-- The trees `x * y + x * z` and `y * x + z * x`. -/
theorem reordered_factors : Reordered
    (.sum [.prod [.var "x", .var "y"], .prod [.var "x", .var "z"]])
    (.sum [.prod [.var "y", .var "x"], .prod [.var "z", .var "x"]]) := by
  refine .operands (e := .sum [.var "y", .var "z"]) (f := fun v => .prod [.var "x", v])
    (g := fun v => .prod [v, .var "x"]) fun v _ => .prod (.swap _ _ _)

/-- What `y * x + z * x` is simplified to has the value of `x * y + x * z`. -/
theorem simplify_reordered_factors :
    Refines (.sum [.prod [.var "x", .var "y"], .prod [.var "x", .var "z"]])
      (.prod [.var "x", .sum [.var "y", .var "z"]]) := by
  have hs : simplify none (.sum [.prod [.var "x", .var "y"], .prod [.var "x", .var "z"]]) =
      .ok (.sum [.prod [.var "x", .var "y"], .prod [.var "x", .var "z"]]) := by decide
  have ht : simplify none (.sum [.prod [.var "y", .var "x"], .prod [.var "z", .var "x"]]) =
      .ok (.prod [.var "x", .sum [.var "y", .var "z"]]) := by decide
  exact (simplify_reordered reordered_factors (by simp) hs ht).2.2

/-- The products in `y * x + z * x` are read as multiples of `x`, those in `x * y + x * z` as
multiples of `y` and `z`, so only the former are collected. -/
theorem simplify_reordered_ne : ∃ a b s t : Expr, Reordered a b ∧
    simplify none a = .ok s ∧ simplify none b = .ok t ∧ s ≠ t :=
  ⟨_, _, .sum [.prod [.var "x", .var "y"], .prod [.var "x", .var "z"]],
    .prod [.var "x", .sum [.var "y", .var "z"]], reordered_factors, by decide, by decide, by simp⟩

end Simplification

end ComputerAlgebra
