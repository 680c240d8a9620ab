import ComputerAlgebra.Proofs.Simplification.NormalForm
import ComputerAlgebra.Proofs.Simplification.Reordering

/-!
# Sorted trees are canonical

`Expr.cmp` orders trees of all kinds linearly, and sorting by it picks one tree from all those that
differ in the order of operands: it reorders a tree into ascending operands, and two trees have one
sorted form exactly if each is the other with operands reordered (`Reordered.iff_sort_eq`).
-/

namespace ComputerAlgebra

namespace Simplification

open ComputerAlgebra.Expr

variable {a b c : Expr} {o : Ordering}

theorem mapOperands_id (e : Expr) : e.mapOperands id = e := mapOperands_eq_self fun _ _ => rfl

namespace Reordered

theorem refl (e : Expr) : Reordered e e := by
  induction e using operands_induct with
  | node e ih =>
    have h : Reordered (e.mapOperands id) (e.mapOperands id) := .operands ih
    rwa [mapOperands_id] at h

/-- At a single node, sorting is a permutation of the operands. -/
theorem sortingRule (e : Expr) : Reordered e (Sorting.rule e) := by
  cases e with
  | sum es => exact .sum (Sorted.sort_perm le es).symm
  | prod es => exact .prod (Sorted.sort_perm le es).symm
  | _ => exact .refl _

/-- Sorting permutes operands and does nothing else. -/
theorem sortOperands (e : Expr) : Reordered e (sortOperands e) := by
  induction e using operands_induct with
  | node e ih =>
    have h : Reordered (e.mapOperands id) (e.mapOperands Simplification.sortOperands) :=
      .operands ih
    rw [mapOperands_id] at h
    rw [Simplification.sortOperands, bottomUp_eq]
    exact h.trans (.sortingRule _)

/-- Trees are reorderings of each other exactly if they have one sorted form. -/
theorem iff_sort_eq :
    Reordered a b ↔ Simplification.sortOperands a = Simplification.sortOperands b := by
  refine ⟨sort_eq, fun h => ?_⟩
  have hb := Reordered.sortOperands b
  rw [← h] at hb
  exact (Reordered.sortOperands a).trans hb.symm

end Reordered

/-- Sorting what is sorted changes nothing. -/
theorem sortOperands_idem (e : Expr) : sortOperands (sortOperands e) = sortOperands e :=
  (Reordered.sortOperands e).sort_eq.symm

/-- Each outcome of a comparison chains. -/
theorem cmp_trans (hab : cmp a b = o) (hbc : cmp b c = o) : cmp a c = o := by
  cases o with
  | lt => exact cmp_lt_trans a b c hab hbc
  | eq => rwa [eq_of_cmp a b hab]
  | gt =>
    rw [cmp_swap, Ordering.swap_eq_gt] at hab hbc ⊢
    exact cmp_lt_trans c b a hbc hab

/-- The comparison of trees is a total order that agrees with equality, and sorting is canonical for
it: it puts the operands of every node into ascending order, it is a reordering of the tree, it
changes nothing when repeated, and all reorderings of a tree are sorted to one tree. -/
theorem cmp_linear_sortOperands_canonical (a b c : Expr) :
    cmp a b = (cmp b a).swap ∧
    (∀ o, cmp a b = o → cmp b c = o → cmp a c = o) ∧
    ((cmp a b).isLE → (cmp b c).isLE → (cmp a c).isLE) ∧
    (cmp a b = .eq ↔ a = b) ∧
    Everywhere Ascending (sortOperands a) ∧
    Reordered a (sortOperands a) ∧
    sortOperands (sortOperands a) = sortOperands a ∧
    (Reordered a b ↔ sortOperands a = sortOperands b) := by
  have heq : cmp a b = .eq ↔ a = b := by
    constructor
    · exact eq_of_cmp a b
    · rintro rfl
      exact cmp_self a
  exact ⟨cmp_swap a b, fun _ => cmp_trans, le_trans, heq, ascending_sortOperands a,
    .sortOperands a, sortOperands_idem a, Reordered.iff_sort_eq⟩

end Simplification

end ComputerAlgebra
