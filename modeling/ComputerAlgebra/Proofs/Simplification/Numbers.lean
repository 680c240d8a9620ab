import ComputerAlgebra.Proofs.Integer.LowestTerms
import ComputerAlgebra.Simplification.Fold

/-!
# The numbers among operands

Folding multiplies the integers among factors exactly, or not at all.
-/

namespace ComputerAlgebra

namespace Simplification

/-- A product of integers that has a result is exact, for any factor to begin with. -/
theorem Fold.foldlM_mul?_eq_some {ns : List Int64} {a c : Int64}
    (h : ns.foldlM Int64.mul? a = some c) :
    c.toInt = a.toInt * (ns.map Int64.toInt).prod := by
  induction ns generalizing a with
  | nil =>
    cases h
    simp
  | cons n ns ih =>
    simp only [List.foldlM_cons, Option.bind_eq_bind, Option.bind_eq_some_iff] at h
    obtain ⟨b, hb, h⟩ := h
    rw [Int64.mul?_eq_some_iff] at hb
    rw [ih h, hb, List.map_cons, List.prod_cons, mul_assoc]

/-- A product of integers that has a result is exact. -/
theorem Fold.multiply?_eq_some {ns : List Int64} {c : Int64} (h : multiply? ns = some c) :
    c.toInt = (ns.map Int64.toInt).prod := by
  rw [foldlM_mul?_eq_some h, Int64.toInt_one, one_mul]

/-- Factors `1` do not count. -/
theorem Fold.multiply?_eq_some_filter {ns : List Int64} {c : Int64} (h : multiply? ns = some c) :
    c.toInt = ((ns.filter (· ≠ 1)).map Int64.toInt).prod := by
  rw [multiply?_eq_some h]
  clear h
  induction ns with
  | nil => rfl
  | cons n ns ih =>
    by_cases hn : n = 1
    · rw [List.filter_cons_of_neg (by simpa using hn), List.map_cons, List.prod_cons, ih, hn,
        Int64.toInt_one, one_mul]
    · rw [List.filter_cons_of_pos (by simpa using hn), List.map_cons, List.prod_cons, ih,
        List.map_cons, List.prod_cons]

/-- Ones are multiplied without an overflow. -/
theorem Fold.foldlM_mul?_of_ones {ns : List Int64} (a : Int64) (h : ∀ n ∈ ns, n = 1) :
    ns.foldlM Int64.mul? a = some a := by
  induction ns with
  | nil => rfl
  | cons n ns ih =>
    rw [List.forall_mem_cons] at h
    rw [List.foldlM_cons, h.1, Int64.mul?_one]
    exact ih h.2

/-- A product of integers of which all but one are `1` fits. -/
theorem Fold.exists_multiply? {ns : List Int64} (h : (ns.filter (· ≠ 1)).length ≤ 1) :
    ∃ c, multiply? ns = some c := by
  rw [multiply?]
  induction ns with
  | nil => exact ⟨1, rfl⟩
  | cons n ns ih =>
    by_cases hn : n = 1
    · rw [List.filter_cons_of_neg (by simpa using hn)] at h
      rw [List.foldlM_cons, hn, Int64.mul?_one]
      exact ih h
    · rw [List.filter_cons_of_pos (by simpa using hn), List.length_cons] at h
      have hnil : ns.filter (· ≠ 1) = [] := List.eq_nil_of_length_eq_zero (by omega)
      have hones : ∀ m ∈ ns, m = 1 := by simpa using List.filter_eq_nil_iff.1 hnil
      rw [List.foldlM_cons, Int64.one_mul?]
      exact ⟨n, foldlM_mul?_of_ones n hones⟩

/-- Whatever is summed over operands may be summed over the numbers among them and the others. -/
theorem Fold.sum_split {M β : Type*} [AddCommMonoid M] {part? : Expr → Option β} {f : Expr → M}
    {g : β → M} (h : ∀ e b, part? e = some b → f e = g b) (es : List Expr) :
    ((es.filterMap part?).map g).sum + ((es.filter fun e => (part? e).isNone).map f).sum =
      (es.map f).sum := by
  induction es with
  | nil => simp
  | cons e es ih =>
    cases he : part? e with
    | none => simp [he, ← ih, add_left_comm]
    | some b => simp [he, ← ih, h e b he, add_assoc]

/-- Whatever is multiplied over operands may be multiplied over the numbers among them and the
others. -/
theorem Fold.prod_split {M β : Type*} [CommMonoid M] {part? : Expr → Option β} {f : Expr → M}
    {g : β → M} (h : ∀ e b, part? e = some b → f e = g b) (es : List Expr) :
    ((es.filterMap part?).map g).prod * ((es.filter fun e => (part? e).isNone).map f).prod =
      (es.map f).prod := by
  induction es with
  | nil => simp
  | cons e es ih =>
    cases he : part? e with
    | none => simp [he, ← ih, mul_left_comm]
    | some b => simp [he, ← ih, h e b he, mul_assoc]

/-- How a product is written after its numbers have been multiplied. -/
theorem Fold.product_eq {es : List Expr} {n : Int64}
    (h : multiply? (es.filterMap Expr.num?) = some n) :
    product es =
      if n = 0 then 0
      else if n ≠ 1 ∨ (es.filter fun e => e.num?.isNone) = [] then
        Expr.prodOf ((es.filter fun e => e.num?.isNone) ++ [.num n])
      else Expr.prodOf (es.filter fun e => e.num?.isNone) := by
  simp only [product, h]

/-- How a sum is written after its numbers have been added. -/
theorem Fold.addends_eq {es : List Expr} {q : Fraction} (hne : es.filterMap Expr.fraction? ≠ [])
    (hden : ∀ q ∈ es.filterMap Expr.fraction?, q.den ≠ 0)
    (h : Fraction.sum? (es.filterMap Expr.fraction?) = some q) :
    addends es = Expr.sumOf (if q.num = 0 then es.filter fun e => e.fraction?.isNone
      else (es.filter fun e => e.fraction?.isNone) ++ [.ofFraction q]) := by
  have hany : ((es.filterMap Expr.fraction?).any fun q => q.den = 0) = false :=
    List.any_eq_false.2 fun q hq => by simpa using hden q hq
  simp only [addends, hne, hany, h, Bool.false_eq_true, or_self, if_false]

/-- The factors of a product are the literals `1`, the other factors that are no integers, and the
other integers. -/
theorem Fold.factors_perm (es : List Expr) :
    es.Perm (List.replicate ((es.filterMap Expr.num?).count 1) 1 ++
      ((es.filter fun e => e.num?.isNone) ++
        ((es.filterMap Expr.num?).filter (· ≠ 1)).map Expr.num)) := by
  induction es with
  | nil => exact .refl _
  | cons e es ih =>
    cases h : e.num? with
    | none =>
      simp only [List.filterMap_cons_none h, List.filter_cons, h, Option.isNone_none, if_true]
      exact (ih.cons e).trans List.perm_middle.symm
    | some n =>
      have he : e = .num n := by
        unfold Expr.num? at h
        split at h <;> cases h
        rfl
      subst he
      rw [List.filterMap_cons_some h]
      by_cases hn : n = 1
      · subst hn
        rw [List.count_cons_self, List.replicate_succ, List.cons_append]
        exact ih.cons _
      · have hfilter : (Expr.num n :: es).filter (fun e => e.num?.isNone) =
            es.filter fun e => e.num?.isNone := rfl
        rw [List.count_cons_of_ne hn, hfilter, List.filter_cons_of_pos (by simpa using hn),
          List.map_cons, ← List.append_assoc]
        rw [← List.append_assoc] at ih
        exact (ih.cons _).trans List.perm_middle.symm

end Simplification

end ComputerAlgebra
