import Mathlib.Data.List.Sort
import ComputerAlgebra.Sorted

/-!
# The order of sorted lists

Sorting by a total order puts every element behind those that it exceeds. Without repetitions a
sorted list ascends strictly.
-/

namespace ComputerAlgebra

namespace Sorted

variable {α : Type _} {le eq : α → α → Bool} {a b : α} {as bs : List α}

/-! ### The library's sort -/

/-- Insertion is the library's, for a comparison that is a function. -/
theorem insert_eq_orderedInsert (le : α → α → Bool) (a : α) (as : List α) :
    insert le a as = as.orderedInsert (fun a b => le a b = true) a := by
  induction as with
  | nil => rfl
  | cons b bs ih => rw [insert, ih, List.orderedInsert_cons]

/-- Sorting is the library's insertion sort, for a comparison that is a function. -/
theorem sort_eq_insertionSort (le : α → α → Bool) (as : List α) :
    sort le as = as.insertionSort fun a b => le a b = true := by
  induction as with
  | nil => rfl
  | cons a as ih => rw [List.insertionSort_cons, ← ih, ← insert_eq_orderedInsert]; rfl

/-- Sorting changes the order of the elements only. -/
theorem sort_perm (le : α → α → Bool) (as : List α) : (sort le as).Perm as := by
  rw [sort_eq_insertionSort]
  exact List.perm_insertionSort _ as

/-- Sorting by a comparison that is transitive and total gives an ascending list. -/
theorem sort_pairwise (htrans : ∀ a b c, le a b = true → le b c = true → le a c = true)
    (htotal : ∀ a b, le a b = true ∨ le b a = true) (as : List α) :
    (sort le as).Pairwise fun a b => le a b = true := by
  have : IsTrans α fun a b => le a b = true := ⟨htrans⟩
  have : Std.Total fun a b => le a b = true := ⟨htotal⟩
  rw [sort_eq_insertionSort]
  exact List.pairwise_insertionSort _ as

/-! ### Lists without repetitions -/

theorem mem_dedup_go (heq : ∀ a b, eq a b = true → a = b) :
    b ∈ dedup.go eq a as ↔ b ∈ a :: as := by
  induction as generalizing a with
  | nil => rfl
  | cons c cs ih =>
    rw [dedup.go]
    split
    · next hac =>
      obtain rfl := heq a c hac
      rw [ih]
      simp
    · rw [List.mem_cons, ih, List.mem_cons (l := c :: cs)]

theorem mem_dedup (heq : ∀ a b, eq a b = true → a = b) : b ∈ dedup eq as ↔ b ∈ as := by
  cases as with
  | nil => rfl
  | cons a as => exact mem_dedup_go heq

/-- In an ascending list equal elements stand side by side, so what dropping them keeps ascends
strictly. Only the elements themselves have to be equal to themselves, not all that `eq` can be
asked for. -/
theorem dedup_go_pairwise (heq : ∀ a b, eq a b = true → a = b)
    (hantisymm : ∀ a b, le a b = true → le b a = true → a = b)
    (hrefl : ∀ b ∈ a :: as, eq b b = true) (h : (a :: as).Pairwise fun a b => le a b = true) :
    (dedup.go eq a as).Pairwise fun a b => le a b = true ∧ a ≠ b := by
  induction as generalizing a with
  | nil => exact List.pairwise_singleton _ _
  | cons b bs ih =>
    obtain ⟨ha, hbs⟩ := List.pairwise_cons.1 h
    rw [dedup.go]
    split
    · next hab =>
      obtain rfl := heq a b hab
      exact ih (fun c hc => hrefl c (List.mem_cons_of_mem a hc)) hbs
    · next hab =>
      refine List.pairwise_cons.2 ⟨?_, ih (fun c hc => hrefl c (List.mem_cons_of_mem a hc)) hbs⟩
      intro c hc
      rw [mem_dedup_go heq] at hc
      refine ⟨ha c hc, ?_⟩
      rintro rfl
      -- an element between `a` and a later `a` would be `a` itself
      have hba : b = a := by
        rcases List.mem_cons.1 hc with h | hc
        · exact h.symm
        · exact hantisymm b a ((List.pairwise_cons.1 hbs).1 a hc) (ha b List.mem_cons_self)
      subst hba
      exact hab (hrefl b List.mem_cons_self)

/-- Without repetitions an ascending list ascends strictly. -/
theorem dedup_pairwise (heq : ∀ a b, eq a b = true → a = b)
    (hantisymm : ∀ a b, le a b = true → le b a = true → a = b)
    (hrefl : ∀ a ∈ as, eq a a = true) (h : as.Pairwise fun a b => le a b = true) :
    (dedup eq as).Pairwise fun a b => le a b = true ∧ a ≠ b := by
  cases as with
  | nil => exact .nil
  | cons a as => exact dedup_go_pairwise heq hantisymm hrefl h

end Sorted

end ComputerAlgebra
