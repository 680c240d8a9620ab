import ComputerAlgebra.Expr.Order
import ComputerAlgebra.Proofs.Sorted
import Mathlib

/-!
# The order of operands is linear

`Expr.cmp` tells any two different expressions apart and is transitive. So a list of operands has
one sorted form, whatever order it is given in (`Expr.sort_eq_of_perm`).
-/

namespace ComputerAlgebra

namespace Expr

variable {a b c : Expr} {as bs cs : List Expr}

/-! ### Kinds -/

/-- Expressions of different kinds are compared by kind. -/
theorem cmp_of_rank_ne (h : a.rank ≠ b.rank) : cmp a b = compare a.rank b.rank := by
  cases a <;> cases b <;> first | rfl | exact absurd rfl h

/-- Trees that compare equal are of one kind. -/
theorem rank_eq_of_cmp (h : cmp a b = .eq) : a.rank = b.rank := by
  by_contra hne
  rw [cmp_of_rank_ne hne, Nat.compare_eq_eq] at h
  exact hne h

/-- A smaller tree is of no higher kind. -/
theorem rank_le_of_cmp (h : cmp a b = .lt) : a.rank ≤ b.rank := by
  by_cases hne : a.rank = b.rank
  · exact hne.le
  · rw [cmp_of_rank_ne hne, Nat.compare_eq_lt] at h
    exact h.le

/-! ### Equality -/

theorem cmpAll_self (h : ∀ a ∈ as, cmp a a = .eq) : cmpAll as as = .eq := by
  induction as with
  | nil => rfl
  | cons a as ih =>
    rw [List.forall_mem_cons] at h
    rw [cmpAll, h.1, ih h.2]
    rfl

theorem cmp_self (a : Expr) : cmp a a = .eq := by
  induction a using Expr.induct with
  | var x => simp [cmp]
  | num n => simp [cmp]
  | sum es ih => exact cmpAll_self ih
  | prod es ih => exact cmpAll_self ih
  | quot a b iha ihb => simp [cmp, iha, ihb]
  | pow a b iha ihb => simp [cmp, iha, ihb]
  | app f a iha => simp [cmp, iha]
  | eqn a b iha ihb => simp [cmp, iha, ihb]

/-- Lists that compare equal are equal, if that is so of their elements. -/
theorem eq_of_cmpAll (ih : ∀ a ∈ as, ∀ b, cmp a b = .eq → a = b) (h : cmpAll as bs = .eq) :
    as = bs := by
  induction as generalizing bs with
  | nil =>
    cases bs with
    | nil => rfl
    | cons b bs => cases h
  | cons a as iha =>
    cases bs with
    | nil => cases h
    | cons b bs =>
      rw [List.forall_mem_cons] at ih
      rw [cmpAll, Ordering.then_eq_eq] at h
      rw [ih.1 b h.1, iha ih.2 h.2]

/-- Only equal trees compare equal, so the order has no ties. -/
theorem eq_of_cmp (a : Expr) : ∀ b, cmp a b = .eq → a = b := by
  induction a using Expr.induct with
  | var x =>
    intro b h
    cases b <;> cases rank_eq_of_cmp h
    rw [cmp, Std.LawfulEqOrd.compare_eq_iff_eq] at h
    rw [h]
  | num n =>
    intro b h
    cases b <;> cases rank_eq_of_cmp h
    rw [cmp, Std.LawfulEqOrd.compare_eq_iff_eq] at h
    rw [Int64.toInt_inj.1 h]
  | sum es ih =>
    intro b h
    cases b <;> cases rank_eq_of_cmp h
    rw [eq_of_cmpAll ih h]
  | prod es ih =>
    intro b h
    cases b <;> cases rank_eq_of_cmp h
    rw [eq_of_cmpAll ih h]
  | quot a b iha ihb =>
    intro b h
    cases b <;> cases rank_eq_of_cmp h
    rw [cmp, Ordering.then_eq_eq] at h
    rw [iha _ h.1, ihb _ h.2]
  | pow a b iha ihb =>
    intro b h
    cases b <;> cases rank_eq_of_cmp h
    rw [cmp, Ordering.then_eq_eq] at h
    rw [iha _ h.1, ihb _ h.2]
  | app f a iha =>
    intro b h
    cases b <;> cases rank_eq_of_cmp h
    rw [cmp, Ordering.then_eq_eq, Nat.compare_eq_eq] at h
    rw [Func.rank_injective h.1, iha _ h.2]
  | eqn a b iha ihb =>
    intro b h
    cases b <;> cases rank_eq_of_cmp h
    rw [cmp, Ordering.then_eq_eq] at h
    rw [iha _ h.1, ihb _ h.2]

instance : Std.LawfulEqCmp cmp where
  compare_self := cmp_self _
  eq_of_compare h := eq_of_cmp _ _ h

/-! ### Both ways round -/

/-- Comparing two lists the other way round gives the opposite result, if that is so of their
elements. -/
theorem cmpAll_swap (ih : ∀ a ∈ as, ∀ b, cmp a b = (cmp b a).swap) :
    cmpAll as bs = (cmpAll bs as).swap := by
  induction as generalizing bs with
  | nil => cases bs <;> rfl
  | cons a as iha =>
    cases bs with
    | nil => rfl
    | cons b bs =>
      rw [List.forall_mem_cons] at ih
      rw [cmpAll, cmpAll, Ordering.swap_then, ih.1 b, iha ih.2]

/-- Trees of different kinds are compared by kind, either way round. -/
theorem cmp_swap_of_rank_ne (h : a.rank ≠ b.rank) : cmp a b = (cmp b a).swap := by
  rw [cmp_of_rank_ne h, cmp_of_rank_ne h.symm]
  exact Std.OrientedOrd.eq_swap

/-- Comparing two trees the other way round gives the opposite result. -/
theorem cmp_swap (a : Expr) : ∀ b, cmp a b = (cmp b a).swap := by
  -- trees of different kinds are told apart by rank, so only equal kinds are left to compare
  induction a using Expr.induct with
  | var x =>
    intro b
    cases b with
    | var y => exact Std.OrientedOrd.eq_swap
    | _ => exact cmp_swap_of_rank_ne (by simp [rank])
  | num n =>
    intro b
    cases b with
    | num m => exact Std.OrientedOrd.eq_swap
    | _ => exact cmp_swap_of_rank_ne (by simp [rank])
  | sum es ih =>
    intro b
    cases b with
    | sum fs => exact cmpAll_swap ih
    | _ => exact cmp_swap_of_rank_ne (by simp [rank])
  | prod es ih =>
    intro b
    cases b with
    | prod fs => exact cmpAll_swap ih
    | _ => exact cmp_swap_of_rank_ne (by simp [rank])
  | quot a a' ih ih' =>
    intro b
    cases b with
    | quot b b' => rw [cmp, cmp, Ordering.swap_then, ih b, ih' b']
    | _ => exact cmp_swap_of_rank_ne (by simp [rank])
  | pow a a' ih ih' =>
    intro b
    cases b with
    | pow b b' => rw [cmp, cmp, Ordering.swap_then, ih b, ih' b']
    | _ => exact cmp_swap_of_rank_ne (by simp [rank])
  | app f a ih =>
    intro b
    cases b with
    | app g b =>
      rw [cmp, cmp, Ordering.swap_then, ih b]
      congr 1
      exact Std.OrientedOrd.eq_swap
    | _ => exact cmp_swap_of_rank_ne (by simp [rank])
  | eqn a a' ih ih' =>
    intro b
    cases b with
    | eqn b b' => rw [cmp, cmp, Ordering.swap_then, ih b, ih' b']
    | _ => exact cmp_swap_of_rank_ne (by simp [rank])

/-! ### Transitivity -/

/-- Comparisons by a first and then by a second part chain if those of the parts do. -/
theorem then_lt_trans {α : Type*} {f : α → α → Ordering} [Std.LawfulEqCmp f] {x y z : α}
    {o o' o'' : Ordering} (ih : f x y = .lt → f y z = .lt → f x z = .lt)
    (ih' : o = .lt → o' = .lt → o'' = .lt) (hxy : (f x y).then o = .lt)
    (hyz : (f y z).then o' = .lt) : (f x z).then o'' = .lt := by
  rw [Ordering.then_eq_lt] at hxy hyz ⊢
  rcases hxy with hxy | ⟨hxy, ho⟩
  · rcases hyz with hyz | ⟨hyz, ho'⟩
    · exact .inl (ih hxy hyz)
    · rw [Std.LawfulEqCmp.eq_of_compare hyz] at hxy
      exact .inl hxy
  · rw [Std.LawfulEqCmp.eq_of_compare hxy]
    rcases hyz with hyz | ⟨hyz, ho'⟩
    · exact .inl hyz
    · exact .inr ⟨hyz, ih' ho ho'⟩

/-- Lists are compared transitively, if their elements are. -/
theorem cmpAll_lt_trans (ih : ∀ a ∈ as, ∀ b c, cmp a b = .lt → cmp b c = .lt → cmp a c = .lt)
    (hab : cmpAll as bs = .lt) (hbc : cmpAll bs cs = .lt) : cmpAll as cs = .lt := by
  induction as generalizing bs cs with
  | nil =>
    cases cs with
    | nil => cases bs <;> cases hbc
    | cons c cs => rfl
  | cons a as iha =>
    cases bs with
    | nil => cases hab
    | cons b bs =>
      cases cs with
      | nil => cases hbc
      | cons c cs =>
        rw [List.forall_mem_cons] at ih
        exact then_lt_trans (ih.1 b c) (iha ih.2) hab hbc

/-- Along two comparisons the kind does not go down, and where it goes up that decides. -/
theorem rank_eq_or_cmp_lt (hab : cmp a b = .lt) (hbc : cmp b c = .lt) :
    a.rank = b.rank ∧ b.rank = c.rank ∨ cmp a c = .lt := by
  have h := rank_le_of_cmp hab
  have h' := rank_le_of_cmp hbc
  by_cases hlt : a.rank < c.rank
  · refine .inr ?_
    rw [cmp_of_rank_ne hlt.ne, Nat.compare_eq_lt]
    exact hlt
  · exact .inl (by omega)

/-- The order of trees is transitive. -/
theorem cmp_lt_trans (a : Expr) : ∀ b c, cmp a b = .lt → cmp b c = .lt → cmp a c = .lt := by
  -- `rank_eq_or_cmp_lt` leaves three trees of one kind
  induction a using Expr.induct with
  | var x =>
    intro b c hab hbc
    refine (rank_eq_or_cmp_lt hab hbc).elim (fun ⟨h, h'⟩ => ?_) id
    cases b <;> cases h
    cases c <;> cases h'
    exact @Std.TransCmp.lt_trans _ compare _ _ _ _ hab hbc
  | num n =>
    intro b c hab hbc
    refine (rank_eq_or_cmp_lt hab hbc).elim (fun ⟨h, h'⟩ => ?_) id
    cases b <;> cases h
    cases c <;> cases h'
    exact @Std.TransCmp.lt_trans _ compare _ _ _ _ hab hbc
  | sum es ih =>
    intro b c hab hbc
    refine (rank_eq_or_cmp_lt hab hbc).elim (fun ⟨h, h'⟩ => ?_) id
    cases b <;> cases h
    cases c <;> cases h'
    exact cmpAll_lt_trans ih hab hbc
  | prod es ih =>
    intro b c hab hbc
    refine (rank_eq_or_cmp_lt hab hbc).elim (fun ⟨h, h'⟩ => ?_) id
    cases b <;> cases h
    cases c <;> cases h'
    exact cmpAll_lt_trans ih hab hbc
  | quot a a' ih ih' =>
    intro b c hab hbc
    refine (rank_eq_or_cmp_lt hab hbc).elim (fun ⟨h, h'⟩ => ?_) id
    cases b <;> cases h
    cases c <;> cases h'
    exact then_lt_trans (ih _ _) (ih' _ _) hab hbc
  | pow a a' ih ih' =>
    intro b c hab hbc
    refine (rank_eq_or_cmp_lt hab hbc).elim (fun ⟨h, h'⟩ => ?_) id
    cases b <;> cases h
    cases c <;> cases h'
    exact then_lt_trans (ih _ _) (ih' _ _) hab hbc
  | app f a ih =>
    intro b c hab hbc
    refine (rank_eq_or_cmp_lt hab hbc).elim (fun ⟨h, h'⟩ => ?_) id
    cases b <;> cases h
    cases c <;> cases h'
    exact then_lt_trans Std.TransCmp.lt_trans (ih _ _) hab hbc
  | eqn a a' ih ih' =>
    intro b c hab hbc
    refine (rank_eq_or_cmp_lt hab hbc).elim (fun ⟨h, h'⟩ => ?_) id
    cases b <;> cases h
    cases c <;> cases h'
    exact then_lt_trans (ih _ _) (ih' _ _) hab hbc

instance : Std.OrientedCmp cmp where
  eq_swap := cmp_swap _ _

instance : Std.TransCmp cmp where
  isLE_trans {a b c} hab hbc := by
    rw [Ordering.isLE_iff_eq_lt_or_eq_eq] at hab hbc ⊢
    rcases hab with hab | hab
    · rcases hbc with hbc | hbc
      · exact .inl (cmp_lt_trans a b c hab hbc)
      · rw [eq_of_cmp b c hbc] at hab
        exact .inl hab
    · rwa [eq_of_cmp a b hab]

/-! ### Sorted operands -/

theorem le_trans (hab : le a b = true) (hbc : le b c = true) : le a c = true :=
  Std.TransCmp.isLE_trans hab hbc

theorem le_antisymm (hab : le a b = true) (hba : le b a = true) : a = b :=
  eq_of_cmp a b (Std.OrientedCmp.isLE_antisymm hab hba)

theorem le_total (a b : Expr) : le a b = true ∨ le b a = true := by
  rw [le, le, cmp_swap b a]
  cases cmp a b <;> simp

/-- Sorted operands ascend. -/
theorem sort_pairwise (as : List Expr) :
    (Sorted.sort le as).Pairwise fun a b => le a b = true := by
  apply Sorted.sort_pairwise
  · intro a b c
    exact le_trans
  · exact le_total

/-- Lists of the same operands have the same sorted form. -/
theorem sort_eq_of_perm (h : as.Perm bs) : Sorted.sort le as = Sorted.sort le bs :=
  ((Sorted.sort_perm le as).trans (h.trans (Sorted.sort_perm le bs).symm)).eq_of_pairwise
    (fun _ _ _ _ => le_antisymm) (sort_pairwise as) (sort_pairwise bs)

end Expr

end ComputerAlgebra
