import ComputerAlgebra.Simplification.Collect
import Mathlib

/-!
# Groups of like terms

Grouping loses no pair of key and value and invents none (`group_pairs_perm`): whatever is summed
over the pairs may be summed group by group.
-/

namespace ComputerAlgebra

namespace Simplification

namespace Collect

namespace Groups

/-- The pairs of key and value that groups hold, group by group. -/
def pairs (groups : Groups) : List (Expr × Expr) := groups.flatMap fun g => g.2.map (g.1, ·)

@[simp] theorem pairs_nil : pairs [] = [] := rfl

@[simp] theorem pairs_cons (key : Expr) (values : List Expr) (groups : Groups) :
    pairs ((key, values) :: groups) = values.map (key, ·) ++ pairs groups := rfl

/-- Groups in another order have their pairs in another order. -/
theorem pairs_perm {groups groups' : Groups} (h : groups.Perm groups') :
    groups.pairs.Perm groups'.pairs :=
  h.flatMap_right _

/-- Adding up over the pairs is adding up over the groups. -/
theorem sum_map_pairs {M : Type*} [AddMonoid M] (f : Expr → Expr → M) (groups : Groups) :
    ((pairs groups).map fun p => f p.1 p.2).sum =
      (groups.map fun g => (g.2.map (f g.1)).sum).sum := by
  induction groups with
  | nil => rfl
  | cons g groups ih =>
    obtain ⟨k, vs⟩ := g
    simp [ih, Function.comp_def]

/-- Multiplying over the pairs is multiplying over the groups. -/
theorem prod_map_pairs {M : Type*} [Monoid M] (f : Expr → Expr → M) (groups : Groups) :
    ((pairs groups).map fun p => f p.1 p.2).prod =
      (groups.map fun g => (g.2.map (f g.1)).prod).prod := by
  induction groups with
  | nil => rfl
  | cons g groups ih =>
    obtain ⟨k, vs⟩ := g
    simp [ih, Function.comp_def]

/-- Adding to the groups adds one pair, and loses none. -/
theorem add_pairs_perm (key value : Expr) (groups : Groups) :
    (pairs (groups.add key value)).Perm ((key, value) :: pairs groups) := by
  induction groups with
  | nil => exact .refl _
  | cons g groups ih =>
    obtain ⟨k, vs⟩ := g
    rw [add]
    split
    · next h =>
      subst h
      simp only [pairs_cons, List.map_append, List.map_cons, List.map_nil, List.append_assoc]
      exact List.perm_middle
    · exact (ih.append_left _).trans List.perm_middle

/-- Adding to groups that are not empty leaves none of them empty. -/
theorem add_ne_nil {key value : Expr} {groups : Groups} (h : ∀ g ∈ groups, g.2 ≠ []) :
    ∀ g ∈ groups.add key value, g.2 ≠ [] := by
  induction groups with
  | nil => simp [add]
  | cons g groups ih =>
    obtain ⟨k, vs⟩ := g
    rw [List.forall_mem_cons] at h
    rw [add]
    split
    · exact List.forall_mem_cons.2 ⟨by simp, h.2⟩
    · exact List.forall_mem_cons.2 ⟨h.1, ih h.2⟩

/-- The keys stay in the order of their first occurrence. -/
theorem keys_add (key value : Expr) (groups : Groups) :
    (groups.add key value).map Prod.fst =
      if key ∈ groups.map Prod.fst then groups.map Prod.fst else groups.map Prod.fst ++ [key] := by
  induction groups with
  | nil => simp [add]
  | cons g groups ih =>
    obtain ⟨k, vs⟩ := g
    rw [add]
    split
    · next h => simp [h]
    · next h =>
      have h' : key ≠ k := fun hk => h hk.symm
      by_cases hmem : key ∈ groups.map Prod.fst <;> simp_all

/-- A new key is given a group of its own, behind the others. -/
theorem add_of_not_mem {key value : Expr} {groups : Groups} (h : key ∉ groups.map Prod.fst) :
    groups.add key value = groups ++ [(key, [value])] := by
  induction groups with
  | nil => rfl
  | cons g groups ih =>
    obtain ⟨k, vs⟩ := g
    rw [List.map_cons, List.mem_cons, not_or] at h
    rw [add, if_neg fun hk => h.1 hk.symm, ih h.2, List.cons_append]

/-- No key is given two groups. -/
theorem keys_add_nodup {key value : Expr} {groups : Groups} (h : (groups.map Prod.fst).Nodup) :
    ((groups.add key value).map Prod.fst).Nodup := by
  rw [keys_add]
  split
  · exact h
  · next hmem => exact List.nodup_append.2 ⟨h, List.nodup_singleton _, by grind⟩

end Groups

variable (ps : List (Expr × Expr))

/-- A fact of the empty groups that adding a value keeps holds of the groups of any pairs. -/
theorem group_induction {motive : List (Expr × Expr) → Groups → Prop} (nil : motive [] [])
    (add : ∀ ps p groups, motive ps groups → motive (ps ++ [p]) (groups.add p.1 p.2)) :
    motive ps (group ps) := by
  induction ps using List.reverseRecOn with
  | nil => exact nil
  | append_singleton ps p ih =>
    have h := add ps p _ ih
    simpa [group] using h

/-- Grouping loses no pair, and adds none. -/
theorem group_pairs_perm : (group ps).pairs.Perm ps := by
  refine group_induction (motive := fun ps groups => groups.pairs.Perm ps) ps (.refl _) ?_
  intro ps p groups ih
  exact (Groups.add_pairs_perm _ _ _).trans
    ((ih.cons _).trans (List.perm_append_singleton _ _).symm)

theorem group_ne_nil : ∀ g ∈ group ps, g.2 ≠ [] :=
  group_induction (motive := fun _ groups => ∀ g ∈ groups, g.2 ≠ []) ps (by simp)
    fun _ _ _ ih => Groups.add_ne_nil ih

/-- Different groups have different keys. -/
theorem group_keys_nodup : ((group ps).map Prod.fst).Nodup :=
  group_induction (motive := fun _ groups => (groups.map Prod.fst).Nodup) ps (by simp)
    fun _ _ _ ih => Groups.keys_add_nodup ih

/-- Pairs with different keys are groups of their own, in their order. -/
theorem group_eq_map {ps : List (Expr × Expr)} (h : (ps.map Prod.fst).Nodup) :
    group ps = ps.map fun p => (p.1, [p.2]) := by
  refine group_induction (motive := fun ps groups =>
    (ps.map Prod.fst).Nodup → groups = ps.map fun p => (p.1, [p.2])) ps (fun _ => rfl) ?_ h
  intro ps p groups ih h
  rw [List.map_append, List.nodup_append] at h
  have hgroups := ih h.1
  have hkey : p.1 ∉ groups.map Prod.fst := by
    rw [hgroups, List.map_map]
    exact fun hmem => h.2.2 _ hmem _ (by simp) rfl
  rw [Groups.add_of_not_mem hkey, hgroups, List.map_append, List.map_singleton]

/-- If no two pairs fall into one group, their keys are different. -/
theorem keys_nodup_of_length (h : ∀ g ∈ group ps, g.2.length < 2) : (ps.map Prod.fst).Nodup := by
  have hsingle : ∀ g ∈ group ps, (g.2.map (g.1, ·)).map Prod.fst = [g.1] := fun g hg => by
    match g.2, h g hg, group_ne_nil ps g hg with
    | [v], _, _ => rfl
  have hkeys : (group ps).pairs.map Prod.fst = (group ps).map Prod.fst := by
    rw [Groups.pairs, List.map_flatMap, List.flatMap_congr hsingle, List.map_eq_flatMap]
  rw [← ((group_pairs_perm ps).map Prod.fst).nodup_iff, hkeys]
  exact group_keys_nodup ps

/-- A pair stands for a value in a group. -/
theorem mem_pairs {groups : Groups} {k v : Expr} :
    (k, v) ∈ groups.pairs ↔ ∃ vs, (k, vs) ∈ groups ∧ v ∈ vs := by
  simp [Groups.pairs]

/-- What is in a group was given with its key. -/
theorem mem_of_mem_group {g : Expr × List Expr} {v : Expr} (hg : g ∈ group ps) (hv : v ∈ g.2) :
    (g.1, v) ∈ ps :=
  (group_pairs_perm ps).mem_iff.1 (mem_pairs.2 ⟨g.2, hg, hv⟩)

/-- What holds of the pairs holds of each key with each of its values. -/
theorem forall_group {p : Expr → Expr → Prop} (h : ∀ kv ∈ ps, p kv.1 kv.2) :
    ∀ g ∈ group ps, ∀ v ∈ g.2, p g.1 v :=
  fun _ hg _ hv => h _ (mem_of_mem_group ps hg hv)

/-- What holds of all values given holds of all values in groups. -/
theorem forall_group_value {p : Expr → Prop} (h : ∀ kv ∈ ps, p kv.2) :
    ∀ g ∈ group ps, ∀ v ∈ g.2, p v :=
  fun _ hg _ hv => h _ (mem_of_mem_group ps hg hv)

/-- What holds of the keys of the pairs holds of the keys of the groups. -/
theorem forall_group_key {p : Expr → Prop} (h : ∀ kv ∈ ps, p kv.1) : ∀ g ∈ group ps, p g.1 := by
  intro g hg
  obtain ⟨v, hv⟩ := List.exists_mem_of_ne_nil _ (group_ne_nil ps g hg)
  exact h _ (mem_of_mem_group ps hg hv)

theorem group_ne_nil_of_ne_nil {ps : List (Expr × Expr)} (h : ps ≠ []) : group ps ≠ [] := by
  intro h0
  have := (group_pairs_perm ps).length_eq
  rw [h0] at this
  exact h (List.length_eq_zero_iff.1 this.symm)

/-- A group becomes its key, if that was given once and with the value `1`, or the key combined with
the sum of its values. -/
theorem regroup_eq (combine : Expr → Expr → Expr) {g : Expr × List Expr} (h : g.2 ≠ []) :
    regroup combine g = g.1 ∧ g.2 = [1] ∨ regroup combine g = combine g.1 (.sumOf g.2) := by
  match g with
  | (key, [value]) =>
    by_cases hv : value = 1
    · exact .inl ⟨by simp [regroup, hv], by simp [hv]⟩
    · exact .inr (by simp [regroup, hv, Expr.sumOf])
  | (key, v :: v' :: vs) => exact .inr rfl

end Collect

end Simplification

end ComputerAlgebra
