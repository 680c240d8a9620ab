import ComputerAlgebra.Expr.Order
import ComputerAlgebra.Proofs.Expr.Arity
import ComputerAlgebra.Simplification.Flatten

/-!
# Operands

A tree is its root over its operands. A pass treats the operands and then the root
(`Expr.bottomUp_eq`), and a property of single nodes may hold everywhere in a tree
(`Expr.Everywhere`).
-/

namespace ComputerAlgebra

namespace Expr

variable {e e' : Expr} {f g : Expr → Expr} {p : Expr → Prop}

/-- The same root over other operands. -/
def mapOperands (f : Expr → Expr) : Expr → Expr
  | .var x => .var x
  | .num n => .num n
  | .sum es => .sum (es.map f)
  | .prod es => .prod (es.map f)
  | .quot a b => .quot (f a) (f b)
  | .pow a b => .pow (f a) (f b)
  | .app g a => .app g (f a)
  | .eqn a b => .eqn (f a) (f b)

/-- Changing the operands of a node changes nothing else about them. -/
@[simp] theorem operands_mapOperands (f : Expr → Expr) (e : Expr) :
    (e.mapOperands f).operands = e.operands.map f := by
  cases e <;> rfl

/-- Changing the operands twice changes them by both functions. -/
theorem mapOperands_mapOperands (f g : Expr → Expr) (e : Expr) :
    (e.mapOperands f).mapOperands g = e.mapOperands (g ∘ f) := by
  cases e <;> simp [mapOperands]

/-- Rewriting a node rewrites its operands first. -/
theorem bottomUp_eq (rule : Expr → Expr) (e : Expr) :
    e.bottomUp rule = rule (e.mapOperands (bottomUp rule)) := by
  cases e <;> simp [mapOperands]

/-- Only what a function does to the operands matters. -/
theorem mapOperands_congr (h : ∀ e' ∈ e.operands, f e' = g e') :
    e.mapOperands f = e.mapOperands g := by
  cases e <;> simp_all [mapOperands, operands]

/-- A function that leaves the operands alone leaves the node alone. -/
theorem mapOperands_eq_self (h : ∀ e' ∈ e.operands, f e' = e') : e.mapOperands f = e := by
  rw [mapOperands_congr (g := id) h]
  cases e <;> simp [mapOperands]

/-- Induction on expressions, where all operands come as one hypothesis. -/
@[elab_as_elim]
theorem operands_induct {motive : Expr → Prop}
    (node : ∀ e, (∀ e' ∈ e.operands, motive e') → motive e) (e : Expr) : motive e := by
  induction e using Expr.induct with
  | var x => exact node _ (by simp [operands])
  | num n => exact node _ (by simp [operands])
  | sum es ih => exact node _ ih
  | prod es ih => exact node _ ih
  | quot a b iha ihb => exact node _ (by simp [operands, iha, ihb])
  | pow a b iha ihb => exact node _ (by simp [operands, iha, ihb])
  | app f a iha => exact node _ (by simp [operands, iha])
  | eqn a b iha ihb => exact node _ (by simp [operands, iha, ihb])

/-- Induction on expressions that tells variables from all other nodes. -/
@[elab_as_elim]
theorem inner_induct {motive : Expr → Prop} (var : ∀ x, motive (.var x))
    (inner : ∀ e, (∀ x, e ≠ .var x) → (∀ e' ∈ e.operands, motive e') → motive e) (e : Expr) :
    motive e := by
  induction e using operands_induct with
  | node e ih =>
    cases e with
    | var x => exact var x
    | _ => exact inner _ (fun _ => nofun) ih

/-- The operands of a well-formed tree are well-formed. -/
theorem WellFormed.of_mem_operands (h : e.WellFormed) (he' : e' ∈ e.operands) : e'.WellFormed := by
  cases h <;> simp_all [operands] <;> rcases he' with rfl | rfl <;> assumption

/-- Changed operands are well-formed in a well-formed node, whose number of operands does not
change. -/
theorem WellFormed.mapOperands (h : e.WellFormed) (hf : ∀ e' ∈ e.operands, (f e').WellFormed) :
    (e.mapOperands f).WellFormed := by
  cases h <;> simp_all [Expr.mapOperands, operands]

/-- A rule that makes well-formed nodes of well-formed operands makes any tree well formed. -/
theorem WellFormed.of_bottomUp {rule : Expr → Expr}
    (h : ∀ e, (∀ e' ∈ e.operands, e'.WellFormed) → (rule e).WellFormed) (e : Expr) :
    (e.bottomUp rule).WellFormed := by
  induction e using operands_induct with
  | node e ih =>
    rw [bottomUp_eq]
    refine h _ ?_
    rw [operands_mapOperands]
    exact List.forall_mem_map.2 ih

/-! ### Passes that keep kinds -/

/-- A function on expressions that keeps the kind of a node, and integers as they are. -/
structure KeepsKind (f : Expr → Expr) : Prop where
  num : ∀ n, f (.num n) = .num n
  rank : ∀ e, (f e).rank = e.rank

namespace KeepsKind

/-- A rule that keeps the kind of the nodes keeps it all the way up. -/
theorem bottomUp {rule : Expr → Expr} (h : KeepsKind rule) : KeepsKind (bottomUp rule) where
  num n := by rw [bottomUp_num, h.num]
  rank e := by
    rw [bottomUp_eq, h.rank]
    cases e <;> rfl

/-- Only a number is made a number. -/
theorem eq_num (h : KeepsKind f) {n : Int64} (he : f e = .num n) : e = .num n := by
  have hrank := h.rank e
  rw [he] at hrank
  cases e with
  | num m => rwa [h.num] at he
  | _ => cases hrank

theorem eq_one_iff (h : KeepsKind f) : f e = 1 ↔ e = 1 := by
  constructor
  · exact h.eq_num
  · rintro rfl
    exact h.num 1

/-- Operands `1` neither come nor go. -/
theorem one_mem_map_iff (h : KeepsKind f) {es : List Expr} : 1 ∈ es.map f ↔ 1 ∈ es := by
  rw [List.mem_map]
  constructor
  · rintro ⟨e, he, h1⟩
    rwa [← h.eq_one_iff.1 h1]
  · exact fun h1 => ⟨1, h1, h.eq_one_iff.2 rfl⟩

end KeepsKind

/-! ### Properties of all nodes -/

/-- A property of every node of a tree. -/
inductive Everywhere (p : Expr → Prop) : Expr → Prop where
  | node {e : Expr} (root : p e) (operands : ∀ e' ∈ e.operands, Everywhere p e') : Everywhere p e

/-- A property holds everywhere in a tree if it holds of its root, and everywhere in its
operands. -/
theorem everywhere_iff :
    Everywhere p e ↔ p e ∧ ∀ e' ∈ e.operands, Everywhere p e' :=
  ⟨fun | .node root hs => ⟨root, hs⟩, fun ⟨root, hs⟩ => .node root hs⟩

namespace Everywhere

theorem root (h : Everywhere p e) : p e := by
  cases h with
  | node root _ => exact root

theorem operand (h : Everywhere p e) (he' : e' ∈ e.operands) : Everywhere p e' := by
  cases h with
  | node _ hs => exact hs e' he'

/-- Everywhere in a tree, a property can be weakened. -/
theorem imp {q : Expr → Prop} (h : Everywhere p e) (hpq : ∀ e, p e → q e) : Everywhere q e := by
  induction h with
  | node root _ ih => exact .node (hpq _ root) ih

/-- Two properties that hold everywhere hold together everywhere. -/
theorem and {q : Expr → Prop} (hp : Everywhere p e) (hq : Everywhere q e) :
    Everywhere (fun e => p e ∧ q e) e := by
  induction hp with
  | node root _ ih => exact .node ⟨root, hq.root⟩ fun e' he' => ih e' he' (hq.operand he')

/-- A pass establishes a property everywhere if its rule does at a node whose operands have it. -/
theorem bottomUp {rule : Expr → Expr}
    (h : ∀ e, (∀ e' ∈ e.operands, Everywhere p e') → Everywhere p (rule e)) (e : Expr) :
    Everywhere p (e.bottomUp rule) := by
  induction e using operands_induct with
  | node e ih =>
    rw [bottomUp_eq]
    refine h _ ?_
    rw [operands_mapOperands]
    exact List.forall_mem_map.2 ih

/-- A pass whose rule applies nowhere changes nothing. -/
theorem bottomUp_eq_self {rule : Expr → Expr} (h : Everywhere (fun e => rule e = e) e) :
    e.bottomUp rule = e := by
  induction e using operands_induct with
  | node e ih =>
    rw [bottomUp_eq, mapOperands_eq_self fun e' he' => ih e' he' (h.operand he')]
    exact h.root

end Everywhere

mutual

/-- Decide a property of all nodes of a tree, node by node. -/
def decideEverywhere (p : Expr → Prop) [DecidablePred p] : (e : Expr) → Decidable (Everywhere p e)
  | .var x => decidable_of_iff (p (.var x)) (by simp [everywhere_iff (e := .var x), operands])
  | .num n => decidable_of_iff (p (.num n)) (by simp [everywhere_iff (e := .num n), operands])
  | .sum es =>
    have := decideEverywhereAll p es
    decidable_of_iff (p (.sum es) ∧ ∀ e ∈ es, Everywhere p e) everywhere_iff.symm
  | .prod es =>
    have := decideEverywhereAll p es
    decidable_of_iff (p (.prod es) ∧ ∀ e ∈ es, Everywhere p e) everywhere_iff.symm
  | .quot a b =>
    have := decideEverywhere p a
    have := decideEverywhere p b
    decidable_of_iff (p (.quot a b) ∧ Everywhere p a ∧ Everywhere p b)
      (by simp [everywhere_iff (e := .quot a b), operands])
  | .pow a b =>
    have := decideEverywhere p a
    have := decideEverywhere p b
    decidable_of_iff (p (.pow a b) ∧ Everywhere p a ∧ Everywhere p b)
      (by simp [everywhere_iff (e := .pow a b), operands])
  | .app f a =>
    have := decideEverywhere p a
    decidable_of_iff (p (.app f a) ∧ Everywhere p a)
      (by simp [everywhere_iff (e := .app f a), operands])
  | .eqn a b =>
    have := decideEverywhere p a
    have := decideEverywhere p b
    decidable_of_iff (p (.eqn a b) ∧ Everywhere p a ∧ Everywhere p b)
      (by simp [everywhere_iff (e := .eqn a b), operands])

/-- Decide a property of all nodes of several trees. -/
def decideEverywhereAll (p : Expr → Prop) [DecidablePred p] :
    (es : List Expr) → Decidable (∀ e ∈ es, Everywhere p e)
  | [] => .isTrue (by simp)
  | e :: es =>
    have := decideEverywhere p e
    have := decideEverywhereAll p es
    decidable_of_iff (Everywhere p e ∧ ∀ e ∈ es, Everywhere p e) List.forall_mem_cons.symm

end

instance [DecidablePred p] : DecidablePred (Everywhere p) := decideEverywhere p

end Expr

end ComputerAlgebra
