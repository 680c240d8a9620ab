import ComputerAlgebra.Proofs.Checked.Basic
import ComputerAlgebra.Simplification.Flatten

/-!
# Flattening as a rule applied from the leaves up

The steps of `Flatten.run` visit a tree on a list of their own. A finished visit leaves the tree
that `Flatten.splice` makes from the leaves up, so `flatten` is that pass (`flatten_eq_bottomUp`).
This does not depend on what is done to a node over its finished operands, not even on whether it
can fail (`Flatten.runWith_enter`).
-/

namespace ComputerAlgebra

namespace Simplification

namespace Flatten

open ComputerAlgebra.Expr

variable {rule : Expr → Option Expr}

/-- The steps of `run`, with a rule of its own for finished nodes. -/
def runWith (rule : Expr → Option Expr) : Nat → List Step → List Expr → Option Expr
  | _, [], finished => finished.head?
  | 0, _ :: _, _ => none
  | fuel + 1, .enter e :: steps, finished =>
    runWith rule fuel (e.operands.map .enter ++ .leave e :: steps) finished
  | fuel + 1, .leave e :: steps, finished =>
    let count := e.operands.length
    match e.withOperands? (finished.take count).reverse with
    | some e' => do runWith rule fuel steps ((← rule e') :: finished.drop count)
    | none => none

/-- The traversal of the first pass is that of its rule, which never fails. -/
theorem run_eq_runWith (fuel : Nat) (steps : List Step) (finished : List Expr) :
    run fuel steps finished = runWith (fun e => some (splice e)) fuel steps finished := by
  induction fuel generalizing steps finished with
  | zero => cases steps <;> rfl
  | succ fuel ih =>
    match steps with
    | [] => rfl
    | .enter e :: steps => exact ih _ _
    | .leave e :: steps =>
      rw [run, runWith]
      cases e.withOperands? (finished.take e.operands.length).reverse with
      | none => rfl
      | some e' => exact ih _ _

/-- A tree has one node more than its operands have together. -/
theorem nodeCount_eq (e : Expr) : e.nodeCount = 1 + nodeCountAll e.operands := by
  cases e <;> simp [nodeCount, nodeCountAll, operands]

/-- A node over its finished operands is what the rule is given. -/
theorem bottomUp_eq_bind (rule : Expr → Option Expr) (e : Expr) :
    Checked.bottomUp rule e = (Checked.bottomUpAll rule e.operands).bind fun es =>
      (e.withOperands? es).bind rule := by
  cases e with
  | var x => rfl
  | num n => rfl
  | sum es => rfl
  | prod es => rfl
  | app f a =>
    simp only [Checked.bottomUp, Checked.bottomUpAll, operands]
    cases Checked.bottomUp rule a <;> rfl
  | quot a b | pow a b | eqn a b =>
    simp only [Checked.bottomUp, Checked.bottomUpAll, operands]
    cases Checked.bottomUp rule a <;> cases Checked.bottomUp rule b <;> rfl

/-- Rewriting several trees keeps their number. -/
theorem length_bottomUpAll {es es' : List Expr} (h : Checked.bottomUpAll rule es = some es') :
    es'.length = es.length := by
  induction es generalizing es' with
  | nil =>
    cases h
    rfl
  | cons e es ih =>
    simp only [Checked.bottomUpAll, Option.bind_eq_bind, Option.bind_eq_some_iff] at h
    obtain ⟨e', -, es'', hes'', hes'⟩ := h
    cases hes'
    rw [List.length_cons, List.length_cons, ih hes'']

/-- Visiting the operands one by one puts each finished operand on the stack, given that this holds
of every single operand. -/
theorem runWith_enter_all {es : List Expr}
    (h : ∀ e ∈ es, ∀ fuel steps finished, runWith rule (2 * e.nodeCount + fuel) (.enter e :: steps)
      finished = (Checked.bottomUp rule e).bind fun e' => runWith rule fuel steps (e' :: finished))
    (fuel : Nat) (steps : List Step) (finished : List Expr) :
    runWith rule (2 * nodeCountAll es + fuel) (es.map .enter ++ steps) finished =
      (Checked.bottomUpAll rule es).bind fun es' =>
        runWith rule fuel steps (es'.reverse ++ finished) := by
  induction es generalizing finished with
  | nil => simp [nodeCountAll, Checked.bottomUpAll]
  | cons e es ih =>
    have hfuel : 2 * nodeCountAll (e :: es) + fuel =
        2 * e.nodeCount + (2 * nodeCountAll es + fuel) := by
      simp only [nodeCountAll]
      omega
    rw [hfuel, List.map_cons, List.cons_append, h e List.mem_cons_self, Checked.bottomUpAll]
    cases Checked.bottomUp rule e with
    | none => rfl
    | some e' =>
      rw [Option.bind_some, ih fun e'' he'' => h e'' (List.mem_cons_of_mem e he'')]
      cases Checked.bottomUpAll rule es <;> simp

/-- A visit takes two steps for each node and leaves what the rule makes of it on the stack, given
that this holds of the operands. -/
theorem runWith_enter_node {e : Expr}
    (h : ∀ e' ∈ e.operands, ∀ fuel steps finished,
      runWith rule (2 * e'.nodeCount + fuel) (.enter e' :: steps) finished =
        (Checked.bottomUp rule e').bind fun e'' => runWith rule fuel steps (e'' :: finished))
    (fuel : Nat) (steps : List Step) (finished : List Expr) :
    runWith rule (2 * e.nodeCount + fuel) (.enter e :: steps) finished =
      (Checked.bottomUp rule e).bind fun e' => runWith rule fuel steps (e' :: finished) := by
  have hfuel : 2 * e.nodeCount + fuel = 2 * nodeCountAll e.operands + (fuel + 1) + 1 := by
    rw [nodeCount_eq]
    omega
  rw [hfuel, runWith, runWith_enter_all h, bottomUp_eq_bind]
  cases hes : Checked.bottomUpAll rule e.operands with
  | none => rfl
  | some es =>
    have hlen := length_bottomUpAll hes
    rw [Option.bind_some, Option.bind_some, runWith]
    simp only [← hlen, List.take_left', List.length_reverse, List.reverse_reverse, List.drop_left']
    cases e.withOperands? es <;> rfl

/-- Entering a node takes two turns for each node in it, and puts the rewritten node on top of what
was finished before. Whatever is left of the steps goes on from there. -/
theorem runWith_enter (rule : Expr → Option Expr) (e : Expr) : ∀ fuel steps finished,
    runWith rule (2 * e.nodeCount + fuel) (.enter e :: steps) finished =
      (Checked.bottomUp rule e).bind fun e' => runWith rule fuel steps (e' :: finished) := by
  induction e using operands_induct with
  | node e ih => exact runWith_enter_node ih

/-! ### What is spliced -/

/-- Whatever is summed over operands may be summed over what they contribute, if each of them adds
up to what it contributes. -/
theorem sum_flatMap {M : Type*} [AddMonoid M] {parts : Expr → List Expr} {f : Expr → M}
    {es : List Expr} (h : ∀ e ∈ es, ((parts e).map f).sum = f e) :
    ((es.flatMap parts).map f).sum = (es.map f).sum := by
  induction es with
  | nil => rfl
  | cons e es ih =>
    rw [List.forall_mem_cons] at h
    rw [List.flatMap_cons, List.map_append, List.sum_append, h.1, ih h.2, List.map_cons,
      List.sum_cons]

/-- Products can be taken of the parts instead of the trees, if that is so of each tree. -/
theorem prod_flatMap {M : Type*} [Monoid M] {parts : Expr → List Expr} {f : Expr → M}
    {es : List Expr} (h : ∀ e ∈ es, ((parts e).map f).prod = f e) :
    ((es.flatMap parts).map f).prod = (es.map f).prod := by
  induction es with
  | nil => rfl
  | cons e es ih =>
    rw [List.forall_mem_cons] at h
    rw [List.flatMap_cons, List.map_append, List.prod_append, h.1, ih h.2, List.map_cons,
      List.prod_cons]

/-- What adds up over a sum adds up over all addends in it, nested ones included. -/
theorem sum_flatMap_addends {M : Type*} [AddMonoid M] {f : Expr → M}
    (hf : ∀ es, f (.sum es) = (es.map f).sum) (es : List Expr) :
    ((es.flatMap addends).map f).sum = (es.map f).sum :=
  sum_flatMap fun e _ => by
    cases e with
    | sum gs => exact (hf gs).symm
    | _ => simp [addends]

/-- What multiplies over a product multiplies over all factors in it, nested ones included. -/
theorem prod_flatMap_factors {M : Type*} [Monoid M] {f : Expr → M}
    (hf : ∀ es, f (.prod es) = (es.map f).prod) (es : List Expr) :
    ((es.flatMap factors).map f).prod = (es.map f).prod :=
  prod_flatMap fun e _ => by
    cases e with
    | prod gs => exact (hf gs).symm
    | _ => simp [factors]

end Flatten

/-- A rule that never fails makes of a tree what it makes of it unchecked. -/
theorem bottomUp_some (rule : Expr → Expr) (e : Expr) :
    Checked.bottomUp (fun e => some (rule e)) e = some (e.bottomUp rule) := by
  induction e using Expr.induct with
  | var x => simp [Checked.bottomUp]
  | num n => simp [Checked.bottomUp]
  | sum es ih => simp [Checked.bottomUp, Checked.bottomUpAll_eq_some ih]
  | prod es ih => simp [Checked.bottomUp, Checked.bottomUpAll_eq_some ih]
  | quot a b iha ihb => simp [Checked.bottomUp, iha, ihb]
  | pow a b iha ihb => simp [Checked.bottomUp, iha, ihb]
  | app f a iha => simp [Checked.bottomUp, iha]
  | eqn a b iha ihb => simp [Checked.bottomUp, iha, ihb]

/-- The traversal does what rewriting from the leaves up does. -/
theorem flatten_eq_bottomUp (e : Expr) : flatten e = e.bottomUp Flatten.splice := by
  have h := Flatten.runWith_enter (fun e => some (Flatten.splice e)) e 0 [] []
  rw [Nat.add_zero, bottomUp_some, ← Flatten.run_eq_runWith] at h
  rw [flatten, h]
  rfl

end Simplification

end ComputerAlgebra
