import ComputerAlgebra.Numeric.FloatingPoint
import ComputerAlgebra.Proofs.Numeric.Evaluation

/-!
# When an evaluation fails

Every node is evaluated, from left to right and whatever the values of the others. So an evaluation
fails at the first node, in the order of a visit, that has no value by itself: a variable that is
neither bound nor a named constant, or an equation (`Expr.reports_evaluate`). Which values are bound
does not matter, only to which names.
-/

namespace ComputerAlgebra

variable {α β : Type}

/-! ### Named constants -/

/-- The named constants, by name. -/
theorem NamedConstant.isName_iff {x : String} : isName x = true ↔ x ∈ ["e", "pi", "π"] := by
  rw [isName, Option.isSome_iff_exists]
  simp only [ofName?_eq_some_iff]
  constructor
  · rintro ⟨c, hc⟩
    cases c <;> simp_all [spellings]
  · intro h
    simp only [List.mem_cons, List.not_mem_nil, or_false] at h
    rcases h with rfl | rfl | rfl
    · exact ⟨.e, by simp [spellings]⟩
    · exact ⟨.pi, by simp [spellings]⟩
    · exact ⟨.pi, by simp [spellings]⟩

/-! ### Errors that are reported -/

/-- A computation reports the error, or has a result if there is none to report. -/
inductive Reports : Except EvaluationError β → Option EvaluationError → Prop where
  | ok (v : β) : Reports (.ok v) none
  | error (err : EvaluationError) : Reports (.error err) (some err)

namespace Reports

variable {γ : Type} {x : Except EvaluationError β} {y : Except EvaluationError γ}
  {o o' : Option EvaluationError}

/-- Of two computations in a row the second one reports only if the first one does not. -/
theorem bind {f : β → Except EvaluationError γ} (h : Reports x o) (hnext : ∀ v, Reports (f v) o') :
    Reports (x >>= f) (o.or o') := by
  cases h with
  | ok v => exact hnext v
  | error err => exact .error err

theorem bind_pure {f : β → γ} (h : Reports x o) : Reports (x >>= fun v => pure (f v)) o := by
  rw [← o.or_none]
  exact h.bind fun v => .ok (f v)

/-- There is a value if and only if there is no offence. -/
theorem exists_eq_ok_iff (h : Reports x o) : (∃ v, x = .ok v) ↔ o = none := by
  cases h <;> simp

/-- The failure is the offence that comes first. -/
theorem eq_error_iff (h : Reports x o) {err : EvaluationError} : x = .error err ↔ o = some err := by
  cases h <;> simp

/-- Two computations that report the same have the same outcome, apart from the value. -/
theorem map_eq_map (hx : Reports x o) (hy : Reports y o) :
    x.map (fun _ => ()) = y.map fun _ => () := by
  cases hx <;> cases hy <;> rfl

end Reports

namespace Expr

variable {e : Expr} {es : List Expr} {p : Expr → Prop} {enters : Expr → Bool}

/-! ### Visits -/

/-- A visit enters a node before its operands. -/
theorem visit_eq (enters : Expr → Bool) (e : Expr) :
    e.visit enters = e :: if enters e then e.operands.flatMap (visit enters) else [] := by
  cases e <;> simp [visit, operands, visitAll_eq_flatMap]

/-- A property holds everywhere if it holds of all nodes that a full visit comes to. -/
theorem everywhere_iff_forall_mem_visit :
    Everywhere p e ↔ ∀ node ∈ e.visit fun _ => true, p node := by
  induction e using operands_induct with
  | node e ih =>
    rw [everywhere_iff, visit_eq, if_pos rfl, List.forall_mem_cons]
    refine and_congr_right fun _ => ?_
    simp only [List.mem_flatMap, forall_exists_index, and_imp]
    constructor
    · intro h node e' he' hnode
      exact (ih e' he').1 (h e' he') node hnode
    · intro h e' he'
      exact (ih e' he').2 fun node => h node e' he'

/-! ### Offences -/

/-- What keeps a node by itself from having a value. -/
def offence? (bs : Bindings α) : Expr → Option EvaluationError
  | .var x => if NamedConstant.isName x || (bs.lookup x).isSome then none else some (.unbound x)
  | .eqn _ _ => some .equation
  | _ => none

/-- A node without offence is no equation, and no variable without a value. -/
theorem offence?_eq_none_iff {bs : Bindings α} :
    offence? bs e = none ↔ e.isEquation = false ∧
      ∀ x, e = .var x → NamedConstant.isName x = true ∨ (bs.lookup x).isSome = true := by
  cases e <;> simp [offence?, isEquation, or_iff_not_imp_left]

/-- Without an offence in a tree there are no equations in it, and all unknowns are bound. -/
theorem findSome?_offence?_eq_none_iff {bs : Bindings α} :
    (e.visit fun _ => true).findSome? (offence? bs) = none ↔
      e.EquationFree ∧ ∀ x ∈ e.unknowns, (bs.lookup x).isSome = true := by
  rw [List.findSome?_eq_none_iff, ← everywhere_iff_forall_mem_visit]
  simp only [offence?_eq_none_iff]
  have hnames : (∀ x ∈ e.unknowns, (bs.lookup x).isSome = true) ↔ ∀ x ∈ e.names,
      NamedConstant.isName x = true ∨ (bs.lookup x).isSome = true := by
    refine forall_congr' fun x => ?_
    rw [mem_unknowns, and_imp, or_iff_not_imp_left, Bool.not_eq_true]
  rw [hnames, ← everywhere_names]
  constructor
  · exact fun h => ⟨h.imp fun _ => And.left, h.imp fun _ => And.right⟩
  · exact fun h => h.1.and h.2

/-- Only the names that are bound matter for what is wrong with a tree. -/
theorem findSome?_offence?_congr {bs : Bindings α} {cs : Bindings β}
    (h : ∀ x ∈ e.unknowns, (bs.lookup x).isSome = (cs.lookup x).isSome) :
    (e.visit fun _ => true).findSome? (offence? bs) =
      (e.visit fun _ => true).findSome? (offence? cs) := by
  have hnames : Everywhere (fun node => ∀ x, node = .var x → x ∈ e.names) e :=
    everywhere_names.2 fun _ => id
  rw [everywhere_iff_forall_mem_visit] at hnames
  rw [← List.head?_filterMap, ← List.head?_filterMap]
  refine congrArg List.head? (List.filterMap_congr fun node hnode => ?_)
  cases node with
  | var x =>
    rw [offence?, offence?]
    cases hname : NamedConstant.isName x with
    | true => rfl
    | false => rw [h x (mem_unknowns.2 ⟨hnames _ hnode x rfl, hname⟩)]
  | _ => rfl

/-! ### Evaluations -/

variable [Arithmetic α] [Arithmetic β] {bs cs : Bindings α}

/-- Several trees report the first offence among all of theirs, in order. -/
theorem reports_evaluateAll {o : Expr → Option EvaluationError}
    (h : ∀ e ∈ es, Reports (e.evaluate bs) ((e.visit enters).findSome? o)) :
    Reports (evaluateAll bs es) ((es.flatMap (visit enters)).findSome? o) := by
  induction es with
  | nil => exact .ok []
  | cons e es ih =>
    rw [List.forall_mem_cons] at h
    rw [evaluateAll, List.flatMap_cons, List.findSome?_append]
    exact h.1.bind fun _ => (ih h.2).bind_pure

omit [Arithmetic α] in
/-- At a node that has a value if its operands have, it is they that matter. -/
theorem findSome?_offence?_visit (henters : ∀ node, node.isEquation = false → enters node = true)
    (h : offence? bs e = none) : (e.visit enters).findSome? (offence? bs) =
      (e.operands.flatMap (visit enters)).findSome? (offence? bs) := by
  rw [visit_eq, List.findSome?_cons, h, if_pos (henters e (offence?_eq_none_iff.1 h).1)]

/-- An evaluation reports the first offence in the order of a visit, be the sides of equations
visited or not. -/
theorem reports_evaluate (bs : Bindings α)
    (henters : ∀ node, node.isEquation = false → enters node = true) (e : Expr) :
    Reports (e.evaluate bs) ((e.visit enters).findSome? (offence? bs)) := by
  induction e using operands_induct with
  | node e ih =>
    -- two operands are evaluated one after the other, and visited in this order
    have two {a b : Expr} {f : α → α → α} (ha : a ∈ e.operands) (hb : b ∈ e.operands) :
        Reports (do let v ← a.evaluate bs; let w ← b.evaluate bs; return f v w)
          (([a, b].flatMap (visit enters)).findSome? (offence? bs)) := by
      rw [List.flatMap_cons, List.flatMap_singleton, List.findSome?_append]
      exact (ih a ha).bind fun _ => (ih b hb).bind_pure
    -- a named constant is no offence, whatever is bound
    cases e with
    | var x =>
      rw [visit, List.findSome?_singleton, evaluate, Bindings.value?, offence?,
        NamedConstant.isName]
      cases NamedConstant.ofName? x with
      | some c => exact .ok _
      | none =>
        cases bs.lookup x with
        | some v => exact .ok v
        | none => exact .error (.unbound x)
    | num n => exact .ok _
    | sum es =>
      rw [findSome?_offence?_visit henters rfl]
      exact (reports_evaluateAll ih).bind_pure
    | prod es =>
      rw [findSome?_offence?_visit henters rfl]
      exact (reports_evaluateAll ih).bind_pure
    | quot a b =>
      rw [findSome?_offence?_visit henters rfl]
      exact two (by simp [operands]) (by simp [operands])
    | pow a b =>
      rw [findSome?_offence?_visit henters rfl]
      exact two (by simp [operands]) (by simp [operands])
    | app f a =>
      have hvisit : (app f a).operands.flatMap (visit enters) = a.visit enters :=
        List.flatMap_singleton _ _
      rw [findSome?_offence?_visit henters rfl, hvisit]
      exact (ih a (by simp [operands])).bind_pure
    | eqn a b => exact .error .equation

/-! ### What an evaluation depends on -/

/-- Evaluation of several changed trees is evaluation of the trees, if that is so of each. -/
theorem evaluateAll_map (es : List Expr) {f : Expr → Expr}
    (h : ∀ e ∈ es, (f e).evaluate bs = e.evaluate cs) :
    evaluateAll bs (es.map f) = evaluateAll cs es := by
  induction es with
  | nil => rfl
  | cons e es ih =>
    rw [List.forall_mem_cons] at h
    rw [List.map_cons, evaluateAll, evaluateAll, h.1, ih h.2]

/-- Unless it is a variable, a node has the value that its operands give it. -/
theorem evaluate_mapOperands {f : Expr → Expr} (hvar : ∀ x, e ≠ .var x)
    (h : ∀ e' ∈ e.operands, (f e').evaluate bs = e'.evaluate cs) :
    (e.mapOperands f).evaluate bs = e.evaluate cs := by
  cases e with
  | var x => exact absurd rfl (hvar x)
  | num n => rfl
  | sum es => rw [mapOperands, evaluate, evaluate, evaluateAll_map es h]
  | prod es => rw [mapOperands, evaluate, evaluate, evaluateAll_map es h]
  | quot a b =>
    rw [mapOperands, evaluate, evaluate, h a (by simp [operands]), h b (by simp [operands])]
  | pow a b =>
    rw [mapOperands, evaluate, evaluate, h a (by simp [operands]), h b (by simp [operands])]
  | app g a => rw [mapOperands, evaluate, evaluate, h a (by simp [operands])]
  | eqn a b => rfl

/-- Evaluation depends only on the values that the bindings give to names. -/
theorem evaluate_congr (h : ∀ x, bs.value? x = cs.value? x) (e : Expr) :
    e.evaluate bs = e.evaluate cs := by
  induction e using inner_induct with
  | var x => rw [evaluate, evaluate, h x]
  | inner e hvar ih => rw [← evaluate_mapOperands hvar ih, mapOperands_eq_self fun _ _ => rfl]

/-- A value that is bound to the name of a constant is never looked up. -/
theorem value?_congr (h : ∀ x, x ∉ ["e", "pi", "π"] → bs.lookup x = cs.lookup x) (x : String) :
    bs.value? x = cs.value? x := by
  rw [Bindings.value?, Bindings.value?]
  cases hname : NamedConstant.ofName? x with
  | some c => rfl
  | none =>
    refine h x fun hx => ?_
    rw [← NamedConstant.isName_iff, NamedConstant.isName, hname] at hx
    cases hx

end Expr

open ComputerAlgebra.Expr

variable [Arithmetic α]

/-- Evaluation in the session has one checkpoint in front, and names its failures. -/
theorem Job.run_evaluate (bs : Bindings α) (e : Expr) (pending : Bool) :
    (Job.evaluate bs e).run pending =
      (if pending then .error .aborted else (e.evaluate bs).mapError .valueless, false) := by
  rw [Job.evaluate, Job.run_bind, Job.run_checkpoint]
  cases pending with
  | true => rfl
  | false =>
    cases e.evaluate bs <;> rfl

/-- An evaluation has a result if and only if there is no equation in the expression and every
unknown is bound. Otherwise it fails as the first node says that offends, in the order of a visit
that need not look below equations. So which values are bound plays no role for that, in whatever
numbers, and what is bound to the name of a constant plays no role at all. -/
theorem evaluate_outcome (bs : Bindings α) (e : Expr) :
    ((∃ v, e.evaluate bs = .ok v) ↔
      e.EquationFree ∧ ∀ x ∈ e.unknowns, (bs.lookup x).isSome = true) ∧
    (∀ enters : Expr → Bool, (∀ node, node.isEquation = false → enters node = true) →
      ∀ err, e.evaluate bs = .error err ↔ (e.visit enters).findSome? (offence? bs) = some err) ∧
    (∀ (β : Type) [Arithmetic β] (cs : Bindings β),
      (∀ x ∈ e.unknowns, (bs.lookup x).isSome = (cs.lookup x).isSome) →
        (e.evaluate bs).map (fun _ => ()) = (e.evaluate cs).map fun _ => ()) ∧
    (∀ cs : Bindings α, (∀ x, x ∉ ["e", "pi", "π"] → bs.lookup x = cs.lookup x) →
      e.evaluate bs = e.evaluate cs) ∧
    ∀ pending, (Job.evaluate bs e).run pending =
      (if pending then .error .aborted else (e.evaluate bs).mapError .valueless, false) := by
  have hall : Reports (e.evaluate bs) ((e.visit fun _ => true).findSome? (offence? bs)) :=
    reports_evaluate bs (fun _ _ => rfl) e
  refine ⟨?_, ?_, ?_, ?_, Job.run_evaluate bs e⟩
  · rw [hall.exists_eq_ok_iff, findSome?_offence?_eq_none_iff]
  · exact fun enters henters err => (reports_evaluate bs henters e).eq_error_iff
  · intro β _ cs hbound
    refine hall.map_eq_map ?_
    rw [findSome?_offence?_congr hbound]
    exact reports_evaluate cs (fun _ _ => rfl) e
  · exact fun cs h => evaluate_congr (value?_congr h) e

/-- With a value for `x`, the sum `x + pi` has a value, and `x + y * (z = 1)` fails because of `y`,
which comes before the equation. Which value `x` has decides nothing about the outcome, and a value
given to `pi` is ignored. -/
theorem evaluate_outcome_sum :
    (∃ v, (Expr.sum [.var "x", .var "pi"]).evaluate [("x", (0.5 : Float))] = .ok v) ∧
      (Expr.sum [.var "x", .prod [.var "y", .eqn (.var "z") 1]]).evaluate [("x", (0.5 : Float))] =
        .error (.unbound "y") ∧
      ((Expr.var "x").evaluate [("x", (0.5 : Float))]).map (fun _ => ()) =
        ((Expr.var "x").evaluate [("x", (2 : Float))]).map (fun _ => ()) ∧
      (Expr.var "pi").evaluate [("pi", (3 : Float))] = (Expr.var "pi").evaluate [] := by
  refine ⟨(evaluate_outcome _ _).1.2 (by decide),
    ((evaluate_outcome _ _).2.1 _ (fun _ _ => rfl) _).2 ?_,
    (evaluate_outcome _ _).2.2.1 _ _ (by decide), (evaluate_outcome _ _).2.2.2.1 _ ?_⟩
  · decide
  · intro x hx
    have hpi : (x == "pi") = false := by
      rw [beq_eq_false_iff_ne]
      rintro rfl
      exact hx (by simp)
    rw [List.lookup_cons, hpi]

end ComputerAlgebra
