import ComputerAlgebra.Calculus.Taylor
import ComputerAlgebra.Proofs.Checked.Operations
import ComputerAlgebra.Proofs.Checked.Parsing
import ComputerAlgebra.Proofs.Checked.Passes
import ComputerAlgebra.Proofs.Numeric.Deflation

/-!
# Jobs with checked construction

Simplification, differentiation, Taylor polynomials and the search for roots as jobs that give
nothing if the check of a constructor fails. On well-formed trees that does not happen, whatever
else does (`Mirrors`).
-/

namespace ComputerAlgebra

namespace Checked

open ComputerAlgebra.Expr

variable {α β : Type}

/-- A tree that is built with checks, as a job. -/
def build (made : Option Expr) : OptionT Job Expr := OptionT.mk (pure made)

/-- With or without a request to stop, the checked job does what the job does, so no check fails;
and its results satisfy `post`. -/
def Mirrors (checked : OptionT Job α) (job : Job α) (post : α → Prop) : Prop :=
  ∀ pending, Job.run checked.run pending = ((job.run pending).1.map some, (job.run pending).2) ∧
    ∀ a, (job.run pending).1 = .ok a → post a

namespace Mirrors

variable {checked : OptionT Job α} {job : Job α} {post : α → Prop} {post' : β → Prop}
  {next : α → Job β} {next' : α → OptionT Job β}

theorem pure {a : α} (h : post a) : Mirrors (Pure.pure a) (Pure.pure a) post :=
  fun _ => ⟨rfl, fun _ ha => Except.ok.inj ha ▸ h⟩

theorem throw (f : Failure) : Mirrors (OptionT.lift (throw f)) (throw f : Job α) post :=
  fun _ => ⟨rfl, fun _ ha => nomatch ha⟩

/-- A tree that is built is the result of a job. -/
theorem build {made : Option Expr} {e : Expr} (h : Builds made e) :
    Mirrors (build made) (Pure.pure e) WellFormed := by
  intro pending
  rw [h.eq_some]
  exact ⟨rfl, fun _ he => Except.ok.inj he ▸ h.wellFormed⟩

/-- A job that builds no tree has nothing to check. -/
theorem lift (job : Job α) : Mirrors (OptionT.lift job) job fun _ => True := by
  intro pending
  have hrun : OptionT.run (OptionT.lift job) = some <$> job := by
    rw [OptionT.run_lift, map_eq_pure_bind]
  rw [hrun, Job.run_map]
  exact ⟨rfl, fun _ _ => trivial⟩

/-- Jobs mirror each other step by step, the second one in what the first one ensures. -/
theorem bind (h : Mirrors checked job post)
    (hnext : ∀ a, post a → Mirrors (next' a) (next a) post') :
    Mirrors (checked >>= next') (job >>= next) post' := by
  intro pending
  obtain ⟨hrun, hpost⟩ := h pending
  rw [OptionT.run_bind, Option.elimM, Job.run_bind, Job.run_bind, hrun]
  cases hjob : job.run pending with
  | mk result left =>
    rw [hjob] at hpost
    cases result with
    | error f => exact ⟨rfl, fun _ h => nomatch h⟩
    | ok a => exact hnext a (hpost a rfl) left

end Mirrors

/-! ### Simplification and differentiation -/

/-- Repeat the rounds of a simplification until one of them changes nothing. -/
def rounds (allowed : Nat) : (left : Nat) → Expr → OptionT Job Expr
  | 0, e => do
    OptionT.lift Job.checkpoint
    OptionT.lift (throw (.notConverged allowed e))
  | left + 1, e => do
    OptionT.lift Job.checkpoint
    let next ← build (round e)
    if next = e then return e else rounds allowed left next

/-- Simplify with at most `cap` rounds, or with as many as it takes. -/
def simplify (cap : Option Nat) (e : Expr) : OptionT Job Expr :=
  let allowed := cap.getD Simplification.unbounded
  rounds allowed allowed e

/-- The derivative by a variable, simplified before and after. -/
def differentiate (cap : Option Nat) (e : Expr) (x : String) : OptionT Job Expr := do
  simplify cap (← build (derivative x (← simplify cap e)))

variable {cap : Option Nat} {e f p : Expr} {x : String}

/-- Repeating rounds mirrors repeating rounds, with the well-formedness of the tree as invariant. -/
theorem rounds_mirrors (allowed left : Nat) (h : e.WellFormed) :
    Mirrors (rounds allowed left e) (Job.rounds allowed left e) WellFormed := by
  induction left generalizing e with
  | zero => exact (Mirrors.lift _).bind fun _ _ => .throw _
  | succ left ih =>
    apply (Mirrors.lift _).bind
    intro _ _
    have hround := round_builds h
    rw [hround.eq_some]
    show Mirrors (if Simplification.round e = e then Pure.pure e
      else rounds allowed left (Simplification.round e)) (if _ then _ else _) _
    split_ifs
    · exact .pure h
    · exact ih hround.wellFormed

/-- Simplification builds all of its sums and products. -/
theorem simplify_mirrors (cap : Option Nat) (h : e.WellFormed) :
    Mirrors (simplify cap e) (Job.simplify cap e) WellFormed :=
  rounds_mirrors _ _ h

/-- Differentiation builds all of its sums and products. -/
theorem differentiate_mirrors (cap : Option Nat) (h : e.WellFormed) (x : String) :
    Mirrors (differentiate cap e x) (Job.differentiate cap e x) WellFormed := by
  apply (simplify_mirrors cap h).bind
  intro e he
  have hderivative := derivative_builds x he
  rw [hderivative.eq_some]
  exact simplify_mirrors cap hderivative.wellFormed

/-! ### Taylor polynomials -/

/-- The term of order `n`. -/
def taylorTerm (x : String) (p : Expr) (n : Nat) (factorial : Int64) (derivative : Expr) :
    Option Expr := do
  return .quot
    (← prod [← substitute derivative [(x, p)],
      .pow (← subtract (.var x) p) (.num (.ofNat n))])
    (.num factorial)

/-- The next `count` terms after the one of order `n`. -/
def taylorTerms (cap : Option Nat) (x : String) (p : Expr) :
    (count n : Nat) → (factorial : Int64) → (derivative : Expr) → OptionT Job (List Expr)
  | 0, _, _, _ => return []
  | count + 1, n, factorial, derivative => do
    let derivative ← differentiate cap derivative x
    let factorial := factorial * .ofNat (n + 1)
    let terms ← taylorTerms cap x p count (n + 1) factorial derivative
    return (← build (taylorTerm x p (n + 1) factorial derivative)) :: terms

/-- The Taylor polynomial of an expression in the variable `x` around the point `p`, simplified. -/
def taylor (cap : Option Nat) (f : Expr) (x : String) (p : Expr) (order : Nat) :
    OptionT Job Expr := do
  if f.isEquation || p.isEquation then OptionT.lift (throw (.domain .expandedEquation))
  if Calculus.maxTaylorOrder < order then
    OptionT.lift (throw (.domain (.orderTooLarge order Calculus.maxTaylorOrder)))
  let f ← simplify cap f
  let terms ← taylorTerms cap x p order 0 1 f
  simplify cap (← build (sumOf ((← build (substitute f [(x, p)])) :: terms)))

/-- Replacing a variable by a well-formed point is built. -/
theorem substitute_point_builds (h : e.WellFormed) (hp : p.WellFormed) (x : String) :
    Builds (substitute e [(x, p)]) (e.substitute [(x, p)]) :=
  substitute_builds (by simpa using hp) h

theorem taylorTerm_builds (n : Nat) (factorial : Int64) (h : e.WellFormed) (hp : p.WellFormed) :
    Builds (taylorTerm x p n factorial e) (Calculus.taylorTerm x p n factorial e) :=
  have hvalue := substitute_point_builds h hp x
  have hoffset := Builds.subtract (.var x) hp
  have hproduct := Builds.prod_pair hvalue.wellFormed
    (.pow hoffset.wellFormed (.num (.ofNat n)))
  hvalue.bind <| hoffset.bind <| hproduct.bind <|
    .of_wellFormed (.quot hproduct.wellFormed (.num factorial))

/-- The terms of a Taylor polynomial are built, by induction on how many there are to come. -/
theorem taylorTerms_mirrors (cap : Option Nat) (x : String) (hp : p.WellFormed) (count n : Nat)
    (factorial : Int64) (h : e.WellFormed) :
    Mirrors (taylorTerms cap x p count n factorial e)
      (Calculus.taylorTerms cap x p count n factorial e)
      fun terms => ∀ t ∈ terms, t.WellFormed := by
  induction count generalizing n factorial e with
  | zero => exact .pure (by simp)
  | succ count ih =>
    apply (differentiate_mirrors cap h x).bind
    intro e he
    apply (ih (n + 1) _ he).bind
    intro terms hterms
    have hterm := taylorTerm_builds (x := x) (n + 1) (factorial * .ofNat (n + 1)) he hp
    rw [hterm.eq_some]
    exact .pure (List.forall_mem_cons.mpr ⟨hterm.wellFormed, hterms⟩)

/-- A Taylor polynomial builds all of its sums and products, and is refused in the same cases. -/
theorem taylor_mirrors (cap : Option Nat) (hf : f.WellFormed) (x : String) (hp : p.WellFormed)
    (order : Nat) :
    Mirrors (taylor cap f x p order) (Calculus.taylor cap f x p order) WellFormed := by
  have refused {α : Type} (f : Failure) {next : PUnit → Job α} {next' : PUnit → OptionT Job α}
      {post : α → Prop} :
      Mirrors (OptionT.lift (throw f) >>= next') ((throw f : Job PUnit) >>= next) post :=
    have hthrow : Mirrors (OptionT.lift (throw f)) (throw f : Job PUnit) fun _ => False := .throw f
    hthrow.bind fun _ h => h.elim
  rw [taylor, Calculus.taylor]
  dsimp only
  split_ifs
  · exact refused _
  · exact refused _
  · exact refused _
  · apply (simplify_mirrors cap hf).bind
    intro f hf
    apply (taylorTerms_mirrors cap x hp order 0 1 hf).bind
    intro terms hterms
    have hvalue := substitute_point_builds hf hp x
    have hsum := Builds.sumOf (List.forall_mem_cons.mpr ⟨hvalue.wellFormed, hterms⟩)
    rw [hvalue.eq_some]
    show Mirrors (do simplify cap (← build (sumOf (f.substitute [(x, p)] :: terms)))) _ _
    rw [hsum.eq_some]
    exact simplify_mirrors cap hsum.wellFormed

/-! ### The search for roots -/

section Roots

open Roots

variable [Arithmetic α] {a b : Expr}

/-- Divide a function by `x - r`, where the root `r` is a placeholder. -/
def deflate (f : Expr) (x : String) (index : Nat) : Option Expr := do
  return .quot f (← subtract (.var x) (.var (placeholder index)))

/-- Search one root after the other until a run finds nothing. A run builds no trees. -/
def search (settings : NewtonSettings α) (cap : Option Nat) (x : String) :
    (fuel : Nat) → Expr → List α → OptionT Job (List α)
  | 0, _, roots => return roots
  | fuel + 1, f, roots => do
    let f' ← differentiate cap f x
    match ← OptionT.lift (newton settings (evaluateAt x roots f f') settings.maxIterations
        ⟨settings.seed, none, 0⟩) with
    | none => return roots
    | some root =>
      let f ← simplify cap (← build (deflate f x roots.length))
      search settings cap x fuel f (roots ++ [root])

/-- The roots of an equation in one unknown, ascending. -/
def solve (settings : NewtonSettings α) (cap : Option Nat) : Expr → OptionT Job (List α)
  | .eqn a b =>
    match (Expr.eqn a b).unknowns with
    | [x] => do
      let f ← simplify cap (← build (subtract a b))
      return tidy (← search settings cap x Simplification.unbounded f [])
    | _ => OptionT.lift (throw (.domain .equationUnknowns))
  | _ => OptionT.lift (throw (.domain .notAnEquation))

theorem deflate_builds (h : f.WellFormed) (x : String) (index : Nat) :
    Builds (deflate f x index) (Roots.deflate f x index) :=
  have hdifference := Builds.subtract (.var x) (.var (placeholder index))
  hdifference.bind (.of_wellFormed (.quot h hdifference.wellFormed))

/-- The search for roots builds the same function to search, however many roots were found. -/
theorem search_mirrors (settings : NewtonSettings α) (cap : Option Nat) (x : String) (fuel : Nat)
    (h : f.WellFormed) (roots : List α) :
    Mirrors (search settings cap x fuel f roots) (Roots.search settings cap x fuel f roots)
      fun _ => True := by
  induction fuel generalizing f roots with
  | zero => exact .pure trivial
  | succ fuel ih =>
    apply (differentiate_mirrors cap h x).bind
    intro f' hf'
    apply (Mirrors.lift _).bind
    intro found _
    cases found with
    | none => exact .pure trivial
    | some root =>
      have hdeflate := deflate_builds h x roots.length
      dsimp only
      rw [hdeflate.eq_some]
      apply (simplify_mirrors cap hdeflate.wellFormed).bind
      intro g hg
      exact ih hg _

/-- Solving an equation builds all of its sums and products, and is refused in the same cases. -/
theorem solve_mirrors (settings : NewtonSettings α) (cap : Option Nat) (h : e.WellFormed) :
    Mirrors (solve settings cap e) (Roots.solve settings cap e) fun _ => True := by
  cases h with
  | @eqn a b ha hb =>
    have hdifference := Builds.subtract ha hb
    have hfunction (x : String) : Mirrors
        (do
          let f ← simplify cap (← build (subtract a b))
          return tidy (← search settings cap x Simplification.unbounded f []))
        (do
          let f ← Job.simplify cap (a.subtract b)
          return tidy (← Roots.search settings cap x Simplification.unbounded f []))
        fun _ => True := by
      rw [hdifference.eq_some]
      apply (simplify_mirrors cap hdifference.wellFormed).bind
      intro f hf
      apply (search_mirrors settings cap _ _ hf []).bind
      intro roots _
      exact .pure trivial
    rw [solve, Roots.solve]
    rcases (Expr.eqn a b).unknowns with _ | ⟨x, _ | ⟨_, _⟩⟩
    · exact .throw _
    · exact hfunction x
    · exact .throw _
  | _ => exact .throw _

/-- The functions that a search comes to are well formed. -/
theorem wellFormed_of_reached {settings : NewtonSettings α} {roots : List α}
    (h : Reached settings cap x a b f roots) (ha : a.WellFormed) (hb : b.WellFormed) :
    f.WellFormed := by
  have simplified {e f : Expr} (he : e.WellFormed)
      (hf : (Job.simplify cap e).run false = (.ok f, false)) : f.WellFormed :=
    (simplify_mirrors cap he false).2 f (congrArg Prod.fst hf)
  induction h with
  | start hf => exact simplified (Builds.subtract ha hb).wellFormed hf
  | @found f _ _ roots _ _ _ _ hdeflate ih =>
    exact simplified (deflate_builds ih x roots.length).wellFormed hdeflate

end Roots

/-! ### All operations -/

/-- Every sum and every product that an operation builds from well-formed trees has at least two
operands, in its result and on the way. -/
theorem no_check_fails :
    (∀ text, parse text = some (Expr.parse text) ∧
      ∀ e, Expr.parse text = .ok e → e.WellFormed) ∧
    passes.Forall₂ (fun checked pass => ∀ e : Expr, e.WellFormed → Builds (checked e) (pass e))
      Simplification.passes ∧
    (∀ (e : Expr) (x : String), e.WellFormed →
      Builds (derivative x e) (Calculus.derivative x e)) ∧
    (∀ (e : Expr) (σ : Substitution), e.WellFormed → (∀ p ∈ σ, p.2.WellFormed) →
      Builds (substitute e σ) (e.substitute σ)) ∧
    (∀ (cap : Option Nat) (f : Expr) (x : String) (p : Expr) (order : Nat), f.WellFormed →
      p.WellFormed →
        Mirrors (taylor cap f x p order) (Calculus.taylor cap f x p order) WellFormed) ∧
    (∀ (α : Type) [Arithmetic α] (settings : NewtonSettings α) (cap : Option Nat) (e : Expr),
      e.WellFormed → Mirrors (solve settings cap e) (Roots.solve settings cap e) fun _ => True) ∧
    (∀ (α : Type) [Arithmetic α] (settings : NewtonSettings α) (cap : Option Nat) (x : String)
      (a b f : Expr) (roots : List α), a.WellFormed → b.WellFormed →
      Roots.Reached settings cap x a b f roots → f.WellFormed ∧
        Builds (deflate f x roots.length) (Roots.deflate f x roots.length)) ∧
    ∀ e : Expr, e.WellFormed →
      opposite e = some e.opposite? ∧ ∀ e' ∈ e.opposite?, e'.WellFormed :=
  ⟨parse_eq_some, passes_build, fun _ x h => derivative_builds x h,
    fun _ _ h hσ => substitute_builds hσ h,
    fun cap _ x _ order hf hp => taylor_mirrors cap hf x hp order,
    fun _ _ settings cap _ h => solve_mirrors settings cap h,
    fun _ _ _ _ x _ _ _ _ ha hb h =>
      have hf := wellFormed_of_reached h ha hb
      ⟨hf, deflate_builds hf x _⟩,
    fun _ h => opposite_builds h⟩

/-- The product rule drops no operand of a product of two variables. -/
theorem no_check_fails_product :
    (Expr.prod [.var "x", .var "y"]).WellFormed ∧
    Builds (derivative "x" (.prod [.var "x", .var "y"]))
      (.sum [.prod [1, .var "y"], .prod [.var "x", 0]]) := by
  have h : (Expr.prod [.var "x", .var "y"]).WellFormed := by simp
  have hvalue : Calculus.derivative "x" (.prod [.var "x", .var "y"]) =
      .sum [.prod [1, .var "y"], .prod [.var "x", 0]] := by decide
  exact ⟨h, hvalue ▸ no_check_fails.2.2.1 _ "x" h⟩

end Checked

end ComputerAlgebra
