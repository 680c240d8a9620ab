import ComputerAlgebra.Proofs.Exact.Evaluation
import ComputerAlgebra.Proofs.Parsing.Image
import ComputerAlgebra.Proofs.Simplification.Soundness
import ComputerAlgebra.Proofs.Sorted

/-!
# Deflation

A search for roots hides each root that it finds in its function. `Reached` says which functions and
roots a search comes to. In exact arithmetic the function is the difference of the sides of the
equation, divided by `x - r` for every root `r` so far (`Hides`): the simplifications in between do
not change its value, and no placeholder is taken for another variable. What the search returns are
the roots that it accepted, each of them once (`solve_deflates`).
-/

namespace ComputerAlgebra

open ComputerAlgebra.Expr

namespace Roots

/-! ### Turns of a search -/

section Reached

variable {α : Type} [Arithmetic α] {settings : NewtonSettings α} {cap : Option Nat} {x : String}
  {a b f g : Expr} {roots roots' : List α}

/-- The search for the roots of `a = b` comes to a function in which the roots that it has accepted
so far are hidden. -/
inductive Reached (settings : NewtonSettings α) (cap : Option Nat) (x : String) (a b : Expr) :
    Expr → List α → Prop where
  | start {f : Expr} (h : (Job.simplify cap (.subtract a b)).run false = (.ok f, false)) :
      Reached settings cap x a b f []
  | found {f f' g : Expr} {roots : List α} {root : α} (h : Reached settings cap x a b f roots)
      (hderivative : (Job.differentiate cap f x).run false = (.ok f', false))
      (hroot : (newton settings (evaluateAt x roots f f') settings.maxIterations
        ⟨settings.seed, none, 0⟩).run false = (.ok (some root), false))
      (hdeflate : (Job.simplify cap (deflate f x roots.length)).run false = (.ok g, false)) :
      Reached settings cap x a b g (roots ++ [root])

/-- The next run of a search finds nothing. -/
def Exhausted (settings : NewtonSettings α) (cap : Option Nat) (x : String) (f : Expr)
    (roots : List α) : Prop :=
  ∃ f', (Job.differentiate cap f x).run false = (.ok f', false) ∧
    (newton settings (evaluateAt x roots f f') settings.maxIterations ⟨settings.seed, none, 0⟩).run
      false = (.ok none, false)

/-- If every failure is allowed, nothing needs to be known about what is searched for roots. -/
theorem invariant_any (x : String) : Invariant α x (fun _ => True) fun _ _ => True where
  round _ _ _ := trivial
  derivative _ _ _ := trivial
  deflate _ _ _ := trivial
  notConverged _ _ _ _ := trivial
  evaluate _ _ _ _ _ _ := trivial

/-- Whatever is searched, a root that is found is in range. -/
theorem ensures_newton_any (settings : NewtonSettings α) (x : String) (roots : List α)
    (f f' : Expr) (count : Nat) (run : Run α) :
    Job.Ensures (newton settings (evaluateAt x roots f f') count run)
      (fun found => ∀ root ∈ found, InRange settings root) (fun _ => True) :=
  ensures_newton settings ((invariant_any x).ensures_evaluateAt trivial trivial) count run

/-- Whatever a search returns it has reached; and unless its fuel is used up, there is nothing more
to find. -/
theorem Reached.of_search {fuel : Nat} {pending : Bool} (h : Reached settings cap x a b f roots)
    (hrun : (search settings cap x fuel f roots).run false = (.ok roots', pending)) :
    ∃ g, Reached settings cap x a b g roots' ∧
      (Exhausted settings cap x g roots' ∨ roots'.length = roots.length + fuel) := by
  induction fuel generalizing f roots with
  | zero =>
    cases hrun
    exact ⟨f, h, .inr rfl⟩
  | succ fuel ih =>
    obtain ⟨f', hderivative, -, hrun⟩ :=
      (Job.ensures_differentiate_any (fun _ _ => trivial) cap f x).run_bind_eq_ok hrun
    obtain ⟨found, hfound, -, hrun⟩ :=
      (ensures_newton_any settings x roots f f' _ _).run_bind_eq_ok hrun
    cases found with
    | none =>
      cases hrun
      exact ⟨f, h, .inl ⟨f', hderivative, hfound⟩⟩
    | some root =>
      obtain ⟨g, hdeflate, -, hrun⟩ :=
        (Job.ensures_simplify_any (fun _ _ => trivial) cap _).run_bind_eq_ok hrun
      obtain ⟨g', hg', hend⟩ := ih (h.found hderivative hfound hdeflate) hrun
      refine ⟨g', hg', hend.imp_right fun hlength => ?_⟩
      rw [hlength, List.length_append, List.length_singleton, Nat.add_assoc, Nat.add_comm 1]

theorem Reached.inRange (h : Reached settings cap x a b f roots) :
    ∀ root ∈ roots, InRange settings root := by
  induction h with
  | start => simp
  | found h hderivative hroot hdeflate ih =>
    obtain ⟨-, hrange⟩ := (ensures_newton_any _ _ _ _ _ _ _).of_run_eq_ok hroot
    rw [List.forall_mem_append]
    exact ⟨ih, List.forall_mem_singleton.mpr (hrange _ rfl)⟩

/-- The result of a successful search is what it has reached when there is nothing more to find, in
order. -/
theorem Reached.of_solve {pending : Bool} (hx : (Expr.eqn a b).unknowns = [x])
    (hrun : ((solve settings cap (.eqn a b)).run pending).1 = .ok roots') :
    ∃ f roots, Reached settings cap x a b f roots ∧ roots' = tidy roots ∧
      (Exhausted settings cap x f roots ∨ roots.length = Simplification.unbounded) := by
  cases pending with
  | true =>
    have hsolvable : Solvable (.eqn a b) := ⟨x, hx⟩
    rw [heeds_solve hsolvable] at hrun
    cases hrun
  | false =>
    obtain ⟨left, hrun'⟩ : ∃ left, (solve settings cap (.eqn a b)).run false =
        (.ok roots', left) := ⟨_, Prod.ext hrun rfl⟩
    rw [solve, hx] at hrun'
    obtain ⟨f, hf, -, hrun'⟩ :=
      (Job.ensures_simplify_any (fun _ _ => trivial) cap _).run_bind_eq_ok hrun'
    obtain ⟨roots, hroots, -, hrun'⟩ := ((invariant_any x).ensures_search settings cap
      Simplification.unbounded trivial).run_bind_eq_ok hrun'
    cases hrun'
    obtain ⟨g, hg, hend⟩ := (Reached.start hf).of_search hroots
    exact ⟨g, roots, hg, rfl, hend.imp_right fun h => by simpa using h⟩

end Reached

/-! ### Placeholders -/

/-- How the name of a placeholder is written. -/
theorem toList_placeholder (i : Nat) :
    (placeholder i).toList = '_' :: 'k' :: Nat.toDigits 10 i := by
  simp [placeholder, toString, Nat.repr]

/-- Different roots have different placeholders. -/
theorem placeholder_injective : Function.Injective placeholder := by
  intro i j h
  have hlist := congrArg String.toList h
  rw [toList_placeholder, toList_placeholder] at hlist
  have hdigits : Nat.toDigits 10 i = Nat.toDigits 10 j := by simpa using hlist
  calc i = Nat.ofDigitChars 10 (Nat.toDigits 10 i) 0 := Nat.ofDigitChars_ten_toDigits.symm
    _ = Nat.ofDigitChars 10 (Nat.toDigits 10 j) 0 := by rw [hdigits]
    _ = j := Nat.ofDigitChars_ten_toDigits

/-- An underscore is no part of a word. -/
theorem placeholder_ne {x : String} (hx : IsVariableName x) (i : Nat) : placeholder i ≠ x := by
  rintro rfl
  have hword := hx.word '_' (by simp [toList_placeholder])
  revert hword
  decide

/-- No placeholder is a named constant. -/
theorem isName_placeholder (i : Nat) : NamedConstant.isName (placeholder i) = false := by
  have hhead : (placeholder i).toList.head? = some '_' := by
    rw [toList_placeholder, List.head?_cons]
  by_contra hname
  obtain ⟨c, hc⟩ := Option.isSome_iff_exists.mp (Bool.eq_true_of_not_eq_false hname)
  have hspelling : ∀ c : NamedConstant, ∀ y ∈ c.spellings, y.toList.head? ≠ some '_' := by
    rintro (_ | _) <;> decide
  exact hspelling c _ (NamedConstant.ofName?_eq_some_iff.mp hc) hhead

/-- Each placeholder is bound to its root. -/
theorem lookup_placeholderBindings {α : Type} (roots : List α) (i : Nat) :
    (placeholderBindings roots).lookup (placeholder i) = roots[i]? := by
  have hlookup (roots : List α) (start i : Nat) :
      ((roots.zipIdx start).map fun p => (placeholder p.2, p.1)).lookup (placeholder (start + i)) =
        roots[i]? := by
    induction roots generalizing start i with
    | nil => rfl
    | cons root roots ih =>
      cases i with
      | zero => simp
      | succ i =>
        have hne : placeholder (start + (i + 1)) ≠ placeholder start :=
          fun h => absurd (placeholder_injective h) (by omega)
        rw [List.zipIdx_cons, List.map_cons, List.lookup_cons, beq_eq_false_iff_ne.mpr hne]
        have hnext := ih (start + 1) i
        rw [Nat.add_right_comm, Nat.add_assoc] at hnext
        exact hnext
  have h := hlookup roots 0 i
  rwa [Nat.zero_add] at h

/-! ### The function under search -/

section Exact

open ExactNumbers

variable {K : Type} [Field K] [LinearOrder K] [ExactNumbers K] {x : String} {a b f g : Expr}
  {rs : List K} {r v A B : K}

/-- The expression has the value of `a - b` divided by `x - r` for each of the roots `r`, wherever
that has a value and the placeholders stand for the roots. -/
structure Hides (x : String) (a b : Expr) (rs : List K) (f : Expr) : Prop where
  wellFormed : f.WellFormed
  named : Named x rs.length f
  value (ρ : String → K) (hroots : ∀ i (hi : i < rs.length), ρ (placeholder i) = rs[i])
    (hdef : Exact.Defined ρ (.subtract a b)) (hx : ρ x ∉ rs) :
    Exact.Defined ρ f ∧
      Exact.value ρ f = Exact.value ρ (.subtract a b) / (rs.map (ρ x - ·)).prod

/-- At first the difference of the two sides is searched, and no root is hidden. -/
theorem Hides.start (ha : a.WellFormed) (hb : b.WellFormed) (hx : (Expr.eqn a b).unknowns = [x]) :
    Hides (K := K) x a b [] (.subtract a b) where
  wellFormed := by simp [subtract, negate, ha, hb]
  named y hy := by
    have hy : y ∈ (eqn a b).names := by simpa [subtract, negate, names, namesAll] using hy
    exact (names_of_unknowns hx y hy).imp_right .inl
  value ρ _ hdef _ := ⟨hdef, by simp⟩

/-- Simplification keeps values. -/
theorem Hides.simplify {cap : Option Nat} (h : Hides x a b rs f)
    (hg : Simplification.simplify cap f = .ok g) : Hides x a b rs g := by
  have hnamed := h.named.of_writtenLike (writtenLike_simplify (.inl hg))
  obtain ⟨k, rfl⟩ := Simplification.converge_eq_iterate (.inl hg)
  refine ⟨Simplification.wellFormed_iterate_round h.wellFormed k, hnamed, ?_⟩
  intro ρ hroots hdef hx
  obtain ⟨hdef', hvalue⟩ := h.value ρ hroots hdef hx
  obtain ⟨hdef'', hvalue'⟩ :=
    Simplification.exact_refines_iterate_round h.wellFormed k ρ hdef'
  exact ⟨hdef'', hvalue'.trans hvalue⟩

/-- Dividing by the factor of a root hides one more root. -/
theorem Hides.deflate (h : Hides x a b rs f) (hx : NamedConstant.isName x = false) (r : K) :
    Hides x a b (rs ++ [r]) (deflate f x rs.length) := by
  -- the evaluator looks for a named constant before it looks at the bindings
  have hvar {ρ : String → K} {y : String} (hy : NamedConstant.isName y = false) :
      Exact.varValue ρ y = ρ y := by
    have hnone : NamedConstant.ofName? y = none := by simpa [NamedConstant.isName] using hy
    rw [Exact.varValue, hnone, Option.elim_none]
  refine ⟨?_, ?_, ?_⟩
  · simp [Roots.deflate, subtract, negate, h.wellFormed]
  · simpa using h.named.deflate
  · intro ρ hroots hdef hxr
    rw [List.mem_append, not_or, List.mem_singleton] at hxr
    -- the new placeholder is bound to the new root, the others are as before
    have hr : ρ (placeholder rs.length) = r := by
      have hlast := hroots rs.length (by simp)
      simpa using hlast
    have hroots' : ∀ i (hi : i < rs.length), ρ (placeholder i) = rs[i] := by
      intro i hi
      rw [hroots i (by simp; omega), List.getElem_append_left hi]
    obtain ⟨hdef', hvalue⟩ := h.value ρ hroots' hdef hxr.1
    -- the unknown differs from the new root, so the new denominator is not `0`
    have hdenominator : Exact.value ρ (.subtract (.var x) (.var (placeholder rs.length))) =
        ρ x - r := by
      rw [Exact.value_subtract, Exact.value_var, Exact.value_var, hvar hx,
        hvar (isName_placeholder _), hr]
    refine ⟨.quot hdef' (by simp) ?_, ?_⟩
    · rw [hdenominator]
      exact sub_ne_zero.mpr hxr.2
    · rw [Roots.deflate, Exact.value_quot, hvalue, hdenominator, List.map_append, List.prod_append,
        List.map_singleton, List.prod_singleton, div_div]

/-- What the evaluator is given while the function is searched: a value for the unknown, and the
roots so far for their placeholders. -/
def bindings (x : String) (v : K) (rs : List K) : Bindings (Option K) :=
  (x, some v) :: placeholderBindings (rs.map some)

/-- The assignment that the evaluator works with. -/
def assignment (x : String) (v : K) (rs : List K) (y : String) : K :=
  ((bindings x v rs).lookup y).join.getD 0

omit [LinearOrder K] [ExactNumbers K] in
/-- Among the bindings of the search, the unknown comes first. -/
theorem assignment_self : assignment x v rs x = v := by
  simp [assignment, bindings]

omit [Field K] [LinearOrder K] [ExactNumbers K] in
/-- A placeholder is bound to the root that it hides. -/
theorem lookup_bindings_placeholder (hx : IsVariableName x) {i : Nat} (hi : i < rs.length) :
    (bindings x v rs).lookup (placeholder i) = some (some rs[i]) := by
  rw [bindings, List.lookup_cons, beq_eq_false_iff_ne.mpr (placeholder_ne hx i)]
  show (placeholderBindings (rs.map some)).lookup (placeholder i) = _
  rw [lookup_placeholderBindings, List.getElem?_map, List.getElem?_eq_getElem hi, Option.map_some]

omit [LinearOrder K] [ExactNumbers K] in
theorem assignment_placeholder (hx : IsVariableName x) {i : Nat} (hi : i < rs.length) :
    assignment x v rs (placeholder i) = rs[i] := by
  rw [assignment, lookup_bindings_placeholder hx hi]
  rfl

/-- The unknown, the placeholders of the roots and the named constants have the values that the
assignment gives them. -/
theorem binds (hx : IsVariableName x) (hname : NamedConstant.isName x = false)
    (hf : Named x rs.length f) : Exact.Binds (bindings x v rs) (assignment x v rs) f := by
  intro y hy
  obtain hconst | rfl | ⟨i, hi, rfl⟩ := hf y hy
  · exact Exact.value?_of_isName hconst
  · refine Exact.value?_eq_of_lookup hname ?_
    rw [assignment_self, bindings, List.lookup_cons_self]
  · refine Exact.value?_eq_of_lookup (isName_placeholder i) ?_
    rw [assignment_placeholder hx hi, lookup_bindings_placeholder hx hi]

/-- The evaluator finds the difference of both sides, divided by the distances to the roots. -/
theorem Hides.evaluate (h : Hides x a b rs f) (hunknowns : (Expr.eqn a b).unknowns = [x])
    (hx : IsVariableName x) (ha : a.evaluate [(x, some v)] = .ok (some A))
    (hb : b.evaluate [(x, some v)] = .ok (some B)) (hv : v ∉ rs) :
    f.evaluate (bindings x v rs) = .ok (some ((A - B) / (rs.map (v - ·)).prod)) := by
  have hname : NamedConstant.isName x = false :=
    (mem_unknowns.mp (hunknowns ▸ List.mem_singleton_self x)).2
  have side {e : Expr} (he : ∀ y ∈ e.names, y ∈ (eqn a b).names) :
      Exact.Binds [(x, some v)] (assignment x v rs) e := by
    intro y hy
    obtain hconst | rfl := names_of_unknowns hunknowns y (he y hy)
    · exact Exact.value?_of_isName hconst
    · refine Exact.value?_eq_of_lookup hname ?_
      rw [assignment_self, List.lookup_cons_self]
  have hleft : Exact.Binds [(x, some v)] (assignment x v rs) a :=
    side fun y hy => by simp [names, hy]
  have hright : Exact.Binds [(x, some v)] (assignment x v rs) b :=
    side fun y hy => by simp [names, hy]
  obtain ⟨hda, hva⟩ := (hleft.agrees A).mp ha
  obtain ⟨hdb, hvb⟩ := (hright.agrees B).mp hb
  obtain ⟨hdef, hvalue⟩ := h.value (assignment x v rs) (fun i hi => assignment_placeholder hx hi)
    (Exact.Defined.subtract_iff.mpr ⟨hda, hdb⟩) (by rwa [assignment_self])
  refine ((binds hx hname h.named).agrees _).mpr ⟨hdef, ?_⟩
  rw [hvalue, Exact.value_subtract, hva, hvb, assignment_self]

/-! ### Whole searches -/

variable {settings : NewtonSettings (Option K)} {cap : Option Nat} {roots : List (Option K)}

/-- An accepted root is a number, and its absolute value is at most what the settings allow. -/
theorem InRange.eq_some {root : Option K} (h : InRange settings root) :
    ∃ r M, root = some r ∧ settings.maxMagnitude = some M ∧ |r| ≤ M := by
  obtain ⟨y, M, hy, hM, hle⟩ := le_eq_true.mp h
  obtain ⟨r, rfl, -, rfl⟩ := apply_eq_some.mp hy
  exact ⟨r, M, rfl, hM, by rwa [apply_abs] at hle⟩

/-- Whatever function the search has come to, it is the difference of the two sides divided by the
factors of the roots accepted so far. -/
theorem Reached.hides (h : Reached settings cap x a b f roots) (ha : a.WellFormed)
    (hb : b.WellFormed) (hunknowns : (Expr.eqn a b).unknowns = [x]) :
    ∃ rs : List K, roots = rs.map some ∧ Hides x a b rs f := by
  induction h with
  | start h =>
    exact ⟨[], rfl, (Hides.start ha hb hunknowns).simplify (Job.simplify_eq_ok_of_run h)⟩
  | @found f f' g roots root h hderivative hroot hdeflate ih =>
    have hname : NamedConstant.isName x = false :=
      (mem_unknowns.mp (hunknowns ▸ List.mem_singleton_self x)).2
    obtain ⟨rs, rfl, hf⟩ := ih
    obtain ⟨r, -, rfl, -⟩ := ((h.found hderivative hroot hdeflate).inRange root (by simp)).eq_some
    rw [List.length_map] at hdeflate
    exact ⟨rs ++ [r], by simp, (hf.deflate hname r).simplify (Job.simplify_eq_ok_of_run hdeflate)⟩

/-- In order, and each of them once, roots ascend strictly. -/
theorem tidy_map_some (rs : List K) :
    ∃ ss : List K, tidy (rs.map some) = ss.map some ∧ ss.Pairwise (· < ·) ∧
      ∀ r, r ∈ ss ↔ r ∈ rs := by
  have hmem (v : Option K) : v ∈ tidy (rs.map some) ↔ v ∈ rs.map some :=
    (Sorted.mem_dedup eq_of_eq).trans (Sorted.sort_perm _ _).mem_iff
  have hsome : tidy (rs.map some) ∈ Set.range (List.map (some : K → Option K)) := by
    rw [Set.range_list_map]
    intro v hv
    obtain ⟨r, -, rfl⟩ := List.mem_map.mp ((hmem v).mp hv)
    exact ⟨r, rfl⟩
  obtain ⟨ss, hss⟩ := hsome
  rw [← hss] at hmem
  refine ⟨ss, hss.symm, ?_, fun r => by simpa using hmem (some r)⟩
  have hstrict : (ss.map some).Pairwise fun v w : Option K =>
      Arithmetic.totalLE v w = true ∧ v ≠ w := by
    rw [hss]
    refine Sorted.dedup_pairwise eq_of_eq totalLE_antisymm ?_
      (Sorted.sort_pairwise totalLE_trans totalLE_total _)
    intro v hv
    obtain ⟨r, -, rfl⟩ := List.mem_map.mp ((Sorted.sort_perm _ _).mem_iff.mp hv)
    exact ExactNumbers.eq_some.mpr rfl
  rw [List.pairwise_map] at hstrict
  refine hstrict.imp fun {r s} h => ?_
  rw [totalLE_some] at h
  exact lt_of_le_of_ne h.1 fun heq => h.2 (congrArg some heq)

/-- In exact arithmetic, and for an equation in one unknown that is a word: after any number of
accepted roots `r` the function under search, evaluated with the roots for their placeholders, has
the value of `(a - b) / ((x - r) ⋯)` wherever both sides have a value and the unknown is none of the
roots. If the search succeeds, its result are the accepted roots, strictly ascending, and each of
them is at most as large as the settings allow. -/
theorem solve_deflates (settings : NewtonSettings (Option K)) (cap : Option Nat) (ha : a.WellFormed)
    (hb : b.WellFormed) (hunknowns : (Expr.eqn a b).unknowns = [x]) (hx : IsVariableName x) :
    (∀ f roots, Reached settings cap x a b f roots → ∃ rs : List K, roots = rs.map some ∧
      ∀ v A B, a.evaluate [(x, some v)] = .ok (some A) → b.evaluate [(x, some v)] = .ok (some B) →
        v ∉ rs → f.evaluate ((x, some v) :: placeholderBindings roots) =
          .ok (some ((A - B) / (rs.map (v - ·)).prod))) ∧
    ∀ pending result, ((solve settings cap (.eqn a b)).run pending).1 = .ok result →
      ∃ f roots, Reached settings cap x a b f roots ∧
        (Exhausted settings cap x f roots ∨ roots.length = Simplification.unbounded) ∧
        ∃ rs : List K, result = rs.map some ∧ rs.Pairwise (· < ·) ∧
          (∀ r, r ∈ rs ↔ some r ∈ roots) ∧
          ∀ r ∈ rs, ∃ M, settings.maxMagnitude = some M ∧ |r| ≤ M := by
  constructor
  · intro f roots h
    obtain ⟨rs, rfl, hf⟩ := h.hides ha hb hunknowns
    exact ⟨rs, rfl, fun v A B hA hB hv => hf.evaluate hunknowns hx hA hB hv⟩
  · intro pending result hresult
    obtain ⟨f, roots, h, rfl, hend⟩ := Reached.of_solve hunknowns hresult
    obtain ⟨rs, rfl, -⟩ := h.hides ha hb hunknowns
    obtain ⟨ss, hss, hascending, hmem⟩ := tidy_map_some rs
    refine ⟨f, _, h, hend, ss, hss, hascending, fun r => by simpa using hmem r, ?_⟩
    intro r hr
    obtain ⟨r', M, hr', hM, hle⟩ :=
      (h.inRange (some r) (List.mem_map_of_mem ((hmem r).mp hr))).eq_some
    cases hr'
    exact ⟨M, hM, hle⟩

/-- The settings of a search that starts at `1` and takes one step. -/
def oneStep : NewtonSettings (Option ℝ) := ⟨some 1, some 1, some 1, 1, 1, some 1⟩

/-- Where the function is `0` and its slope `1`, a step goes nowhere, so the start is accepted. -/
theorem newton_oneStep {evaluate : Option ℝ → Job (Option ℝ × Option ℝ)}
    (h : (evaluate (some 1)).run false = (.ok (some 0, some 1), false)) :
    (newton oneStep evaluate oneStep.maxIterations ⟨oneStep.seed, none, 0⟩).run false =
      (.ok (some (some 1)), false) := by
  have hquotient : (some 0 / some 1 : Option ℝ) = some 0 := div_eq_some.mpr (by simp)
  have hnext : (some 1 - some 0 : Option ℝ) = some 1 := sub_eq_some.mpr (by simp)
  have hmove : (some 1 - some 1 : Option ℝ) = some 0 := sub_eq_some.mpr (by simp)
  have habs (v : ℝ) : (Arithmetic.apply .abs (some v) : Option ℝ) = some |v| :=
    apply_eq_some.mpr ⟨v, rfl, domain_abs, apply_abs⟩
  have hstep : Run.step oneStep ⟨some 1, none, 0⟩ (some 0) (some 1) =
      .converged ⟨some 1, some (some 0), 0⟩ := by
    have hshort : Arithmetic.lt (some (0 : ℝ)) oneStep.tolerance = true :=
      decide_eq_true zero_lt_one
    simp only [Run.step, hquotient, hnext, hmove, habs, abs_zero, hshort]
    rfl
  have hresult : Run.result? oneStep ⟨some 1, some (some 0), 0⟩ = some (some 1) := by
    have hsmall : Arithmetic.le (some (1 : ℝ)) oneStep.maxMagnitude = true :=
      decide_eq_true le_rfl
    have hshort : Arithmetic.lt (some (0 : ℝ)) oneStep.acceptance = true :=
      decide_eq_true zero_lt_one
    simp [Run.result?, habs, hsmall, hshort]
  show (newton oneStep evaluate 1 ⟨some 1, none, 0⟩).run false = _
  rw [newton, Job.run_bind, h]
  dsimp only
  rw [hstep]
  dsimp only
  rw [hresult]
  rfl

/-- The search for the roots of `x = 1` accepts the root `1`, and the function is
`(x - 1) / (x - 1)` from then on: at `3` it has the value `(3 - 1) / (3 - 1)`. -/
theorem solve_deflates_shift : ∃ g : Expr,
    Reached oneStep none "x" (.var "x") (.num 1) g [some 1] ∧
      g.evaluate (("x", some 3) :: placeholderBindings [some 1]) =
        .ok (some ((3 - 1) / (3 - 1 : ℝ))) := by
  let f : Expr := .sum [.num (-1), .var "x"]
  let g : Expr := .quot f (.sum [.var "x", .prod [.num (-1), .var "_k0"]])
  have hname : NamedConstant.ofName? "x" = none := by decide
  have hx (v : ℝ) : (Expr.var "x").evaluate [("x", some v)] = .ok (some v) := by
    simp [evaluate, Bindings.value?, hname]
  have hnum (n : Int64) (bs : Bindings (Option ℝ)) :
      (Expr.num n).evaluate bs = .ok (some (n.toInt : ℝ)) := by
    simp [evaluate]
  have run_simplify {e e' : Expr} (h : Simplification.simplify none e = .ok e') :
      (Job.simplify none e).run false = (.ok e', false) := by
    rw [Job.run_simplify, h]
    rfl
  -- the search: the difference, its derivative, one step of Newton's method, the deflation
  have hstart : (Job.simplify none (.subtract (.var "x") (.num 1))).run false = (.ok f, false) :=
    run_simplify (by decide)
  have hderivative : (Job.differentiate none f "x").run false = (.ok (.num 1), false) := by
    have hf : (Job.simplify none f).run false = (.ok f, false) := run_simplify (by decide)
    rw [Job.differentiate, Job.run_bind, hf]
    exact run_simplify (by decide)
  have hevaluate : (evaluateAt "x" [] f (.num 1) (some (1 : ℝ))).run false =
      (.ok (some 0, some 1), false) := by
    have hf : f.evaluate [("x", some (1 : ℝ))] = .ok (some 0) := by
      have hsum : (some 0 + some ((-1 : Int64).toInt : ℝ) + some 1 : Option ℝ) = some 0 := by
        rw [show (-1 : Int64).toInt = -1 by decide]
        exact congrArg some (by norm_num)
      rw [evaluate, evaluateAll, evaluateAll, evaluateAll, hnum, hx]
      exact congrArg _ hsum
    have hone : (Expr.num 1).evaluate [("x", some (1 : ℝ))] = .ok (some 1) := by
      simpa [Int64.toInt_one] using hnum 1 _
    have hbindings : (("x", some (1 : ℝ)) :: placeholderBindings []) = [("x", some (1 : ℝ))] := rfl
    simp only [evaluateAt, Job.evaluate, hbindings, hf, hone]
    rfl
  have hdeflate : (Job.simplify none (deflate f "x" 0)).run false = (.ok g, false) :=
    run_simplify (by decide)
  have hreached : Reached oneStep none "x" (.var "x") (.num 1) g [some 1] :=
    .found (.start hstart) hderivative (newton_oneStep hevaluate) hdeflate
  have hword : IsVariableName "x" :=
    ⟨by decide, by simp [Parsing.CharClass.of, Text.isAlphabetic], by decide⟩
  refine ⟨g, hreached, ?_⟩
  obtain ⟨hvalues, -⟩ := solve_deflates oneStep none (a := .var "x") (b := .num 1) (x := "x")
    (.var "x") (.num 1) (by decide) hword
  obtain ⟨rs, hrs, hvalue⟩ := hvalues g _ hreached
  obtain rfl : [1] = rs := List.map_injective_iff.mpr (Option.some_injective ℝ) hrs
  have h := hvalue 3 3 1 (hx 3) (by simpa [Int64.toInt_one] using hnum 1 _) (by simp)
  simpa using h

end Exact

end Roots

end ComputerAlgebra
