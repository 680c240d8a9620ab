import ComputerAlgebra.Proofs.Expr.Operands

/-!
# Checked construction of trees

A sum and a product must have at least two operands. The constructors here check that, and build
nothing if the check fails. An operation whose every sum and product comes from them can be compared
with the operation that builds its trees unchecked: where they agree, no check fails.
-/

namespace ComputerAlgebra

namespace Checked

open ComputerAlgebra.Expr

variable {a b e e' : Expr} {es : List Expr} {made : Option Expr} {next : Expr → Option Expr}

/-- A sum, if there are two addends at least. -/
def sum (es : List Expr) : Option Expr := if 2 ≤ es.length then some (.sum es) else none

/-- A product, if there are two factors at least. -/
def prod (es : List Expr) : Option Expr := if 2 ≤ es.length then some (.prod es) else none

/-- The sum of any number of addends. -/
def sumOf : List Expr → Option Expr
  | [] => some 0
  | [e] => some e
  | es => sum es

/-- The product of any number of factors. -/
def prodOf : List Expr → Option Expr
  | [] => some 0
  | [e] => some e
  | es => prod es

/-- The negative of an expression. -/
def negate (e : Expr) : Option Expr := prod [.num (-1), e]

/-- A difference. -/
def subtract (a b : Expr) : Option Expr := do sum [a, ← negate b]

mutual

/-- Apply a rule to every node, children before parents. The node that the rule is given over
finished operands only holds its parts; to build it is up to the rule. -/
def bottomUp (rule : Expr → Option Expr) : Expr → Option Expr
  | .var x => rule (.var x)
  | .num n => rule (.num n)
  | .sum es => do rule (.sum (← bottomUpAll rule es))
  | .prod es => do rule (.prod (← bottomUpAll rule es))
  | .quot a b => do rule (.quot (← bottomUp rule a) (← bottomUp rule b))
  | .pow a b => do rule (.pow (← bottomUp rule a) (← bottomUp rule b))
  | .app f a => do rule (.app f (← bottomUp rule a))
  | .eqn a b => do rule (.eqn (← bottomUp rule a) (← bottomUp rule b))

/-- Apply a rule to every node of each expression of a list. -/
def bottomUpAll (rule : Expr → Option Expr) : List Expr → Option (List Expr)
  | [] => some []
  | e :: es => do return (← bottomUp rule e) :: (← bottomUpAll rule es)

end

/-- If a rule succeeds on each of several trees, it succeeds on all of them. -/
theorem bottomUpAll_eq_some {rule : Expr → Option Expr} {f : Expr → Expr}
    (h : ∀ e ∈ es, bottomUp rule e = some (f e)) : bottomUpAll rule es = some (es.map f) := by
  induction es with
  | nil => rfl
  | cons e es ih =>
    rw [List.forall_mem_cons] at h
    rw [bottomUpAll, h.1, ih h.2]
    rfl

/-- The checked construction of a tree succeeds, and the tree is well formed. -/
structure Builds (made : Option Expr) (e : Expr) : Prop where
  eq_some : made = some e
  wellFormed : e.WellFormed

namespace Builds

/-- A well-formed tree needs no check. -/
theorem of_wellFormed (h : e.WellFormed) : Builds (some e) e := ⟨rfl, h⟩

theorem bind (h : Builds made e) (hnext : Builds (next e) e') : Builds (made >>= next) e' := by
  rw [h.eq_some]
  exact hnext

/-- The check of a sum succeeds if there are two addends. -/
theorem sum (hlen : 2 ≤ es.length) (h : ∀ e ∈ es, e.WellFormed) :
    Builds (Checked.sum es) (.sum es) :=
  ⟨if_pos hlen, .sum hlen h⟩

/-- The check of a product succeeds if there are two factors. -/
theorem prod (hlen : 2 ≤ es.length) (h : ∀ e ∈ es, e.WellFormed) :
    Builds (Checked.prod es) (.prod es) :=
  ⟨if_pos hlen, .prod hlen h⟩

theorem sumOf (h : ∀ e ∈ es, e.WellFormed) : Builds (Checked.sumOf es) (.sumOf es) := by
  refine ⟨?_, .sumOf h⟩
  match es with
  | [] | [_] | _ :: _ :: _ => simp [Checked.sumOf, Checked.sum, Expr.sumOf]

theorem prodOf (h : ∀ e ∈ es, e.WellFormed) : Builds (Checked.prodOf es) (.prodOf es) := by
  refine ⟨?_, .prodOf h⟩
  match es with
  | [] | [_] | _ :: _ :: _ => simp [Checked.prodOf, Checked.prod, Expr.prodOf]

theorem prod_pair (ha : a.WellFormed) (hb : b.WellFormed) :
    Builds (Checked.prod [a, b]) (.prod [a, b]) :=
  prod le_rfl (by simp [ha, hb])

theorem sum_pair (ha : a.WellFormed) (hb : b.WellFormed) :
    Builds (Checked.sum [a, b]) (.sum [a, b]) :=
  sum le_rfl (by simp [ha, hb])

theorem negate (h : e.WellFormed) : Builds (Checked.negate e) (.negate e) :=
  prod_pair (.num _) h

theorem subtract (ha : a.WellFormed) (hb : b.WellFormed) :
    Builds (Checked.subtract a b) (.subtract a b) :=
  (negate hb).bind (sum_pair ha (negate hb).wellFormed)

/-- A rule whose checks succeed on well-formed nodes succeeds on well-formed trees. -/
theorem bottomUp {rule : Expr → Expr} {rule' : Expr → Option Expr}
    (hrule : ∀ e, e.WellFormed → Builds (rule' e) (rule e)) (h : e.WellFormed) :
    Builds (Checked.bottomUp rule' e) (e.bottomUp rule) := by
  have hwf : ∀ e, e.WellFormed → (rule e).WellFormed := fun e he => (hrule e he).wellFormed
  have hmap {es : List Expr} (h : ∀ e ∈ es, e.WellFormed) :
      ∀ e ∈ es.map (Expr.bottomUp rule), e.WellFormed :=
    List.forall_mem_map.2 fun e he => (h e he).bottomUp hwf
  induction h with
  | var x => simpa [Checked.bottomUp] using hrule _ (.var x)
  | num n => simpa [Checked.bottomUp] using hrule _ (.num n)
  | sum hlen h ih =>
    rw [Checked.bottomUp, bottomUpAll_eq_some fun e he => (ih e he).eq_some, bottomUp_sum]
    exact hrule _ (.sum (by simpa using hlen) (hmap h))
  | prod hlen h ih =>
    rw [Checked.bottomUp, bottomUpAll_eq_some fun e he => (ih e he).eq_some, bottomUp_prod]
    exact hrule _ (.prod (by simpa using hlen) (hmap h))
  | quot _ _ iha ihb =>
    rw [Checked.bottomUp, bottomUp_quot]
    exact iha.bind (ihb.bind (hrule _ (.quot iha.wellFormed ihb.wellFormed)))
  | pow _ _ iha ihb =>
    rw [Checked.bottomUp, bottomUp_pow]
    exact iha.bind (ihb.bind (hrule _ (.pow iha.wellFormed ihb.wellFormed)))
  | app f _ iha =>
    rw [Checked.bottomUp, bottomUp_app]
    exact iha.bind (hrule _ (.app f iha.wellFormed))
  | eqn _ _ iha ihb =>
    rw [Checked.bottomUp, bottomUp_eqn]
    exact iha.bind (ihb.bind (hrule _ (.eqn iha.wellFormed ihb.wellFormed)))

end Builds

end Checked

end ComputerAlgebra
