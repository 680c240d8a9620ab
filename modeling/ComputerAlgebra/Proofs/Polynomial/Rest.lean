import ComputerAlgebra.Proofs.Polynomial.Degree
import ComputerAlgebra.Proofs.Vanishing.Lawful

/-!
# Polynomials at rest

An `Entire` tree is a polynomial by its shape and has values everywhere. If it is at rest, its
exponents are integers or do not fit into 64 bits (`Graded`), and in the latter case a bound on its
degree leaves only constants as bases. No round changes anything in it (`Entire.inert`).
-/

namespace ComputerAlgebra

namespace Simplification

open ComputerAlgebra.Expr Magnitude

variable {x : String} {d : ℕ∞} {ρ : String → ℝ} {a b e e' : Expr} {es : List Expr}

/-! ### Entire trees -/

/-- Polynomials by their shape, of at most the given degree, that are defined everywhere. -/
structure Entire (x : String) (d : ℕ∞) (e : Expr) : Prop where
  defined : ∀ ρ, e.Defined ρ
  functionFree : e.FunctionFree
  degree_le : degree x Whole e ≤ d

/-- A whole number is entire, of any degree. -/
theorem entire_of_whole (h : Whole e) : Entire x d e :=
  ⟨fun ρ => exact_defined_iff.1 (h.value ρ).1, h.functionFree, h.degree_eq_zero.trans_le zero_le⟩

namespace Entire

/-- The denominators of an entire tree of finite degree are constants other than `0`. -/
theorem denominator (h : Entire x d (.quot a b)) (hd : d ≠ ⊤) :
    degree x Whole b = 0 ∧ ∀ ρ, b.real ρ ≠ 0 :=
  ⟨(denominator_of_degree (ne_top_of_le_ne_top hd h.degree_le)).1,
    fun ρ => (Defined.quot_iff.1 (h.defined ρ)).2.2⟩

theorem exponent (h : Entire x d (.pow a b)) (hd : d ≠ ⊤) : Whole b :=
  exponent_of_degree (ne_top_of_le_ne_top hd h.degree_le)

theorem operand (h : Entire x d e) (hd : d ≠ ⊤) (he' : e' ∈ e.operands) : Entire x d e' := by
  have hfree := h.functionFree.operand he'
  cases e with
  | sum es =>
    exact ⟨fun ρ => Defined.sum_iff.1 (h.defined ρ) e' he', hfree,
      (degree_le_sum he').trans h.degree_le⟩
  | prod es =>
    exact ⟨fun ρ => Defined.prod_iff.1 (h.defined ρ) e' he', hfree,
      (degree_le_prod he').trans h.degree_le⟩
  | quot a b =>
    rcases List.mem_pair.1 he' with rfl | rfl
    · exact ⟨fun ρ => (Defined.quot_iff.1 (h.defined ρ)).1, hfree,
        (degree_le_quot _ _).trans h.degree_le⟩
    · exact ⟨fun ρ => (Defined.quot_iff.1 (h.defined ρ)).2.1, hfree,
        (h.denominator hd).1.trans_le zero_le⟩
  | pow a b =>
    have hb := h.exponent hd
    rcases List.mem_pair.1 he' with rfl | rfl
    · refine ⟨fun ρ => (Defined.pow_iff.1 (h.defined ρ)).1, hfree, le_trans ?_ h.degree_le⟩
      rw [degree_pow hb, hb.factorCount]
      exact le_mul_of_one_le_right' (by exact_mod_cast hb.one_le)
    · exact entire_of_whole hb
  | app f u => exact absurd rfl (h.functionFree.root f u)
  | eqn a b => exact absurd (h.defined fun _ => 0) Defined.not_eqn
  | _ => cases he'

/-- Everywhere in it, an entire tree of finite degree is entire. -/
theorem everywhere (h : Entire x d e) (hd : d ≠ ⊤) : Everywhere (Entire x d) e := by
  induction e using operands_induct with
  | node e ih => exact .node h fun e' he' => ih e' he' (h.operand hd he')

theorem lawful (h : Entire x d e) (hd : d ≠ ⊤) (hwf : e.WellFormed) : Lawful ρ e := by
  induction e using operands_induct with
  | node e ih =>
    have hops e' (he' : e' ∈ e.operands) : Lawful ρ e' :=
      ih e' he' (h.operand hd he') (hwf.of_mem_operands he')
    cases e with
    | var y => exact .var y
    | num n => exact .num n
    | sum es => exact .sum hops
    | prod es =>
      exact .prod (List.ne_nil_of_length_pos (by have := (WellFormed.prod_iff.1 hwf).1; omega)) hops
    | quot a b =>
      exact .quot (hops a (by simp [operands])) (hops b (by simp [operands]))
        ((h.denominator hd).2 ρ)
    | pow a b => exact .pow (hops a (by simp [operands])) (h.exponent hd)
    | app f u => exact absurd rfl (h.functionFree.root f u)
    | eqn a b => exact absurd (h.defined ρ) Defined.not_eqn

end Entire

/-! ### Exponents -/

/-- The exponent is a positive integer, or the base is a constant. -/
def Graded (x : String) : Expr → Prop
  | .pow a b => (∃ n : Int64, 0 < n.toInt ∧ b = .num n) ∨ degree x Whole a = 0 ∧ Whole b
  | _ => True

/-- The exponent is a literal integer. -/
def LiteralExponent : Expr → Prop
  | .pow _ b => ∃ n, b = .num n
  | _ => True

instance : DecidablePred LiteralExponent := fun e =>
  match e with
  | .pow _ b =>
    decidable_of_iff (b.num?.isSome = true) (by cases b <;> simp [LiteralExponent, num?])
  | .var _ | .num _ | .sum _ | .prod _ | .quot _ _ | .app _ _ | .eqn _ _ => isTrue trivial

/-- With literal exponents, an entire tree of finite degree is graded. -/
theorem Entire.graded_of_literal (h : Entire x d e) (hd : d ≠ ⊤)
    (hlit : Everywhere LiteralExponent e) : Everywhere (Graded x) e := by
  refine ((h.everywhere hd).and hlit).imp ?_
  rintro e ⟨hentire, hlit⟩
  cases e with
  | pow a b =>
    obtain ⟨n, rfl⟩ := hlit
    exact .inl ⟨n, Whole.num_iff.1 (hentire.exponent hd), rfl⟩
  | _ => trivial

/-- What is in a tree that the passes leave alone is left alone by them. -/
theorem Resting.everywhere (h : Resting e) : Everywhere Resting e := by
  induction e using operands_induct with
  | node e ih => exact .node h fun e' he' => ih e' he' (h.operand he')

/-- At rest, an exponent that is no integer does not fit into 64 bits. -/
theorem Entire.exponent_of_resting (h : Entire x d (.pow a b)) (hd : d ≠ ⊤)
    (hrest : Resting (.pow a b)) :
    (∃ n : Int64, 0 < n.toInt ∧ b = .num n) ∨ Vast b := by
  by_cases hvast : Vast b
  · exact .inr hvast
  · exact .inl ((hrest.operand (by simp [operands])).eq_num (h.exponent hd) hvast)

/-- At rest, an entire tree is graded if its degree fits into 64 bits. -/
theorem Entire.graded_of_resting (h : Entire x d e) (hd : d < 2 ^ 63) (hrest : Resting e) :
    Everywhere (Graded x) e := by
  refine ((h.everywhere hd.ne_top).and hrest.everywhere).imp ?_
  rintro e ⟨hentire, hrest⟩
  cases e with
  | pow a b =>
    rcases hentire.exponent_of_resting hd.ne_top hrest with hlit | hvast
    · exact .inl hlit
    · refine .inr ⟨by_contra fun ha => ?_, hvast.1⟩
      have hle := hentire.degree_le
      rw [degree_pow hvast.1, hvast.1.factorCount] at hle
      have hone : 1 ≤ degree x Whole a := Order.one_le_iff_ne_zero.2 ha
      have hnum : (2 ^ 63 : ℕ∞) ≤ b.magnitude.num := by exact_mod_cast hvast.2
      exact (hd.trans_le (hnum.trans (le_mul_of_one_le_left' hone))).not_ge hle
  | _ => trivial

/-- At rest, an entire tree divides by no literal `0` and has no powers of it but vast ones. -/
theorem Entire.grounded (h : Entire x d e) (hd : d ≠ ⊤) (hrest : Resting e) :
    Everywhere Grounded e := by
  refine ((h.everywhere hd).and hrest.everywhere).imp ?_
  rintro e ⟨hentire, hrest⟩
  cases e with
  | quot a b =>
    rintro rfl
    exact (hentire.denominator hd).2 (fun _ => 0) real_zero
  | pow a b =>
    rcases hentire.exponent_of_resting hd hrest with ⟨n, hn, rfl⟩ | hvast
    · refine .inl ?_
      rintro rfl
      have hrule := hrest.identities.root
      rw [Identities.rule, Identities.power_zero hn] at hrule
      cases hrule
    · exact .inr hvast
  | _ => trivial

/-! ### Fixed points of rounds -/

/-- An entire tree that can be stored and that no round changes is inert, and its exponents are
integers unless their bases are constants. -/
theorem Entire.inert (h : Entire x d e) (hd : d < 2 ^ 63) (hfix : round e = e)
    (hnodes : e.nodeCount < 2 ^ 63) : Inert e ∧ Everywhere (Graded x) e := by
  obtain ⟨hprep, -, hcollect, -⟩ := prepared_of_fewOnes hfix <|
    everywhere_fewOnes ((nodeCount_flatten_le e).trans_lt hnodes)
  have hrest : Resting e := ⟨hprep, hcollect⟩
  have hfree : Everywhere (fun e => e.isEquation = false) e :=
    (h.everywhere hd.ne_top).imp fun e he => by
    cases e with
    | eqn a b => exact absurd (he.defined fun _ => 0) Defined.not_eqn
    | _ => rfl
  exact ⟨inert_of_round hfix hnodes (h.grounded hd.ne_top hrest) hfree,
    h.graded_of_resting hd hrest⟩

end Simplification

end ComputerAlgebra
