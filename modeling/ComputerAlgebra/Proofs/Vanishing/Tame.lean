import ComputerAlgebra.Proofs.Vanishing.Inert

/-!
# Trees that vanish

`Vanishing` trees are `0` by their shape, as are the sum of vanishing addends and the product with a
vanishing factor. `Solid` trees stay other than `0`, whatever rounds make of them. In a `Tame` tree
all denominators are solid, and so are all bases, unless their exponents count how often a factor
was met. So the passes never make `0 / 0` of a tame tree that vanishes.

How many zeros a tree holds, with those exponents, is its `zeroCount`. It bounds the exponents.
-/

namespace ComputerAlgebra

namespace Simplification

open ComputerAlgebra.Expr Magnitude

variable {a b e e' e'' u : Expr} {es : List Expr} {f : Func}

/-! ### Inert trees -/

/-- Numbers are inert. -/
theorem inert_num (n : Int64) : Inert (.num n) :=
  .node ⟨.num n, trivial, rfl, rfl, rfl, rfl, rfl, trivial, rfl⟩ (by simp [operands])

namespace Inert

/-- Passes whose rules leave nodes at rest alone leave inert trees alone. -/
theorem bottomUp_eq_self {rule : Expr → Expr} (h : Inert e) (hrule : ∀ e, Still e → rule e = e) :
    e.bottomUp rule = e :=
  (h.imp hrule).bottomUp_eq_self

theorem two_le_length (h : Inert (.sum es)) : 2 ≤ es.length :=
  (WellFormed.sum_iff.1 h.root.wellFormed).1

theorem factors_ne_nil (h : Inert (.prod es)) : es ≠ [] := by
  have hlen := (WellFormed.prod_iff.1 h.root.wellFormed).1
  exact List.ne_nil_of_length_pos (by omega)

/-- No factor of an inert product is `0`. -/
theorem ne_zero_of_mem (h : Inert (.prod es)) (he : e ∈ es) : e ≠ 0 := by
  rintro rfl
  exact noIdentity_of_rule h.root.identities he

/-- No numerator of an inert quotient is `0`. -/
theorem numerator (h : Inert (.quot a b)) : Inert a ∧ a ≠ 0 :=
  ⟨h.operand (by simp [operands]), fun ha =>
    h.root.grounded ((noIdentity_of_rule h.root.identities).2.1 ha)⟩

theorem denominator (h : Inert (.quot a b)) : Inert b ∧ b ≠ 0 :=
  ⟨h.operand (by simp [operands]), h.root.grounded⟩

/-- The base of an inert power is inert, and not `0` unless the exponent does not fit. -/
theorem base (h : Inert (.pow a b)) : Inert a ∧ (a ≠ 0 ∨ Vast b) :=
  ⟨h.operand (by simp [operands]), h.root.grounded⟩

/-- No function in an inert tree is at a point with a special value. -/
theorem valueAt?_eq_none (h : Inert (.app f u)) : Identities.valueAt? f u = none := by
  have hrule := h.root.identities
  rw [Identities.rule] at hrule
  cases hv : Identities.valueAt? f u with
  | none => rfl
  | some v =>
    rw [hv] at hrule
    cases hrule

theorem not_eqn (h : Inert (.eqn a b)) : False := by
  cases h.root.noEquation

end Inert

/-! ### Counting exponents -/

/-- Sums of positive integers, as collecting writes them. -/
inductive Counting : Expr → Prop where
  | num {n : Int64} (h : 0 < n.toInt) : Counting (.num n)
  | sum {es : List Expr} (hlen : 2 ≤ es.length) (h : ∀ e ∈ es, Counting e) : Counting (.sum es)

namespace Counting

theorem one : Counting 1 := .num (by simp)

theorem sumOf (hne : es ≠ []) (h : ∀ e ∈ es, Counting e) : Counting (.sumOf es) := by
  match es, hne with
  | [e], _ => exact h e List.mem_cons_self
  | e :: e' :: es, _ => exact .sum (by simp) h

/-- What counts factors is a whole number. -/
theorem whole (h : Counting e) : Whole e := by
  induction h with
  | num h => exact .num h
  | sum hlen _ ih => exact .sum hlen ih

theorem one_le (h : Counting e) : 1 ≤ e.magnitude.num := h.whole.one_le

end Counting

/-! ### Vanishing trees -/

/-- Trees that are `0` by their shape. -/
inductive Vanishing : Expr → Prop where
  | zero : Vanishing 0
  | sum {es : List Expr} (hne : es ≠ []) (h : ∀ e ∈ es, Vanishing e) : Vanishing (.sum es)
  | prod {e : Expr} {es : List Expr} (he : e ∈ es) (h : Vanishing e) : Vanishing (.prod es)
  | quot {a : Expr} (b : Expr) (h : Vanishing a) : Vanishing (.quot a b)
  | pow {a b : Expr} (h : Vanishing a) (hb : Counting b) (h0 : a = 0 → ¬Vast b) :
      Vanishing (.pow a b)

namespace Vanishing

theorem num_iff {n : Int64} : Vanishing (.num n) ↔ n = 0 :=
  ⟨fun | .zero => rfl, by rintro rfl; exact .zero⟩

/-- A sum vanishes if all of its addends do, and there are some. -/
theorem sum_iff : Vanishing (.sum es) ↔ es ≠ [] ∧ ∀ e ∈ es, Vanishing e :=
  ⟨fun | .sum hne h => ⟨hne, h⟩, fun ⟨hne, h⟩ => .sum hne h⟩

/-- A product vanishes if one of its factors does. -/
theorem prod_iff : Vanishing (.prod es) ↔ ∃ e ∈ es, Vanishing e :=
  ⟨fun | .prod he h => ⟨_, he, h⟩, fun ⟨_, he, h⟩ => .prod he h⟩

theorem quot_iff : Vanishing (.quot a b) ↔ Vanishing a :=
  ⟨fun | .quot _ h => h, .quot b⟩

/-- A power vanishes if its base does and its exponent counts, except for powers of `0` that are too
large to evaluate. -/
theorem pow_iff : Vanishing (.pow a b) ↔ Vanishing a ∧ Counting b ∧ (a = 0 → ¬Vast b) :=
  ⟨fun | .pow h hb h0 => ⟨h, hb, h0⟩, fun ⟨h, hb, h0⟩ => .pow h hb h0⟩

theorem sumOf (h : ∀ e ∈ es, Vanishing e) : Vanishing (.sumOf es) := by
  match es with
  | [] => exact zero
  | [e] => exact h e List.mem_cons_self
  | e :: e' :: es => exact .sum (by simp) h

theorem prodOf (he : e ∈ es) (h : Vanishing e) : Vanishing (.prodOf es) := by
  match es with
  | [e'] => rwa [Expr.prodOf, ← List.mem_singleton.1 he]
  | e :: e' :: es => exact .prod he h

end Vanishing

/-- No inert tree but `0` vanishes. -/
theorem Inert.eq_zero (h : Inert e) (hv : Vanishing e) : e = 0 := by
  induction hv with
  | zero => rfl
  | @sum es hne _ ih =>
    match es, h.two_le_length with
    | e :: e' :: es, _ =>
      have he := ih e (by simp) (h.operand (by simp [operands]))
      have he' := ih e' (by simp) (h.operand (by simp [operands]))
      have hdistinct := h.root.distinct
      rw [he, he'] at hdistinct
      simp [Distinct, Collect.termAndCoefficient] at hdistinct
  | prod he _ ih => exact absurd (ih (h.operand he)) (h.ne_zero_of_mem he)
  | quot b _ ih => exact absurd (ih h.numerator.1) h.numerator.2
  | pow _ _ h0 ih =>
    have hzero := ih h.base.1
    exact h.base.2.elim (absurd hzero) fun hb => absurd hb (h0 hzero)

/-! ### Solid trees -/

/-- Trees that stay other than `0`. Powers of `0` are among them if their exponents do not fit into
64 bits: no rule evaluates them. -/
inductive Solid : Expr → Prop where
  | inert {e : Expr} (h : Inert e) (hne : e ≠ 0) : Solid e
  | app {f : Func} {u : Expr} (h : Inert u) (hvalue : Identities.valueAt? f u ≠ some 0) :
      Solid (.app f u)
  | prod {es : List Expr} (hne : es ≠ []) (h : ∀ e ∈ es, Solid e) : Solid (.prod es)
  | quot {a b : Expr} (ha : Solid a) (hb : Solid b) : Solid (.quot a b)
  | pow {a : Expr} (b : Expr) (ha : Solid a) : Solid (.pow a b)
  | vast {b : Expr} (hb : Vast b) : Solid (.pow 0 b)

namespace Solid

theorem one : Solid 1 := .inert (inert_num 1) (by decide)

theorem num {n : Int64} (h : n ≠ 0) : Solid (.num n) :=
  .inert (inert_num n) fun h0 => h (Expr.num.inj h0)

/-- What is solid is not `0`. -/
theorem ne_zero (h : Solid e) : e ≠ 0 := by
  cases h with
  | inert _ hne => exact hne
  | _ => nofun

theorem of_mem (h : Solid (.prod es)) (he : e ∈ es) : Solid e := by
  cases h with
  | inert h _ => exact .inert (h.operand he) (h.ne_zero_of_mem he)
  | prod _ h => exact h e he

theorem factors_ne_nil (h : Solid (.prod es)) : es ≠ [] := by
  cases h with
  | inert h _ => exact h.factors_ne_nil
  | prod hne _ => exact hne

theorem numerator (h : Solid (.quot a b)) : Solid a := by
  cases h with
  | inert h _ => exact .inert h.numerator.1 h.numerator.2
  | quot ha _ => exact ha

theorem denominator (h : Solid (.quot a b)) : Solid b := by
  cases h with
  | inert h _ => exact .inert h.denominator.1 h.denominator.2
  | quot _ hb => exact hb

/-- The base of a solid power is solid, or `0` under an exponent that does not fit. -/
theorem base (h : Solid (.pow a b)) : Solid a ∨ a = 0 ∧ Vast b := by
  cases h with
  | inert h _ =>
    by_cases ha : a = 0
    · exact .inr ⟨ha, h.base.2.resolve_left (absurd ha)⟩
    · exact .inl (.inert h.base.1 ha)
  | pow _ ha => exact .inl ha
  | vast hb => exact .inr ⟨rfl, hb⟩

theorem argument (h : Solid (.app f u)) : Inert u ∧ Identities.valueAt? f u ≠ some 0 := by
  cases h with
  | inert h _ =>
    exact ⟨h.operand (by simp [operands]), by rw [h.valueAt?_eq_none]; nofun⟩
  | app h hvalue => exact ⟨h, hvalue⟩

theorem inert_sum (h : Solid (.sum es)) : Inert (.sum es) := by
  cases h with
  | inert h _ => exact h

theorem prodOf (hne : es ≠ []) (h : ∀ e ∈ es, Solid e) : Solid (.prodOf es) := by
  match es, hne with
  | [e], _ => exact h e List.mem_cons_self
  | e :: e' :: es, _ => exact .prod (by simp) h

/-- What is solid does not vanish. -/
theorem not_vanishing (h : Solid e) : ¬Vanishing e := by
  induction h with
  | inert h hne => exact fun hv => hne (h.eq_zero hv)
  | app h hvalue => nofun
  | prod hne _ ih =>
    rintro hv
    obtain ⟨e, he, hv⟩ := Vanishing.prod_iff.1 hv
    exact ih e he hv
  | quot _ _ iha _ => exact fun hv => iha (Vanishing.quot_iff.1 hv)
  | pow b _ ih => exact fun hv => ih (Vanishing.pow_iff.1 hv).1
  | vast hb => exact fun hv => (Vanishing.pow_iff.1 hv).2.2 rfl hb

/-- Passes whose rules keep nodes solid keep trees solid. -/
theorem bottomUp {rule : Expr → Expr} (hstill : ∀ e, Still e → rule e = e)
    (hwhole : KeepsWhole rule) (hrule : ∀ e, Solid e → Solid (rule e)) (h : Solid e) :
    Solid (e.bottomUp rule) := by
  induction h with
  | inert h hne =>
    rw [h.bottomUp_eq_self hstill]
    exact .inert h hne
  | app h hvalue =>
    rw [bottomUp_app, h.bottomUp_eq_self hstill]
    exact hrule _ (.app h hvalue)
  | prod hne _ ih =>
    rw [bottomUp_prod]
    exact hrule _ (.prod (by simpa using hne) (List.forall_mem_map.2 ih))
  | quot _ _ iha ihb =>
    rw [bottomUp_quot]
    exact hrule _ (.quot iha ihb)
  | pow b _ ih =>
    rw [bottomUp_pow]
    exact hrule _ (.pow _ ih)
  | vast hb =>
    have hzero : (0 : Expr).bottomUp rule = 0 := (inert_num 0).bottomUp_eq_self hstill
    rw [bottomUp_pow, hzero]
    exact hrule _ (.vast (hb.bottomUp hwhole))

end Solid

/-! ### Tame trees -/

/-- How far a round has come. -/
inductive Stage where
  /-- A derivative that was not simplified yet. -/
  | raw
  | live
  /-- Like terms have been collected, and the numbers not been added yet. -/
  | collected
  deriving DecidableEq

/-- The exponents of bases that need not be solid. -/
def Stage.Exponent : Stage → Expr → Prop
  | raw, _ => False
  | live, b => ∃ n : Int64, 0 < n.toInt ∧ b = .num n
  | collected, b => Counting b

/-- At every stage, exponents count factors. -/
theorem Stage.Exponent.counting {σ : Stage} (h : σ.Exponent b) : Counting b := by
  cases σ with
  | raw => exact h.elim
  | live =>
    obtain ⟨n, hn, rfl⟩ := h
    exact .num hn
  | collected => exact h

variable {σ τ : Stage}

/-- Trees of which the passes make no quotient of zeros. At first there may be products with a
factor `0` and any other factors. -/
inductive Tame : Stage → Expr → Prop where
  | zero {σ : Stage} : Tame σ 0
  | solid {σ : Stage} {e : Expr} (h : Solid e) : Tame σ e
  | sum {σ : Stage} {es : List Expr} (hlen : 2 ≤ es.length) (h : ∀ e ∈ es, Tame σ e) :
      Tame σ (.sum es)
  | prod {σ : Stage} {es : List Expr} (hne : es ≠ []) (h : ∀ e ∈ es, Tame σ e) : Tame σ (.prod es)
  | quot {σ : Stage} {a b : Expr} (ha : Tame σ a) (hb : Solid b) : Tame σ (.quot a b)
  | pow {σ : Stage} {a b : Expr} (ha : Tame σ a) (hb : σ.Exponent b) : Tame σ (.pow a b)
  | dead {es : List Expr} (h : 0 ∈ es) : Tame .raw (.prod es)

/-- Inert trees are tame, as `0` or as solid trees. -/
theorem Inert.tame (h : Inert e) : Tame σ e := by
  by_cases h0 : e = 0
  · rw [h0]
    exact .zero
  · exact .solid (.inert h h0)

namespace Tame

theorem num (n : Int64) : Tame σ (.num n) := (inert_num n).tame

theorem addends (h : Tame σ (.sum es)) : 2 ≤ es.length ∧ ∀ e ∈ es, Tame σ e := by
  cases h with
  | solid h => exact ⟨h.inert_sum.two_le_length, fun e he => Inert.tame (h.inert_sum.operand he)⟩
  | sum hlen h => exact ⟨hlen, h⟩

/-- The factors of a tame product are tame, unless one of them is `0` in a raw tree. -/
theorem factors (h : Tame σ (.prod es)) :
    (es ≠ [] ∧ ∀ e ∈ es, Tame σ e) ∨ σ = .raw ∧ 0 ∈ es := by
  cases h with
  | solid h => exact .inl ⟨h.factors_ne_nil, fun e he => .solid (h.of_mem he)⟩
  | prod hne h => exact .inl ⟨hne, h⟩
  | dead h => exact .inr ⟨rfl, h⟩

theorem factors_of_ne_raw (h : Tame σ (.prod es)) (hσ : σ ≠ .raw) :
    es ≠ [] ∧ ∀ e ∈ es, Tame σ e :=
  h.factors.resolve_right fun h0 => hσ h0.1

theorem sides (h : Tame σ (.quot a b)) : Tame σ a ∧ Solid b := by
  cases h with
  | solid h => exact ⟨.solid h.numerator, h.denominator⟩
  | quot ha hb => exact ⟨ha, hb⟩

/-- A tame power is solid, or its base is tame and its exponent counts. -/
theorem base (h : Tame σ (.pow a b)) : Solid (.pow a b) ∨ Tame σ a ∧ σ.Exponent b := by
  cases h with
  | solid h => exact .inl h
  | pow ha hb => exact .inr ⟨ha, hb⟩

theorem tame_base (h : Tame σ (.pow a b)) : Tame σ a := by
  rcases h.base with hs | ⟨ha, -⟩
  · rcases hs.base with ha | ⟨rfl, -⟩
    · exact .solid ha
    · exact .zero
  · exact ha

theorem argument (h : Tame σ (.app f u)) : Inert u ∧ Identities.valueAt? f u ≠ some 0 := by
  cases h with
  | solid h => exact h.argument

theorem inert_var {x : String} (h : Tame σ (.var x)) : Inert (.var x) := by
  cases h with
  | solid h =>
    cases h with
    | inert h _ => exact h

theorem not_eqn (h : Tame σ (.eqn a b)) : False := by
  cases h with
  | solid h =>
    cases h with
    | inert h _ => exact h.not_eqn

theorem sumOf (h : ∀ e ∈ es, Tame σ e) : Tame σ (.sumOf es) := by
  match es with
  | [] => exact zero
  | [e] => exact h e List.mem_cons_self
  | e :: e' :: es => exact .sum (by simp) h

theorem prodOf (h : ∀ e ∈ es, Tame σ e) : Tame σ (.prodOf es) := by
  match es with
  | [] => exact zero
  | [e] => exact h e List.mem_cons_self
  | e :: e' :: es => exact .prod (by simp) h

end Tame

/-! ### The number of zeros -/

section

open scoped Classical

mutual

/-- The number of zeros in a tree, each counted twice. A power of a base that is not solid counts as
the product it abbreviates, and an addend counts at least once, because collecting may make it a
coefficient. -/
noncomputable def zeroCount : Expr → ℕ
  | .num n => if n = 0 then 2 else 0
  | .sum es => ((zeroCounts es).map (max 1)).sum
  | .prod es => (zeroCounts es).sum
  | .quot a b => zeroCount a + zeroCount b
  | .pow a b => if Solid (.pow a b) then zeroCount a else zeroCount a * b.magnitude.num
  | .var _ => 0
  | .app _ _ => 0
  | .eqn _ _ => 0

/-- The numbers of zeros in several trees. -/
noncomputable def zeroCounts : List Expr → List ℕ
  | [] => []
  | e :: es => zeroCount e :: zeroCounts es

end

theorem zeroCounts_eq_map (es : List Expr) : zeroCounts es = es.map zeroCount := by
  induction es with
  | nil => rfl
  | cons e es ih => simp [zeroCounts, ih]

theorem zeroCount_num (n : Int64) : zeroCount (.num n) = if n = 0 then 2 else 0 := (rfl)

@[simp] theorem zeroCount_zero : zeroCount 0 = 2 := by
  rw [show (0 : Expr) = .num 0 from rfl, zeroCount_num, if_pos rfl]

@[simp] theorem zeroCount_one : zeroCount 1 = 0 := by
  rw [show (1 : Expr) = .num 1 from rfl, zeroCount_num, if_neg (by decide)]

@[simp] theorem zeroCount_sum (es : List Expr) :
    zeroCount (.sum es) = (es.map fun e => max 1 (zeroCount e)).sum := by
  simp [zeroCount, zeroCounts_eq_map, Function.comp_def]

@[simp] theorem zeroCount_prod (es : List Expr) : zeroCount (.prod es) = (es.map zeroCount).sum :=
  congrArg List.sum (zeroCounts_eq_map es)

@[simp] theorem zeroCount_quot (a b : Expr) : zeroCount (.quot a b) = zeroCount a + zeroCount b :=
  (rfl)

/-- A solid power has the zeros of its base. -/
theorem zeroCount_pow_of_solid (h : Solid (.pow a b)) : zeroCount (.pow a b) = zeroCount a :=
  if_pos h

/-- A power that need not be solid has the zeros of its base as often as its exponent says. -/
theorem zeroCount_pow_of_not_solid (h : ¬Solid (.pow a b)) :
    zeroCount (.pow a b) = zeroCount a * b.magnitude.num :=
  if_neg h

theorem zeroCount_pow_one (a : Expr) : zeroCount (.pow a 1) = zeroCount a := by
  by_cases h : Solid (.pow a 1)
  · exact zeroCount_pow_of_solid h
  · rw [zeroCount_pow_of_not_solid h, magnitude_one, num_one, mul_one]

/-- A power counts at most as the product it abbreviates. -/
theorem zeroCount_pow_le (hb : 1 ≤ b.magnitude.num) :
    zeroCount (.pow a b) ≤ zeroCount a * b.magnitude.num := by
  by_cases h : Solid (.pow a b)
  · rw [zeroCount_pow_of_solid h]
    exact Nat.le_mul_of_pos_right _ hb
  · exact (zeroCount_pow_of_not_solid h).le

/-- The base of a power has no more zeros than the power. -/
theorem zeroCount_le_pow (hb : Solid (.pow a b) ∨ 1 ≤ b.magnitude.num) :
    zeroCount a ≤ zeroCount (.pow a b) := by
  by_cases h : Solid (.pow a b)
  · exact (zeroCount_pow_of_solid h).ge
  · rw [zeroCount_pow_of_not_solid h]
    exact Nat.le_mul_of_pos_right _ (hb.resolve_left h)

@[simp] theorem zeroCount_app (f : Func) (u : Expr) : zeroCount (.app f u) = 0 := (rfl)

end

theorem length_le_zeroCount_sum (es : List Expr) : es.length ≤ zeroCount (.sum es) := by
  rw [zeroCount_sum]
  induction es with
  | nil => exact le_rfl
  | cons e es ih =>
    rw [List.length_cons, List.map_cons, List.sum_cons]
    omega

theorem zeroCount_le_sum (he : e ∈ es) : zeroCount e ≤ zeroCount (.sum es) := by
  rw [zeroCount_sum]
  exact (le_max_right _ _).trans <| List.single_le_sum (fun _ _ => Nat.zero_le _) _
    (List.mem_map_of_mem (f := fun e => max 1 (zeroCount e)) he)

theorem zeroCount_le_prod (he : e ∈ es) : zeroCount e ≤ zeroCount (.prod es) := by
  rw [zeroCount_prod]
  exact List.single_le_sum (fun _ _ => Nat.zero_le _) _ (List.mem_map_of_mem he)

theorem zeroCount_sumOf_le (hne : es ≠ []) :
    zeroCount (.sumOf es) ≤ (es.map fun e => max 1 (zeroCount e)).sum := by
  match es, hne with
  | [e], _ => simp [sumOf]
  | e :: e' :: es, _ => exact (zeroCount_sum _).le

theorem zeroCount_prodOf (hne : es ≠ []) : zeroCount (.prodOf es) = (es.map zeroCount).sum := by
  match es, hne with
  | [e], _ => simp [prodOf]
  | e :: e' :: es, _ => exact zeroCount_prod _

/-- No tame tree counts just `1`. -/
theorem Tame.zeroCount_ne_one (h : Tame σ e) : zeroCount e ≠ 1 := by
  induction e using operands_induct with
  | node e ih =>
    cases e with
    | num n =>
      rw [zeroCount_num]
      split_ifs <;> simp
    | sum es =>
      have hlen := length_le_zeroCount_sum es
      have := h.addends.1
      omega
    | prod es =>
      rcases h.factors with ⟨-, h⟩ | ⟨-, h0⟩
      · rw [zeroCount_prod]
        have hne : ∀ x ∈ es.map zeroCount, x ≠ 1 :=
          List.forall_mem_map.2 fun e he => ih e he (h e he)
        -- a sum of numbers other than `1` can only be `1` if one of them were
        generalize es.map zeroCount = l at hne
        induction l with
        | nil => simp
        | cons x l ihl =>
          rw [List.forall_mem_cons] at hne
          have := ihl hne.2
          rw [List.sum_cons]
          omega
      -- a factor `0` has two zeros
      · have hle := zeroCount_le_prod h0
        rw [zeroCount_zero] at hle
        omega
    | quot a b =>
      have ha := ih a (by simp [operands]) h.sides.1
      have hb := ih b (by simp [operands]) (.solid h.sides.2)
      rw [zeroCount_quot]
      omega
    | pow a b =>
      have ha := ih a (by simp [operands]) h.tame_base
      by_cases hs : Solid (.pow a b)
      · rwa [zeroCount_pow_of_solid hs]
      · rw [zeroCount_pow_of_not_solid hs]
        exact fun h1 => ha (Nat.eq_one_of_mul_eq_one_right h1)
    | app f u => simp
    | var x => simp [zeroCount]
    | eqn a b => exact h.not_eqn.elim

/-- A tame tree that is not solid has a zero in it. -/
theorem Tame.two_le_zeroCount (h : Tame σ e) (hs : ¬Solid e) : 2 ≤ zeroCount e := by
  induction h with
  | zero => simp
  | solid h => exact absurd h hs
  | @sum σ es hlen _ _ => exact hlen.trans (length_le_zeroCount_sum es)
  | @prod σ es hne _ ih =>
    obtain ⟨e, he, hse⟩ : ∃ e ∈ es, ¬Solid e := by
      by_contra! hall
      exact hs (.prod hne hall)
    exact (ih e he hse).trans (zeroCount_le_prod he)
  | quot _ hb ih =>
    rw [zeroCount_quot]
    exact (ih fun ha => hs (.quot ha hb)).trans (Nat.le_add_right _ _)
  | pow _ hb ih =>
    exact (ih fun ha => hs (.pow _ ha)).trans (zeroCount_le_pow (.inr hb.counting.one_le))
  | dead h => simpa using zeroCount_le_prod h

/-- The zeros of a tree bound the exponents in it. -/
theorem Tame.two_mul_num_le (h : Tame σ (.pow a b)) (hs : ¬Solid (.pow a b)) :
    2 * b.magnitude.num ≤ zeroCount (.pow a b) := by
  rw [zeroCount_pow_of_not_solid hs]
  exact Nat.mul_le_mul_right _ (h.tame_base.two_le_zeroCount fun ha => hs (.pow b ha))

/-! ### What passes keep -/

/-- The operands of a node that rounds may change, exponents apart. -/
def parts : Expr → List Expr
  | .sum es => es
  | .prod es => es
  | .quot a b => [a, b]
  | .pow a _ => [a]
  | _ => []

theorem parts_subset (he' : e' ∈ parts e) : e' ∈ e.operands := by
  cases e <;> simp_all [parts, operands]

/-- What the passes keep of a tame tree. -/
structure Keeps (σ : Stage) (e e' : Expr) : Prop where
  tame : Tame σ e'
  solid : Solid e → Solid e'
  vanishing : Vanishing e → Vanishing e'

/-- The second tree keeps what the passes keep and has no more zeros than the first one. -/
structure Fades (σ : Stage) (e e' : Expr) : Prop extends Keeps σ e e' where
  count : zeroCount e' ≤ zeroCount e

/-- Solid trees may become any other solid trees. -/
theorem Keeps.of_solid (h : Solid e) (h' : Solid e') : Keeps σ e e' :=
  ⟨.solid h', fun _ => h', fun hv => absurd hv h.not_vanishing⟩

/-- Vanishing trees may become `0`. -/
theorem Keeps.of_zero (h : Vanishing e) : Keeps σ e 0 :=
  ⟨.zero, fun hs => absurd h hs.not_vanishing, fun _ => .zero⟩

namespace Fades

theorem refl (h : Tame σ e) : Fades σ e e := ⟨⟨h, id, id⟩, le_rfl⟩

theorem trans (h : Fades σ e e') (h' : Fades τ e' e'') : Fades τ e e'' :=
  ⟨⟨h'.tame, h'.solid ∘ h.solid, h'.vanishing ∘ h.vanishing⟩, h'.count.trans h.count⟩

end Fades

section

variable {g : Expr → Expr}

/-- A function on the operands of a node that is not inert, and has no factor `0` at first, keeps of
the node what it keeps of the operands. -/
theorem Tame.keeps_mapOperands (h : Tame σ e) (hi : ¬Inert e)
    (hdead : ∀ es, e = .prod es → σ = .raw → 0 ∉ es) (hg : ∀ u, Inert u → g u = u)
    (hvast : ∀ b, Vast b → Vast (g b)) (hops : ∀ e' ∈ parts e, Tame σ e' → Keeps τ e' (g e'))
    (hexp : ∀ a b, e = .pow a b → ¬Solid (.pow a b) → σ.Exponent b →
      τ.Exponent (g b) ∧ ¬Vast (g b)) :
    Keeps τ e (e.mapOperands g) := by
  cases e with
  | num n => exact absurd (inert_num n) hi
  | var x => exact absurd h.inert_var hi
  | eqn a b => exact h.not_eqn.elim
  | app f u =>
    obtain ⟨hu, hvalue⟩ := h.argument
    rw [mapOperands, hg u hu]
    exact .of_solid (.app hu hvalue) (.app hu hvalue)
  | sum es =>
    obtain ⟨hlen, hes⟩ := h.addends
    have hkeep e he := hops e he (hes e he)
    refine ⟨.sum (by simpa using hlen) (List.forall_mem_map.2 fun e he => (hkeep e he).tame),
      fun hs => absurd hs.inert_sum hi, fun hv => ?_⟩
    rw [Vanishing.sum_iff] at hv
    exact .sum (by simpa using hv.1)
      (List.forall_mem_map.2 fun e he => (hkeep e he).vanishing (hv.2 e he))
  | prod es =>
    obtain ⟨hne, hes⟩ := h.factors.resolve_right fun h0 => hdead es rfl h0.1 h0.2
    have hkeep e he := hops e he (hes e he)
    refine ⟨.prod (by simpa using hne) (List.forall_mem_map.2 fun e he => (hkeep e he).tame),
      fun hs => .prod (by simpa using hne)
        (List.forall_mem_map.2 fun e he => (hkeep e he).solid (hs.of_mem he)), fun hv => ?_⟩
    obtain ⟨e, he, hv⟩ := Vanishing.prod_iff.1 hv
    exact .prod (List.mem_map_of_mem he) ((hkeep e he).vanishing hv)
  | quot a b =>
    obtain ⟨ha, hb⟩ := h.sides
    have hka := hops a (by simp [parts]) ha
    have hkb := (hops b (by simp [parts]) (.solid hb)).solid hb
    exact ⟨.quot hka.tame hkb, fun hs => .quot (hka.solid hs.numerator) hkb,
      fun hv => .quot _ (hka.vanishing (Vanishing.quot_iff.1 hv))⟩
  | pow a b =>
    have hka := hops a (by simp [parts]) h.tame_base
    -- a solid power stays solid, be it for its base or for its exponent
    by_cases hs : Solid (.pow a b)
    · refine .of_solid hs ?_
      rcases hs.base with ha | ⟨rfl, hb⟩
      · exact .pow _ (hka.solid ha)
      · rw [mapOperands, hg 0 (inert_num 0)]
        exact .vast (hvast b hb)
    -- any other exponent counts, and is not too large to evaluate
    · obtain ⟨hb, hsmall⟩ := hexp a b rfl hs (h.base.resolve_left hs).2
      exact ⟨.pow hka.tame hb, fun hs' => absurd hs' hs, fun hv =>
        .pow (hka.vanishing (Vanishing.pow_iff.1 hv).1) hb.counting fun _ => hsmall⟩

/-- A function on the operands of a node that adds no zeros to them adds none to the node. -/
theorem Tame.zeroCount_mapOperands_le (h : Tame σ e) (hσ : σ ≠ .raw)
    (hops : ∀ e' ∈ parts e, Tame σ e' → zeroCount (g e') ≤ zeroCount e')
    (hsolid : Solid e → Solid (e.mapOperands g))
    (hexp : ∀ a b, e = .pow a b → ¬Solid (.pow a b) → σ.Exponent b →
      1 ≤ (g b).magnitude.num ∧ (g b).magnitude.num ≤ b.magnitude.num) :
    zeroCount (e.mapOperands g) ≤ zeroCount e := by
  cases e with
  | sum es =>
    rw [mapOperands, zeroCount_sum, zeroCount_sum, List.map_map]
    exact List.sum_le_sum fun e he => max_le_max_left 1 (hops e he (h.addends.2 e he))
  | prod es =>
    have hes := (h.factors_of_ne_raw hσ).2
    rw [mapOperands, zeroCount_prod, zeroCount_prod, List.map_map]
    exact List.sum_le_sum fun e he => hops e he (hes e he)
  | quot a b =>
    rw [mapOperands, zeroCount_quot, zeroCount_quot]
    exact Nat.add_le_add (hops a (by simp [parts]) h.sides.1)
      (hops b (by simp [parts]) (.solid h.sides.2))
  | pow a b =>
    have ha := hops a (by simp [parts]) h.tame_base
    by_cases hs : Solid (.pow a b)
    · have hs' := hsolid hs
      rw [mapOperands] at hs' ⊢
      rwa [zeroCount_pow_of_solid hs, zeroCount_pow_of_solid hs']
    · obtain ⟨hone, hle⟩ := hexp a b rfl hs (h.base.resolve_left hs).2
      rw [mapOperands, zeroCount_pow_of_not_solid hs]
      exact (zeroCount_pow_le hone).trans (Nat.mul_le_mul ha hle)
  | app f u => simp [mapOperands]
  | _ => exact le_rfl

end

/-- The parts of a tame node are tame, if it does not vanish. -/
theorem Tame.of_mem_parts (h : Tame σ e) (hv : ¬Vanishing e) (he' : e' ∈ parts e) : Tame σ e' := by
  cases e with
  | sum es => exact h.addends.2 e' he'
  | prod es => exact (h.factors.resolve_right fun h0 => hv (.prod h0.2 .zero)).2 e' he'
  | quot a b =>
    rcases List.mem_pair.1 he' with rfl | rfl
    · exact h.sides.1
    · exact .solid h.sides.2
  | pow a b =>
    rw [List.mem_singleton.1 he']
    exact h.tame_base
  | _ => cases he'

/-- A part of a tame node has no more zeros than the node. -/
theorem Tame.zeroCount_part_le (h : Tame σ e) (he' : e' ∈ parts e) :
    zeroCount e' ≤ zeroCount e := by
  cases e with
  | sum es => exact zeroCount_le_sum he'
  | prod es => exact zeroCount_le_prod he'
  | quot a b =>
    rw [zeroCount_quot]
    rcases List.mem_pair.1 he' with rfl | rfl <;> omega
  | pow a b =>
    rw [List.mem_singleton.1 he']
    exact zeroCount_le_pow (h.base.imp_right fun hb => hb.2.counting.one_le)
  | _ => cases he'

/-- A function that fades the operands of a tame node fades the node. Since the zeros of the node
bound its exponents, exponents that fit are all that matters. -/
theorem Tame.fades_mapOperands {g : Expr → Expr} (h : Tame σ e) (hσ : σ ≠ .raw)
    (hg : ∀ u, Inert u → g u = u) (hvast : ∀ b, Vast b → Vast (g b))
    (hops : ∀ e' ∈ parts e, Tame σ e' → Fades τ e' (g e'))
    (hexp : ∀ b, σ.Exponent b → b.magnitude.num < 2 ^ 63 →
      τ.Exponent (g b) ∧ (g b).magnitude.num ≤ b.magnitude.num)
    (hcount : zeroCount e < 2 ^ 64) : Fades τ e (e.mapOperands g) := by
  by_cases hi : Inert e
  · rw [mapOperands_eq_self fun e' he' => hg e' (hi.operand he')]
    exact .refl hi.tame
  have hfits (a b : Expr) (he : e = .pow a b) (hs : ¬Solid (.pow a b)) :
      b.magnitude.num < 2 ^ 63 := by
    subst he
    have := h.two_mul_num_le hs
    omega
  have hkeeps : Keeps τ e (e.mapOperands g) := by
    refine h.keeps_mapOperands hi (fun _ _ hr => absurd hr hσ) hg hvast
      (fun e' he' h' => (hops e' he' h').toKeeps) fun a b he hs hb => ?_
    obtain ⟨hb', hle⟩ := hexp b hb (hfits a b he hs)
    exact ⟨hb', fun hv => hv.2.not_gt (hle.trans_lt (hfits a b he hs))⟩
  refine ⟨hkeeps, h.zeroCount_mapOperands_le hσ (fun e' he' h' => (hops e' he' h').count)
    hkeeps.solid fun a b he hs hb => ?_⟩
  obtain ⟨hb', hle⟩ := hexp b hb (hfits a b he hs)
  exact ⟨hb'.counting.one_le, hle⟩

/-- A pass under which tame trees of one stage fade to those of another: its rule fades tame nodes,
and what it makes of exponents that fit are exponents. It may rely on what holds of a tree and of
all its parts. -/
structure Fading (σ τ : Stage) (P : Expr → Prop) (rule : Expr → Expr) : Prop where
  ne_raw : σ ≠ .raw
  still : ∀ e, Still e → rule e = e
  whole : KeepsWhole rule
  exponent : ∀ b, σ.Exponent b → b.magnitude.num < 2 ^ 63 →
    τ.Exponent (b.bottomUp rule) ∧ (b.bottomUp rule).magnitude.num ≤ b.magnitude.num
  parts : ∀ e, P e → ∀ e' ∈ parts e, P e'
  node : ∀ e, P e → Tame τ (e.mapOperands (bottomUp rule)) →
    Fades τ (e.mapOperands (bottomUp rule)) (rule (e.mapOperands (bottomUp rule)))

namespace Fading

variable {P : Expr → Prop} {rule : Expr → Expr}

/-- A node fades before the rule is applied to it, if its parts do. -/
theorem mapOperands (hr : Fading σ τ P rule) (h : Tame σ e)
    (hops : ∀ e' ∈ Simplification.parts e, Tame σ e' → Fades τ e' (e'.bottomUp rule))
    (hcount : zeroCount e < 2 ^ 64) : Fades τ e (e.mapOperands (Expr.bottomUp rule)) :=
  h.fades_mapOperands hr.ne_raw (fun _ hu => hu.bottomUp_eq_self hr.still)
    (fun _ hb => hb.bottomUp hr.whole) hops hr.exponent hcount

/-- A pass fades tame trees, if their zeros can be counted with 64 bits. -/
theorem bottomUp (hr : Fading σ τ P rule) (h : Tame σ e) (hP : P e)
    (hcount : zeroCount e < 2 ^ 64) : Fades τ e (e.bottomUp rule) := by
  induction e using operands_induct with
  | node e ih =>
    have hnode := hr.mapOperands h (fun e' he' h' => ih e' (parts_subset he') h'
      (hr.parts e hP e' he') ((h.zeroCount_part_le he').trans_lt hcount)) hcount
    rw [bottomUp_eq]
    exact hnode.trans (hr.node e hP hnode.tame)

/-- Before the rule is applied, a node has faded already. -/
theorem operands (hr : Fading σ τ P rule) (h : Tame σ e) (hP : P e)
    (hcount : zeroCount e < 2 ^ 64) : Fades τ e (e.mapOperands (Expr.bottomUp rule)) :=
  hr.mapOperands h (fun e' he' h' => hr.bottomUp h' (hr.parts e hP e' he')
    ((h.zeroCount_part_le he').trans_lt hcount)) hcount

end Fading

end Simplification

end ComputerAlgebra
