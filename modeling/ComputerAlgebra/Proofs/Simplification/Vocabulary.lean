import ComputerAlgebra.Expr.Visit
import ComputerAlgebra.Proofs.Simplification.Arity

/-!
# What the simplifier writes was there before

The passes compute with numbers and move operands about, but they take every variable, every
function and every equation from the tree they are given. So they keep any property of all nodes
that restricts no other kind of node (`Expr.Vocabulary`). That the variables are among given names
is such a property, and so is that there are no equations.
-/

namespace ComputerAlgebra

namespace Expr

variable {p : Expr → Prop} {a b e : Expr} {es : List Expr}

/-- A property of nodes that only variables, functions and equations can fail to have, and the
latter two whatever their operands are. -/
structure Vocabulary (p : Expr → Prop) : Prop where
  num : ∀ n, p (.num n)
  sum : ∀ es, p (.sum es)
  prod : ∀ es, p (.prod es)
  quot : ∀ a b, p (.quot a b)
  pow : ∀ a b, p (.pow a b)
  app : ∀ {f a} b, p (.app f a) → p (.app f b)
  eqn : ∀ {a b} c d, p (.eqn a b) → p (.eqn c d)

namespace Vocabulary

variable (hp : Vocabulary p)
include hp

theorem everywhere_num (n : Int64) : Everywhere p (.num n) := .node (hp.num n) (by simp [operands])

/-- A sum is in the vocabulary if all its addends are. -/
theorem everywhere_sum : Everywhere p (.sum es) ↔ ∀ e ∈ es, Everywhere p e :=
  ⟨fun h _ => h.operand, .node (hp.sum es)⟩

theorem everywhere_prod : Everywhere p (.prod es) ↔ ∀ e ∈ es, Everywhere p e :=
  ⟨fun h _ => h.operand, .node (hp.prod es)⟩

theorem everywhere_quot : Everywhere p (.quot a b) ↔ Everywhere p a ∧ Everywhere p b := by
  simp [everywhere_iff (e := .quot a b), hp.quot, operands]

theorem everywhere_pow : Everywhere p (.pow a b) ↔ Everywhere p a ∧ Everywhere p b := by
  simp [everywhere_iff (e := .pow a b), hp.pow, operands]

theorem everywhere_sumOf (h : ∀ e ∈ es, Everywhere p e) : Everywhere p (sumOf es) := by
  match es with
  | [] => exact hp.everywhere_num 0
  | [e] => exact h e List.mem_cons_self
  | _ :: _ :: _ => exact hp.everywhere_sum.mpr h

theorem everywhere_prodOf (h : ∀ e ∈ es, Everywhere p e) : Everywhere p (prodOf es) := by
  match es with
  | [] => exact hp.everywhere_num 0
  | [e] => exact h e List.mem_cons_self
  | _ :: _ :: _ => exact hp.everywhere_prod.mpr h

/-- A fraction is in every vocabulary. -/
theorem everywhere_ofFraction (q : Fraction) : Everywhere p (ofFraction q) := by
  rw [ofFraction]
  split_ifs
  · exact hp.everywhere_num _
  · exact hp.everywhere_quot.mpr ⟨hp.everywhere_num _, hp.everywhere_num _⟩

/-- A pass keeps the property everywhere if its rule does. -/
theorem bottomUp {rule : Expr → Expr} (hrule : ∀ e, Everywhere p e → Everywhere p (rule e))
    (h : Everywhere p e) : Everywhere p (e.bottomUp rule) := by
  induction e using operands_induct with
  | node e ih =>
    rw [bottomUp_eq]
    apply hrule
    refine .node ?_ ?_
    · cases e with
      | var x => exact h.root
      | app f a => exact hp.app _ h.root
      | eqn a b => exact hp.eqn _ _ h.root
      | num n => exact hp.num n
      | sum es => exact hp.sum _
      | prod es => exact hp.prod _
      | quot a b => exact hp.quot _ _
      | pow a b => exact hp.pow _ _
    · rw [operands_mapOperands]
      exact List.forall_mem_map.2 fun e' he' => ih e' he' (h.operand he')

end Vocabulary

end Expr

namespace Simplification

open ComputerAlgebra.Expr

variable {p : Expr → Prop} {a b e : Expr} {es : List Expr}

/-! ### One node -/

section

variable (hp : Vocabulary p)
include hp

theorem Flatten.everywhere_addends (h : Everywhere p e) : ∀ e' ∈ addends e, Everywhere p e' := by
  cases e with
  | sum es => exact hp.everywhere_sum.mp h
  | _ => exact List.forall_mem_singleton.mpr h

theorem Flatten.everywhere_factors (h : Everywhere p e) : ∀ e' ∈ factors e, Everywhere p e' := by
  cases e with
  | prod es => exact hp.everywhere_prod.mp h
  | _ => exact List.forall_mem_singleton.mpr h

/-- Writing nested sums and products as one brings in nothing new. -/
theorem Flatten.everywhere_splice (e : Expr) (h : Everywhere p e) : Everywhere p (splice e) := by
  cases e with
  | sum es =>
    rw [hp.everywhere_sum] at h
    apply hp.everywhere_sum.mpr
    intro e he
    obtain ⟨e', he', hmem⟩ := List.mem_flatMap.1 he
    exact everywhere_addends hp (h e' he') e hmem
  | prod es =>
    rw [hp.everywhere_prod] at h
    apply hp.everywhere_prod.mpr
    intro e he
    obtain ⟨e', he', hmem⟩ := List.mem_flatMap.1 he
    exact everywhere_factors hp (h e' he') e hmem
  | _ => exact h

theorem Identities.everywhere_integerPower? {n m : Int64} (h : integerPower? n m = some e) :
    Everywhere p e := by
  obtain ⟨-, v, -, rfl⟩ | ⟨-, k, v, -, -, rfl⟩ := integerPower?_eq_some h
  · exact hp.everywhere_num v
  · exact hp.everywhere_quot.mpr ⟨hp.everywhere_num 1, hp.everywhere_num v⟩

/-- Identities bring in nothing but numbers. -/
theorem Identities.everywhere_rule (e : Expr) (h : Everywhere p e) : Everywhere p (rule e) := by
  cases e with
  | quot a b =>
    simp only [rule, quotient]
    split_ifs
    · exact (hp.everywhere_quot.mp h).1
    · exact hp.everywhere_num 0
    · exact hp.everywhere_num 1
    · exact h
  | pow a b =>
    rw [rule]
    obtain ⟨-, heq⟩ | ⟨-, heq⟩ | ⟨n, m, -, -, heq⟩ | ⟨-, heq⟩ := power_cases a b
    · rw [heq]
      exact hp.everywhere_num 1
    · rw [heq]
      exact (hp.everywhere_pow.mp h).1
    · exact everywhere_integerPower? hp heq
    · rwa [heq]
  | prod es =>
    simp only [rule]
    split_ifs
    · exact hp.everywhere_num 0
    · exact h
  | app f a =>
    simp only [rule]
    split
    · exact hp.everywhere_num _
    · exact h
  | _ => exact h

/-- The rule for fractions brings in nothing but quotients and products of what is there. -/
theorem Fractions.everywhere_rule (e : Expr) (h : Everywhere p e) : Everywhere p (rule e) := by
  cases e with
  | quot a b =>
    simp only [rule]
    unfold quotient
    split <;> simp_all [hp.everywhere_quot, hp.everywhere_prod]
  | prod es =>
    rw [hp.everywhere_prod] at h
    simp only [rule, product]
    split
    · exact hp.everywhere_prod.mpr h
    · refine hp.everywhere_quot.mpr ⟨hp.everywhere_prodOf ?_, hp.everywhere_prodOf ?_⟩
      · refine List.forall_mem_map.2 fun e he => ?_
        cases e with
        | quot a b => exact (hp.everywhere_quot.mp (h _ he)).1
        | _ => exact h _ he
      · intro b hb
        obtain ⟨e, he, hb⟩ := List.mem_filterMap.1 hb
        cases e with
        | quot a b =>
          cases hb
          exact (hp.everywhere_quot.mp (h _ he)).2
        | _ => cases hb
  | _ => exact h

/-- A group of like terms is in the vocabulary, if combining its members is. -/
theorem Collect.everywhere_regroup {combine : Expr → Expr → Expr} {pairs : List (Expr × Expr)}
    (hcombine : ∀ a b, Everywhere p a → Everywhere p b → Everywhere p (combine a b))
    (h : ∀ kv ∈ pairs, Everywhere p kv.1 ∧ Everywhere p kv.2) :
    ∀ e ∈ (group pairs).map (regroup combine), Everywhere p e := by
  refine List.forall_mem_map.2 fun g hg => ?_
  have hkey := forall_group_key pairs (fun kv hkv => (h kv hkv).1) g hg
  have hvalues := forall_group_value pairs (fun kv hkv => (h kv hkv).2) g hg
  obtain ⟨heq, -⟩ | heq := regroup_eq combine (group_ne_nil pairs g hg)
  · rwa [heq]
  · rw [heq]
    exact hcombine _ _ hkey (hp.everywhere_sumOf hvalues)

/-- The rule for like terms brings in nothing but sums, products and powers of what is there. -/
theorem Collect.everywhere_rule (e : Expr) (h : Everywhere p e) : Everywhere p (rule e) := by
  cases e with
  | sum es =>
    rw [hp.everywhere_sum] at h
    refine hp.everywhere_sumOf (everywhere_regroup hp ?_ (List.forall_mem_map.2 fun e he => ?_))
    · intro a b ha hb
      exact hp.everywhere_prod.mpr (by simp [ha, hb])
    · have hterm := h e he
      unfold termAndCoefficient
      split
      · rw [hp.everywhere_prod] at hterm
        exact ⟨hterm _ (by simp), hterm _ (by simp)⟩
      · exact ⟨hterm, hp.everywhere_num 1⟩
  | prod es =>
    rw [hp.everywhere_prod] at h
    refine hp.everywhere_prodOf (everywhere_regroup hp ?_ (List.forall_mem_map.2 fun e he => ?_))
    · intro a b ha hb
      exact hp.everywhere_pow.mpr ⟨ha, hb⟩
    · have hfactor := h e he
      unfold baseAndExponent
      split
      · exact hp.everywhere_pow.mp hfactor
      · exact ⟨hfactor, hp.everywhere_num 1⟩
  | _ => exact h

/-- The rule for numbers brings in nothing but numbers. -/
theorem Fold.everywhere_rule (e : Expr) (h : Everywhere p e) : Everywhere p (rule e) := by
  cases e with
  | quot a b =>
    simp only [rule]
    unfold quotient
    split
    · next n d =>
      split_ifs
      · exact h
      · cases Fraction.reduce? ⟨n, d⟩ with
        | none => exact h
        | some q => exact hp.everywhere_ofFraction q
    · exact h
  | prod es =>
    rw [hp.everywhere_prod] at h
    have hothers : ∀ e ∈ es.filter fun e => e.num?.isNone, Everywhere p e := fun e he =>
      h e (List.mem_of_mem_filter he)
    simp only [rule, product]
    split
    · exact hp.everywhere_prod.mpr h
    · split_ifs
      · exact hp.everywhere_num 0
      · refine hp.everywhere_prodOf fun e he => ?_
        rcases List.mem_append.1 he with he | he
        · exact hothers e he
        · rw [List.mem_singleton.1 he]
          exact hp.everywhere_num _
      · exact hp.everywhere_prodOf hothers
  | sum es =>
    rw [hp.everywhere_sum] at h
    have hothers : ∀ e ∈ es.filter fun e => e.fraction?.isNone, Everywhere p e := fun e he =>
      h e (List.mem_of_mem_filter he)
    simp only [rule, addends]
    split_ifs
    · exact hp.everywhere_sum.mpr h
    · split
      · exact hp.everywhere_sum.mpr h
      · refine hp.everywhere_sumOf fun e he => ?_
        split_ifs at he
        · exact hothers e he
        · rcases List.mem_append.1 he with he | he
          · exact hothers e he
          · rw [List.mem_singleton.1 he]
            exact hp.everywhere_ofFraction _
  | _ => exact h

theorem Sorting.everywhere_rule (e : Expr) (h : Everywhere p e) : Everywhere p (rule e) := by
  cases e with
  | sum es =>
    rw [hp.everywhere_sum] at h
    exact hp.everywhere_sum.mpr fun e he => h e ((Sorted.sort_perm Expr.le es).mem_iff.1 he)
  | prod es =>
    rw [hp.everywhere_prod] at h
    exact hp.everywhere_prod.mpr fun e he => h e ((Sorted.sort_perm Expr.le es).mem_iff.1 he)
  | _ => exact h

/-! ### Passes and rounds -/

/-- No pass leaves a vocabulary. -/
theorem everywhere_pass {pass : Expr → Expr} (hpass : pass ∈ passes) (h : Everywhere p e) :
    Everywhere p (pass e) := by
  simp only [passes, List.mem_cons, List.not_mem_nil, or_false] at hpass
  rcases hpass with rfl | rfl | rfl | rfl | rfl | rfl
  · rw [flatten_eq_bottomUp]
    exact hp.bottomUp (Flatten.everywhere_splice hp) h
  · exact hp.bottomUp (Identities.everywhere_rule hp) h
  · exact hp.bottomUp (Fractions.everywhere_rule hp) h
  · exact hp.bottomUp (Collect.everywhere_rule hp) h
  · exact hp.bottomUp (Fold.everywhere_rule hp) h
  · exact hp.bottomUp (Sorting.everywhere_rule hp) h

/-- A round leaves no vocabulary. -/
theorem everywhere_round (h : Everywhere p e) : Everywhere p (round e) := by
  rw [round]
  refine List.foldlRecOn passes _ h fun e he pass hpass => everywhere_pass hp hpass he

theorem everywhere_iterate_round (h : Everywhere p e) (k : ℕ) : Everywhere p (round^[k] e) := by
  induction k with
  | zero => exact h
  | succ k ih =>
    rw [Function.iterate_succ_apply']
    exact everywhere_round hp ih

/-- The passes after flattening keep it as well. -/
theorem everywhere_round_of_flatten (h : Everywhere p (flatten e)) : Everywhere p (round e) := by
  have htail : round e = passes.tail.foldl (fun e pass => pass e) (flatten e) := rfl
  rw [htail]
  refine List.foldlRecOn passes.tail _ h fun e he pass hpass => ?_
  exact everywhere_pass hp (List.mem_of_mem_tail hpass) he

end

end Simplification

end ComputerAlgebra
