import ComputerAlgebra.Proofs.Expr.Order
import ComputerAlgebra.Proofs.Simplification.Descent.Flattening
import ComputerAlgebra.Proofs.Simplification.Descent.LikeTerms

/-!
# Rounds that keep the measure

A round that keeps the measure of a tree does hardly anything: its identities and its fraction pass
leave the flattened tree as it is, and so does collecting, except that it puts the literals `1`
among the addends of a sum together.
-/

namespace ComputerAlgebra

namespace Simplification

open ComputerAlgebra.Expr

variable {e e' : Expr} {es fs : List Expr}

/-! ### Trees without weight -/

/-- A tree without weight is the literal `1`. -/
def Tidy (e : Expr) : Prop := e.weight = 0 → e = 1

/-- No power of a tidy tree has a base without a weight. -/
theorem Tidy.weight_base {a b : Expr} (h : Tidy (.pow a b)) : a.weight ≠ 0 := by
  intro ha
  have hw : (Expr.pow a b).weight = 0 := by rw [weight_pow, if_pos ha]
  cases h hw

/-- A node over tidy operands is tidy, a power of `1` apart. -/
theorem tidy_of_operands (h : e.WellFormed) (hanc : e.Anchored)
    (hpow : ∀ a b, e = .pow a b → a.weight ≠ 0) (hops : ∀ e' ∈ e.operands, Tidy e') : Tidy e := by
  intro hw
  cases h with
  | var x => cases hw
  | num n => rw [(weight_num_eq_zero_iff n).1 hw]; rfl
  | @sum es hlen _ =>
    rw [weight_sum] at hw
    omega
  | @prod es hlen _ =>
    rw [weight_prod] at hw
    -- all factors are `1`, which an anchored product excludes
    obtain ⟨e, he⟩ := List.exists_mem_of_length_pos (l := es) (by omega)
    have hone : e = 1 := hops e he (List.sum_eq_zero_iff.1 hw _ (List.mem_map_of_mem he))
    have hheavy := hanc (hone ▸ he)
    rw [heavy_eq_zero_iff.2 hw] at hheavy
    omega
  | @quot a b _ _ =>
    rw [weight_quot] at hw
    omega
  | @pow a b _ _ =>
    rw [weight_pow, if_neg (hpow a b rfl)] at hw
    exact absurd hw (by have := hpow a b rfl; omega)
  | @app f a _ =>
    rw [weight_app] at hw
    omega
  | @eqn a b _ _ =>
    rw [weight_eqn] at hw
    omega

/-! ### Identities and fractions -/

/-- On their level, identities apply nowhere in an anchored tree, and its trees without weight are
literals `1`. -/
theorem applyIdentities_level (h : e.WellFormed) (hanc : Everywhere Anchored e)
    (hl : Level e (applyIdentities e)) :
    Everywhere (fun e => Identities.rule e = e) e ∧ Everywhere Tidy e := by
  induction e using operands_induct with
  | node e ih =>
    have hop : ∀ e' ∈ e.operands, e'.WellFormed := fun _ => h.of_mem_operands
    have hdesc : ∀ e' ∈ e.operands, Descends e' (applyIdentities e') := fun e' he' =>
      descends_applyIdentities (hop e' he')
    have heq : applyIdentities e = Identities.rule (e.mapOperands applyIdentities) :=
      bottomUp_eq _ _
    rw [heq] at hl
    obtain ⟨hl, hl'⟩ := Level.of_trans (.mapOperands hdesc) (Identities.rule_descends _) hl
    have hpow : ∀ a b, e = .pow a b → a.weight ≠ 0 := by
      -- a base without weight is `1`, and the rule takes its power away
      rintro a b rfl ha
      have hmem : a ∈ (Expr.pow a b).operands := by simp [operands]
      have hla := (Level.of_pow (hdesc a hmem) (hdesc b (by simp [operands])) hl).1
      obtain ⟨harule, hatidy⟩ := ih a hmem (hop a hmem) (hanc.operand hmem) hla
      have haeq : applyIdentities a = a := harule.bottomUp_eq_self
      rw [mapOperands, haeq, hatidy.root ha] at hl'
      have hrule : Identities.rule (.pow 1 (applyIdentities b)) = 1 := if_pos (.inr rfl)
      rw [hrule] at hl'
      simpa using hl'.2
    have hlops := hl.operands hpow hdesc
    have hih := fun e' he' => ih e' he' (hop e' he') (hanc.operand he') (hlops e' he')
    have hmap : e.mapOperands applyIdentities = e :=
      mapOperands_eq_self fun e' he' => (hih e' he').1.bottomUp_eq_self
    rw [hmap] at hl'
    refine ⟨.node ?_ fun e' he' => (hih e' he').1, .node ?_ fun e' he' => (hih e' he').2⟩
    · exact (Identities.rule_drops h hanc.root).resolve_right fun hdrop => hdrop.not_level hl'
    · exact tidy_of_operands h hanc.root hpow fun e' he' => (hih e' he').2.root

/-- On its level a pass applies nowhere in a tidy tree, if its rule drops wherever it applies. -/
theorem bottomUp_level {rule : Expr → Expr} (hwf : ∀ e, e.WellFormed → (rule e).WellFormed)
    (hrule : ∀ e, e.WellFormed → rule e = e ∨ Drops e (rule e))
    (hdesc : ∀ e, e.WellFormed → Descends e (rule e)) (h : e.WellFormed) (ht : Everywhere Tidy e)
    (hl : Level e (e.bottomUp rule)) : Everywhere (fun e => rule e = e) e := by
  induction e using operands_induct with
  | node e ih =>
    have hop : ∀ e' ∈ e.operands, e'.WellFormed := fun _ => h.of_mem_operands
    obtain ⟨hlops, hl'⟩ := Level.of_bottomUp hwf hdesc h
      (fun a b heq => (heq ▸ ht.root : Tidy (.pow a b)).weight_base) hl
    have hih := fun e' he' => ih e' he' (hop e' he') (ht.operand he') (hlops e' he')
    rw [mapOperands_eq_self fun e' he' => (hih e' he').bottomUp_eq_self] at hl'
    exact .node ((hrule e h).resolve_right fun hdrop => hdrop.not_level hl') hih

/-- Merging fractions stays at the level of a tidy tree only if it has nothing to do anywhere. -/
theorem mergeFractions_level (h : e.WellFormed) (ht : Everywhere Tidy e)
    (hl : Level e (mergeFractions e)) : Everywhere (fun e => Fractions.rule e = e) e :=
  bottomUp_level Fractions.wellFormed_rule (fun _ => Fractions.rule_drops)
    (fun _ => Fractions.rule_descends) h ht hl

/-! ### Collecting -/

theorem collect_eq (e : Expr) : collect e = Collect.rule (e.mapOperands collect) := bottomUp_eq _ _

/-- No sum is an operand of a sum, and no product one of a product. -/
def Flat : Expr → Prop
  | .sum es => ∀ fs, .sum fs ∉ es
  | .prod es => ∀ fs, .prod fs ∉ es
  | _ => True

/-- No two factors of a product have one base, and no two addends of a sum one term. -/
def Distinct : Expr → Prop
  | .prod es => ((es.map Collect.baseAndExponent).map Prod.fst).Nodup
  | .sum es => ((es.map Collect.termAndCoefficient).map Prod.fst).Nodup
  | _ => True

/-- A flattened tree without work for identities that collecting keeps on its level. -/
structure Steady (e : Expr) : Prop where
  wellFormed : e.WellFormed
  anchored : Everywhere Anchored e
  flat : Everywhere Flat e
  tidy : Everywhere Tidy e
  level : Level e (collect e)

namespace Steady

/-- Collecting stays at the level of a steady tree node by node. -/
theorem levels (h : Steady e) :
    (∀ e' ∈ e.operands, Level e' (collect e')) ∧
      Level (e.mapOperands collect) (Collect.rule (e.mapOperands collect)) := by
  refine Level.of_bottomUp Collect.wellFormed_rule (fun _ => Collect.rule_descends) h.wellFormed ?_
    h.level
  rintro a b rfl
  exact h.tidy.root.weight_base

theorem operand (h : Steady e) (he' : e' ∈ e.operands) : Steady e' where
  wellFormed := h.wellFormed.of_mem_operands he'
  anchored := h.anchored.operand he'
  flat := h.flat.operand he'
  tidy := h.tidy.operand he'
  level := h.levels.1 e' he'

/-- Collecting neither makes nor loses a `1`. -/
theorem collect_eq_one_iff (h : Steady e) : collect e = 1 ↔ e = 1 := by
  constructor
  · intro h1
    refine h.tidy.root ?_
    rw [← h.level.1, h1, weight_one]
  · rintro rfl
    exact (descends_collect h.wellFormed).leaf 1 rfl

/-- A product of two factors has no factor `1`. -/
theorem ne_one_of_pair {c t : Expr} (h : Steady (.prod es)) (hes : es.map collect = [c, t]) :
    c ≠ 1 ∧ t ≠ 1 := by
  have hheavy : 1 ∈ [c, t] → 2 ≤ heavy [c, t] := fun h1 => by
    rw [← hes] at h1 ⊢
    obtain ⟨e, he, h1⟩ := List.mem_map.1 h1
    rw [(h.operand he).collect_eq_one_iff] at h1
    have hmap : heavy (es.map collect) = heavy es := heavy_map fun e he => (h.operand he).level.1
    rw [hmap]
    exact h.anchored.root (h1 ▸ he)
  constructor <;> rintro rfl <;> simp [heavy, List.countP_cons] at hheavy <;>
    split_ifs at hheavy <;> omega

/-- Collecting finds no equal factors in a steady product. -/
theorem collect_prod (h : Steady (.prod es)) :
    Distinct (.prod (es.map collect)) ∧ collect (.prod es) = .prod (es.map collect) := by
  have hlen := (Expr.WellFormed.prod_iff.1 h.wellFormed).1
  rw [collect_eq, mapOperands]
  exact (Collect.rule_prod (by simpa using hlen)).resolve_right fun hdrop =>
    hdrop.not_level h.levels.2

/-- No addend of a flat sum is collected to a product with a factor `1`. -/
theorem ne_one_of_prod (h : Steady (.sum es)) {c t : Expr}
    (hct : Expr.prod [c, t] ∈ es.map collect) : c ≠ 1 ∧ t ≠ 1 := by
  obtain ⟨e, he, hct⟩ := List.mem_map.1 hct
  have hq := h.operand he
  cases e with
  | sum gs => exact absurd he (h.flat.root gs)
  | prod gs =>
    rw [hq.collect_prod.2, prod.injEq] at hct
    exact hq.ne_one_of_pair hct
  | _ =>
    rw [collect_eq] at hct
    simp [mapOperands, Collect.rule] at hct

/-- In a steady sum, collecting finds no equal addends but ones, which become one multiple of
`1`. -/
theorem collect_sum (h : Steady (.sum es)) :
    Distinct (.sum (es.map collect)) ∧ collect (.sum es) = .sum (es.map collect) ∨
      2 ≤ (es.map collect).count 1 ∧ ∃ fs : List Expr, collect (.sum es) = .sumOf fs ∧ fs.Perm
        (Collect.multiple 1 (.sum (List.replicate ((es.map collect).count 1) 1)) ::
          (es.map collect).filter fun e => e ≠ 1) := by
  have hlen := (Expr.WellFormed.sum_iff.1 h.wellFormed).1
  have hrule := Collect.rule_sum fun c t => h.ne_one_of_prod
  rw [← or_assoc] at hrule
  have hcases := hrule.resolve_right fun hdrop => hdrop.not_level h.levels.2
  rw [sumOf_of_two_le (by simpa using hlen)] at hcases
  rw [collect_eq, mapOperands]
  exact hcases

/-- Passes that keep the weights of the operands keep the root anchored. -/
theorem anchored_mapOperands {f : Expr → Expr} (h : Steady e)
    (hf : ∀ e' ∈ e.operands, (f e').weight = e'.weight) : (e.mapOperands f).Anchored := by
  cases e with
  | prod es =>
    intro h1
    obtain ⟨e', he', h1⟩ := List.mem_map.1 h1
    have hone : e' = 1 := (h.tidy.operand he').root (by rw [← hf e' he', h1, weight_one])
    have hmap : heavy (es.map f) = heavy es := heavy_map hf
    rw [hmap]
    exact h.anchored.root (hone ▸ he')
  | _ => trivial

end Steady

end Simplification

end ComputerAlgebra
