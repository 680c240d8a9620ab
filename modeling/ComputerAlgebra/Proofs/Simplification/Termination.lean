import ComputerAlgebra.Proofs.Simplification.Settling
import ComputerAlgebra.Proofs.Simplification.Soundness

/-!
# Termination of the simplifier

No pass of a round raises the measure of a tree that a round gave, so the measure stops changing.
Where two rounds keep it, the first of them has settled the tree, and the second changes nothing
(`round_round_of_level`). So rounds come to an end on every tree, whatever numbers it holds.
-/

namespace ComputerAlgebra

namespace Simplification

open ComputerAlgebra.Expr

variable {e : Expr}

/-! ### One round -/

/-- The part of a round before like terms are collected. -/
def prepare (e : Expr) : Expr := mergeFractions (applyIdentities (flatten e))

theorem round_eq_finish (e : Expr) : round e = finish (prepare e) := rfl

theorem wellFormed_prepare (h : e.WellFormed) : (prepare e).WellFormed :=
  wellFormed_mergeFractions (wellFormed_applyIdentities (wellFormed_flatten h))

/-- The first half of a round descends from anchored trees. -/
theorem descends_prepare (h : e.WellFormed) (hanc : Everywhere Anchored e) :
    Descends e (prepare e) :=
  have hflat := wellFormed_flatten h
  (flatten_spec h hanc).1.trans <| (descends_applyIdentities hflat).trans <|
    descends_mergeFractions (wellFormed_applyIdentities hflat)

/-- Collecting and folding descend. -/
theorem descends_fold_collect (h : e.WellFormed) : Descends e (fold (collect e)) :=
  (descends_collect h).trans (descends_fold (wellFormed_collect e))

theorem descends_finish (h : e.WellFormed) : Descends e (finish e) :=
  (descends_fold_collect h).trans (descends_sortOperands (wellFormed_fold (wellFormed_collect e)))

/-- A round descends from anchored trees, and so does every round after the first, which anchors all
trees. -/
theorem descends_round (h : e.WellFormed) (hanc : Everywhere Anchored e) : Descends e (round e) :=
  (descends_prepare h hanc).trans (descends_finish (wellFormed_prepare h))

/-- The first half of a round is flattening, where the other two passes have nothing to do. -/
theorem prepare_eq_flatten (hid : Everywhere (fun e => Identities.rule e = e) (flatten e))
    (hmerge : Everywhere (fun e => Fractions.rule e = e) (flatten e)) :
    prepare e = flatten e := by
  rw [prepare, applyIdentities, hid.bottomUp_eq_self, mergeFractions, hmerge.bottomUp_eq_self]

/-- On its level a round finds nothing to do for identities and fractions in the flattened tree, and
little for the passes after them. -/
structure Prepared (e : Expr) : Prop where
  identities : Everywhere (fun e => Identities.rule e = e) e
  fractions : Everywhere (fun e => Fractions.rule e = e) e
  quiet : Quiet e

/-- A round that stays at its level has nothing left for identities and fractions. -/
theorem prepared_flatten (h : e.WellFormed) (hanc : Everywhere Anchored e)
    (hl : Level e (round e)) : Prepared (flatten e) := by
  have hwf := wellFormed_flatten h
  obtain ⟨hdflat, hancflat⟩ := flatten_spec h hanc
  have hdid := descends_applyIdentities hwf
  have hdmerge := descends_mergeFractions (wellFormed_applyIdentities hwf)
  obtain ⟨hlprep, hlfin⟩ := Level.of_trans (descends_prepare h hanc)
    (descends_finish (wellFormed_prepare h)) hl
  obtain ⟨-, hl⟩ := Level.of_trans hdflat (hdid.trans hdmerge) hlprep
  obtain ⟨hlid, hlmerge⟩ := Level.of_trans hdid hdmerge hl
  obtain ⟨hid, htidy⟩ := applyIdentities_level hwf hancflat hlid
  have heq : applyIdentities (flatten e) = flatten e := hid.bottomUp_eq_self
  rw [heq] at hlmerge
  have hmerge := mergeFractions_level hwf htidy hlmerge
  rw [prepare_eq_flatten hid hmerge] at hlfin
  obtain ⟨hlcf, -⟩ := Level.of_trans (descends_fold_collect hwf)
    (descends_sortOperands (wellFormed_fold (wellFormed_collect _))) hlfin
  obtain ⟨hlc, hlf⟩ := Level.of_trans (descends_collect hwf)
    (descends_fold (wellFormed_collect _)) hlcf
  exact ⟨hid, hmerge, ⟨hwf, hancflat, flat_flatten e, htidy, hlc⟩, hlf⟩

/-- A round that keeps the measure flattens and settles. -/
theorem round_eq_settle (h : e.WellFormed) (hanc : Everywhere Anchored e)
    (hl : Level e (round e)) : round e = settle (flatten e) := by
  have hprep := prepared_flatten h hanc hl
  rw [round_eq_finish, prepare_eq_flatten hprep.identities hprep.fractions,
    hprep.quiet.finish_eq_settle]

/-- Of two rounds that keep the measure the second one changes nothing. -/
theorem round_round_of_level (h : e.WellFormed) (hanc : Everywhere Anchored e)
    (hl : Level e (round e)) (hl' : Level (round e) (round (round e))) :
    round (round e) = round e := by
  rw [round_eq_settle (wellFormed_round e) (anchored_round e) hl', round_eq_settle h hanc hl]
  exact settle_flatten_settle (wellFormed_flatten h) (flat_flatten e)

/-! ### Rounds in a row -/

/-- Weight and slack of a tree, the weight first. -/
def measure (e : Expr) : ℕ ×ₗ ℕ := toLex (e.weight, e.slack)

/-- A descent does not raise the measure. -/
theorem measure_le_of_descends {e' : Expr} (h : Descends e e') : measure e' ≤ measure e :=
  Prod.Lex.toLex_le_toLex.2 (h.cost.imp id fun ⟨hw, _, hs⟩ => ⟨hw, hs⟩)

/-- Trees of the same measure are level. -/
theorem level_of_measure_eq {e' : Expr} (h : measure e = measure e') : Level e e' := by
  have heq := Prod.ext_iff.1 (toLex.injective h)
  exact ⟨heq.1.symm, heq.2.symm⟩

/-- From some round on every round keeps the measure. -/
theorem exists_level_round (e : Expr) :
    ∃ k, ∀ j, k ≤ j → Level (round^[j + 1] e) (round^[j + 2] e) := by
  have hanti : Antitone fun k => measure (round^[k + 1] e) := antitone_nat_of_succ_le fun k => by
    rw [Function.iterate_succ_apply' round (k + 1), Function.iterate_succ_apply' round k]
    exact measure_le_of_descends (descends_round (wellFormed_round _) (anchored_round _))
  obtain ⟨k, hk⟩ := WellFoundedLT.antitone_chain_condition hanti
  exact ⟨k, fun j hj => level_of_measure_eq ((hk j hj).symm.trans (hk (j + 1) (by omega)))⟩

/-- Rounds end at a tree that no round changes. -/
theorem exists_round_eq_self (e : Expr) : ∃ k, round (round^[k] e) = round^[k] e := by
  obtain ⟨k, hk⟩ := exists_level_round e
  have h := hk k le_rfl
  have h' := hk (k + 1) (by omega)
  simp only [Function.iterate_succ_apply'] at h h'
  refine ⟨k + 2, ?_⟩
  simp only [Function.iterate_succ_apply']
  exact round_round_of_level (wellFormed_round _) (anchored_round _) h h'

/-- A repetition with enough steps stops at a value that the step keeps. -/
theorem converge_eq_ok {α : Type*} [DecidableEq α] {step : α → α} {limit k : ℕ} {a : α}
    (hk : step (step^[k] a) = step^[k] a) (hlt : k < limit) :
    converge step limit a = .ok (step^[k] a) := by
  induction limit generalizing k a with
  | zero => omega
  | succ limit ih =>
    rw [converge]
    split_ifs with h
    · exact congrArg Except.ok (Function.iterate_fixed h k).symm
    · cases k with
      | zero => exact absurd hk h
      | succ k => exact ih hk (by omega)

/-- Whatever tree it is given, the simplifier reaches after finitely many rounds a tree that no
further round changes, and there it stops unless its cap comes first. -/
theorem simplify_terminates (e : Expr) :
    ∃ k, round^[k + 1] e = round^[k] e ∧
      ∀ cap : Option ℕ, k < cap.getD unbounded → simplify cap e = .ok (round^[k] e) := by
  obtain ⟨k, hk⟩ := exists_round_eq_self e
  exact ⟨k, (Function.iterate_succ_apply' round k e).trans hk, fun _ => converge_eq_ok hk⟩

end Simplification

end ComputerAlgebra
