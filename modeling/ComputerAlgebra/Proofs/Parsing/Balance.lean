import ComputerAlgebra.Proofs.Parsing.Machine

/-!
# Counting operands

The scan does not check that every operator finds its operands. What refuses a malformed formula is
that each operator takes one tree away for good: a machine that lacks a tree can never make up for
it (`Machine.run?_eq_none`).
-/

namespace ComputerAlgebra

namespace Parsing

open ReversePolish (Item Pending calls)

/-- An operator takes two trees and leaves one. -/
theorem length_of_act?_op {op : Operator} {trees trees' : List Expr}
    (h : act? (.op op) trees = some trees') : trees'.length + 1 = trees.length := by
  match trees with
  | [] | [_] => cases h
  | _ :: _ :: _ =>
    cases h
    rfl

/-- A function takes one tree and leaves one. -/
theorem length_of_act?_func {f : Func} {trees trees' : List Expr}
    (h : act? (.func f) trees = some trees') : trees'.length = trees.length := by
  match trees with
  | [] => cases h
  | _ :: _ =>
    cases h
    rfl

namespace Machine

/-- How many trees the waiting operators will take away. -/
def demand : List Pending → Nat
  | [] => 0
  | .op _ :: pending => demand pending + 1
  | _ :: pending => demand pending

/-- There are too few trees for one to be left in the end. -/
def Deficient (m : Machine) : Prop :=
  m.trees.length < demand m.pending + if m.afterOperand then 1 else 0

variable {m m' : Machine} {new op : Operator} {pending pending' : List Pending}
  {trees trees' : List Expr} {l : Lexeme} {ls : List Lexeme}

/-- Releasing operators makes as many trees fewer as it makes the demand smaller. -/
theorem length_of_release? (h : release? new pending trees = some (pending', trees')) :
    trees'.length + demand pending = trees.length + demand pending' := by
  induction pending generalizing trees with
  | nil =>
    cases h
    rfl
  | cons p pending ih =>
    cases p with
    | op op =>
      rw [release?] at h
      split at h
      · obtain ⟨trees₁, h₁, h⟩ := Option.bind_eq_some_iff.1 h
        have := length_of_act?_op h₁
        have := ih h
        simp only [demand]
        omega
      · cases h
        rfl
    | func f =>
      cases h
      rfl
    | paren =>
      cases h
      rfl

/-- Closing a group makes as many trees fewer as it makes the demand smaller. -/
theorem length_of_closeGroup? (h : closeGroup? pending trees = some (pending', trees')) :
    trees'.length + demand pending = trees.length + demand pending' := by
  induction pending generalizing trees with
  | nil => cases h
  | cons p pending ih =>
    cases p with
    | op op =>
      obtain ⟨trees₁, h₁, h⟩ := Option.bind_eq_some_iff.1 h
      have := length_of_act?_op h₁
      have := ih h
      simp only [demand]
      omega
    | func f =>
      obtain ⟨trees₁, h₁, h⟩ := Option.bind_eq_some_iff.1 h
      have := length_of_act?_func h₁
      have := ih h
      simp only [demand]
      omega
    | paren =>
      cases h
      rfl

/-- A function that is applied takes one tree and leaves one, as an operand. -/
theorem length_of_applyFunc? (h : applyFunc? (pending, trees) = some m) :
    m.trees.length + demand pending = trees.length + demand m.pending ∧ m.afterOperand = true := by
  match pending with
  | [] | .op _ :: _ | .paren :: _ =>
    cases h
    exact ⟨rfl, rfl⟩
  | .func f :: pending =>
    obtain ⟨trees₁, h₁, rfl⟩ := Option.map_eq_some_iff.1 h
    have := length_of_act?_func h₁
    exact ⟨by simp only [demand]; omega, rfl⟩

/-- An operator takes an operand, and demands another one. -/
theorem length_of_binary? (h : m.binary? op = some m') :
    m'.trees.length + demand m.pending + 1 = m.trees.length + demand m'.pending ∧
      m'.afterOperand = false := by
  obtain ⟨⟨pending', trees'⟩, hr, rfl⟩ := Option.map_eq_some_iff.1 h
  have := length_of_release? hr
  exact ⟨by simp only [demand]; omega, rfl⟩

/-- No operator stands where an operand is due, except a sign. -/
theorem Deficient.of_binary? (h : m.binary? op = some m')
    (hm : m.trees.length < demand m.pending + 1) : m'.Deficient := by
  obtain ⟨hlen, hafter⟩ := length_of_binary? h
  simp only [Deficient, hafter]
  omega

/-- An operator leaves a deficient machine deficient. -/
theorem Deficient.operator? (hm : m.Deficient) (h : m.operator? op = some m') : m'.Deficient := by
  have hm' : m.trees.length < demand m.pending + 1 := by
    unfold Deficient at hm
    split at hm <;> omega
  unfold Machine.operator? at h
  split at h
  · exact .of_binary? h hm'
  · split at h
    · cases h
      simp_all [Deficient, demand]
    · cases h
      exact hm
    · exact .of_binary? h hm'

/-- Closing a group leaves a machine deficient that lacks a tree for what waits. -/
theorem Deficient.of_close (h : (closeGroup? m.pending m.trees).bind applyFunc? = some m')
    (hm : m.trees.length < demand m.pending + 1) : m'.Deficient := by
  obtain ⟨⟨pending', trees'⟩, hclose, hfunc⟩ := Option.bind_eq_some_iff.1 h
  have hlen := length_of_closeGroup? hclose
  obtain ⟨hlen', hafter⟩ := length_of_applyFunc? hfunc
  simp only [Deficient, hafter, if_true]
  omega

/-- A lexeme that is read as it stands leaves a deficient machine deficient. -/
theorem Deficient.readPlain? (hm : m.Deficient) (h : m.readPlain? l = some m')
    (hl : l.startsOperand → m.afterOperand = false) : m'.Deficient := by
  cases l with
  | number cs =>
    obtain ⟨trees', h', rfl⟩ := Option.map_eq_some_iff.1 h
    obtain ⟨e, -, rfl⟩ := Option.map_eq_some_iff.1 h'
    simp_all [Deficient, Lexeme.startsOperand]
  | name x =>
    cases h
    simp_all [Deficient, Lexeme.startsOperand]
  | func f =>
    cases h
    simp_all [Deficient, Lexeme.startsOperand, demand]
  | leftParen =>
    cases h
    simp_all [Deficient, Lexeme.startsOperand, demand]
  | rightParen =>
    refine .of_close h ?_
    unfold Deficient at hm
    split at hm <;> omega
  | op op => exact hm.operator? h

/-- Once there are too few trees, there will be too few whatever comes next. -/
theorem Deficient.read? (hm : m.Deficient) (h : m.read? l = some m') : m'.Deficient := by
  obtain ⟨m₁, h₁, h⟩ := Option.bind_eq_some_iff.1 h
  split at h₁
  · next hl =>
    rw [Bool.and_eq_true] at hl
    have hm₁ : m₁.Deficient := by
      refine .of_binary? h₁ ?_
      simpa [Deficient, hl.1] using hm
    exact hm₁.readPlain? h fun _ => (length_of_binary? h₁).2
  · next hl =>
    cases h₁
    exact hm.readPlain? h fun hl' => by simpa [hl'] using hl

/-- With too few trees, the end of the formula is refused. -/
theorem finish?_eq_none (h : trees.length ≤ demand pending) : finish? pending trees = none := by
  induction pending generalizing trees with
  | nil =>
    match trees, h with
    | [], _ => rfl
  | cons p pending ih =>
    cases p with
    | op op =>
      refine Option.bind_eq_none_iff.2 fun trees' h' => ih ?_
      have := length_of_act?_op h'
      simp only [demand] at h
      omega
    | func f =>
      refine Option.bind_eq_none_iff.2 fun trees' h' => ih ?_
      have := length_of_act?_func h'
      simp only [demand] at h
      omega
    | paren => rfl

/-- A machine that lacks a tree accepts nothing. -/
theorem Deficient.run?_eq_none (hm : m.Deficient) : m.run? ls = none := by
  induction ls generalizing m with
  | nil =>
    refine finish?_eq_none ?_
    unfold Deficient at hm
    split at hm <;> omega
  | cons l ls ih => exact Option.bind_eq_none_iff.2 fun m' h => ih (hm.read? h)

end Machine

end Parsing

end ComputerAlgebra
