import ComputerAlgebra.Proofs.Parsing.Precedence
import ComputerAlgebra.Proofs.Parsing.Scanning

/-!
# The trees that formulas denote

Formulas write integers without a sign, sums and products of two operands, and `-1` only as a factor
in front. A tree that was read is of this kind (`isFormula_of_parse`).
-/

namespace ComputerAlgebra

open Parsing

/-- A run of word characters that calls no function. -/
structure IsVariableName (x : String) : Prop where
  ne_nil : x.toList ≠ []
  word : ∀ c ∈ x.toList, CharClass.of c = .word
  not_func : Func.ofName? x = none

namespace Expr

/-- The trees of formulas without equality sign. -/
inductive IsTerm : Expr → Prop where
  | var {x : String} (h : IsVariableName x) : IsTerm (.var x)
  | num {n : Int64} (h : 0 ≤ n) : IsTerm (.num n)
  | sum {a b : Expr} (ha : IsTerm a) (hb : IsTerm b) : IsTerm (.sum [a, b])
  | prod {a b : Expr} (ha : IsTerm a) (hb : IsTerm b) : IsTerm (.prod [a, b])
  | negate {b : Expr} (hb : IsTerm b) : IsTerm (.prod [.num (-1), b])
  | quot {a b : Expr} (ha : IsTerm a) (hb : IsTerm b) : IsTerm (.quot a b)
  | pow {a b : Expr} (ha : IsTerm a) (hb : IsTerm b) : IsTerm (.pow a b)
  | app (f : Func) {a : Expr} (ha : IsTerm a) : IsTerm (.app f a)

/-- The trees of formulas: a term, or an equation of two terms. -/
inductive IsFormula : Expr → Prop where
  | term {e : Expr} (h : IsTerm e) : IsFormula e
  | eqn {l r : Expr} (hl : IsTerm l) (hr : IsTerm r) : IsFormula (.eqn l r)

end Expr

namespace Parsing

open ComputerAlgebra.Expr

namespace Grammar

/-! ### Readers -/

theorem isTerm_of_literal? {cs : List Char} {e : Expr} (h : literal? cs = some e) : e.IsTerm := by
  have hnonneg : ∀ {n : Nat}, n < 2 ^ 63 → IsTerm (.num (.ofNat n)) := fun {n} hn => by
    refine .num ?_
    rw [Int64.le_iff_toInt_le, Int64.toInt_ofNat_of_lt hn, Int64.toInt_zero]
    exact Int.natCast_nonneg n
  rw [literal?] at h
  split_ifs at h with hbad hplaces
  · cases h
    exact hnonneg (by omega)
  · cases h
    exact .quot (hnonneg (by omega)) (hnonneg (by omega))

/-- Operators make terms of terms. -/
theorem isTerm_combine {a b : Expr} (op : Operator) (ha : a.IsTerm) (hb : b.IsTerm) :
    (combine op a b).IsTerm := by
  cases op with
  | add => exact .sum ha hb
  | sub => exact .sum ha (.negate hb)
  | mul => exact .prod ha hb
  | div => exact .quot ha hb
  | pow => exact .pow ha hb

/-- The names among the lexemes are names of variables. -/
def Proper (ls : List Lexeme) : Prop := ∀ x, .name x ∈ ls → IsVariableName x

theorem Proper.tail {l : Lexeme} {ls : List Lexeme} (h : Proper (l :: ls)) : Proper ls :=
  fun x hx => h x (List.mem_cons_of_mem l hx)

theorem Proper.nextOperator? {op : Operator} {ls right : List Lexeme} (h : Proper ls)
    (hop : nextOperator? ls = some (op, right)) : Proper right := by
  unfold Grammar.nextOperator? at hop
  split at hop
  · cases hop
    exact h.tail
  · split at hop <;> cases hop
    exact h
  · cases hop

theorem Proper.afterParen? {ls inner : List Lexeme} (h : Proper ls)
    (hinner : afterParen? ls = some inner) : Proper inner := by
  induction ls using Grammar.afterParen?.induct with
  | case1 ls ih => exact ih h.tail hinner
  | case2 ls =>
    cases hinner
    exact h.tail
  | case3 ls hadd hparen => simp_all [Grammar.afterParen?]

/-- A reading of a term that leaves proper names. -/
structure Reading.IsTerm {n : Nat} (r : Reading n) : Prop where
  tree : r.tree.IsTerm
  rest : Proper r.rest

theorem Reading.IsTerm.map {m n : Nat} {r : Reading m} {f : Expr → Expr} {hle : m ≤ n}
    (h : r.IsTerm) (hf : ∀ e : Expr, e.IsTerm → (f e).IsTerm) : (r.map f hle).IsTerm :=
  ⟨hf _ h.tree, h.rest⟩

mutual

/-- An operand of proper lexemes is a term. This and the next three go by the recursion of the
reader. -/
theorem isTerm_operand (ls : List Lexeme) (hls : Proper ls) :
    ∀ r, operand ls = some r → r.IsTerm := by
  intro r h
  -- by the lexeme that comes first; the rest of the operand is shorter
  match ls with
  | [] =>
    rw [Machine.operand_nil] at h
    cases h
  | .number cs :: ls =>
    rw [operand] at h
    obtain ⟨e, he, rfl⟩ := Option.map_eq_some_iff.1 h
    exact ⟨isTerm_of_literal? he, hls.tail⟩
  | .name x :: ls =>
    rw [operand] at h
    cases h
    exact ⟨.var (hls x List.mem_cons_self), hls.tail⟩
  | .leftParen :: ls =>
    rw [operand] at h
    obtain ⟨r, hr, rfl⟩ := Option.map_eq_some_iff.1 h
    exact (isTerm_group ls hls.tail r hr).map fun _ he => he
  | .op .add :: ls =>
    rw [operand] at h
    obtain ⟨r, hr, rfl⟩ := Option.map_eq_some_iff.1 h
    exact (isTerm_operand ls hls.tail r hr).map fun _ he => he
  | .op .sub :: ls =>
    rw [operand] at h
    obtain ⟨r, hr, rfl⟩ := Option.map_eq_some_iff.1 h
    exact (isTerm_climb 3 ls hls.tail r hr).map fun _ he => .negate he
  | .func f :: ls =>
    rw [operand] at h
    split at h
    · next inner hinner =>
      have hlt := length_lt_of_afterParen? hinner
      obtain ⟨r, hr, rfl⟩ := Option.map_eq_some_iff.1 h
      exact (isTerm_group inner (hls.tail.afterParen? hinner) r hr).map fun _ he => .app f he
    · obtain ⟨r, hr, rfl⟩ := Option.map_eq_some_iff.1 h
      exact (isTerm_climb 1 ls hls.tail r hr).map fun _ he => .app f he
  | .rightParen :: ls | .op .mul :: ls | .op .div :: ls | .op .pow :: ls =>
    rw [Machine.operand_eq_none rfl (by simp)] at h
    cases h
termination_by (ls.length, 0)
decreasing_by
  · exact Prod.Lex.left _ _ (by simp)
  · exact Prod.Lex.left _ _ (by simp)
  · exact Prod.Lex.left _ _ (by simp)
  · exact Prod.Lex.left _ _ (hlt.trans (by simp))
  · exact Prod.Lex.left _ _ (by simp)

theorem isTerm_group (ls : List Lexeme) (hls : Proper ls) :
    ∀ r, group ls = some r → r.IsTerm := by
  intro r h
  rw [group] at h
  split at h
  · next e rest hlt hr =>
    cases h
    have hr := isTerm_climb 1 ls hls _ hr
    exact ⟨hr.tree, hr.rest.tail⟩
  · cases h
termination_by (ls.length, 2)

theorem isTerm_climb (level : Nat) (ls : List Lexeme) (hls : Proper ls) :
    ∀ r, climb level ls = some r → r.IsTerm := by
  intro r h
  rw [climb] at h
  obtain ⟨r₁, h₁, h⟩ := Option.bind_eq_some_iff.1 h
  obtain ⟨r₂, h₂, rfl⟩ := Option.map_eq_some_iff.1 h
  have hr₁ := isTerm_operand ls hls r₁ h₁
  exact (isTerm_extend level r₁.tree r₁.rest hr₁.tree hr₁.rest r₂ h₂).map fun _ he => he
termination_by (ls.length, 1)
decreasing_by
  · exact Prod.Lex.right _ (by decide)
  · exact Prod.Lex.left _ _ r₁.lt

theorem isTerm_extend (level : Nat) (left : Expr) (ls : List Lexeme) (hleft : left.IsTerm)
    (hls : Proper ls) : ∀ r, extend level left ls = some r → r.IsTerm := by
  intro r h
  rw [extend] at h
  split at h
  · next op right hop =>
    have hle := length_le_of_nextOperator? hop
    split_ifs at h
    · obtain ⟨r₁, h₁, h⟩ := Option.bind_eq_some_iff.1 h
      obtain ⟨r₂, h₂, rfl⟩ := Option.map_eq_some_iff.1 h
      have hlt := r₁.lt.trans_le hle
      have hr₁ := isTerm_climb (rightLevel op) right (hls.nextOperator? hop) r₁ h₁
      have hr₂ := isTerm_extend level _ r₁.rest (isTerm_combine op hleft hr₁.tree) hr₁.rest r₂ h₂
      exact hr₂.map fun _ he => he
    · cases h
      exact ⟨hleft, hls⟩
  · cases h
    exact ⟨hleft, hls⟩
termination_by (ls.length, 2)
decreasing_by
  · rcases hle.lt_or_eq with hlt | heq
    · exact Prod.Lex.left _ _ hlt
    · rw [heq]
      exact Prod.Lex.right _ (by decide)
  · exact Prod.Lex.left _ _ hlt

end

theorem isTerm_of_read? {ls : List Lexeme} {e : Expr} (hls : Proper ls)
    (h : Grammar.read? ls = some e) : e.IsTerm := by
  rw [Grammar.read?] at h
  split at h
  · next hr =>
    cases h
    exact (isTerm_climb 1 ls hls _ hr).tree
  · cases h

end Grammar

/-! ### Tokens -/

/-- A name in a formula is one that a variable can have, since it comes from a run of word
characters that names no function. -/
theorem isVariableName_of_lexeme {t : Token} {x : String} {span : Span} (ht : t.IsUniform)
    (h : t.lexeme = .ok ⟨.name x, span⟩) : IsVariableName x := by
  unfold Token.lexeme at h
  split at h
  · cases h
  · next hcls =>
    split at h
    · cases h
    · next hfunc =>
      cases h
      refine ⟨by simpa [Token.text] using ht.ne_nil, fun c hc => ?_, hfunc⟩
      rw [Token.text, String.toList_ofList] at hc
      rw [ht.of_mem c hc, hcls]
  · split at h
    · next l hl =>
      cases h
      unfold Lexeme.ofSymbol? at hl
      split_ifs at hl <;> simp at hl
    · cases h

/-- Classifying tokens is classifying each of them. -/
theorem mapM_lexeme_eq_ok_iff {ts : List Token} {ls : List (Located Lexeme)} :
    ts.mapM Token.lexeme = .ok ls ↔ List.Forall₂ (fun t l => t.lexeme = .ok l) ts ls := by
  rw [← toOption_eq_some_iff]
  induction ts generalizing ls with
  | nil => cases ls <;> simp
  | cons t ts ih =>
    rw [ReversePolish.toOption_mapM_cons, Option.bind_eq_some_iff]
    simp only [toOption_eq_some_iff, Option.map_eq_some_iff, ih, List.forall₂_cons_left_iff]
    constructor
    · rintro ⟨l, hl, ls, hls, rfl⟩
      exact ⟨l, ls, hl, hls, rfl⟩
    · rintro ⟨l, ls, hl, hls, rfl⟩
      exact ⟨l, hl, ls, hls, rfl⟩

theorem proper_of_mapM {ts : List Token} {ls : List (Located Lexeme)}
    (hts : ∀ t ∈ ts, t.IsUniform) (h : ts.mapM Token.lexeme = .ok ls) :
    Grammar.Proper (ls.map Located.value) := by
  rw [mapM_lexeme_eq_ok_iff] at h
  induction h with
  | nil => exact nofun
  | @cons t l ts ls ht _ ih =>
    rw [List.forall_mem_cons] at hts
    intro x hx
    rcases List.mem_cons.1 hx with hl | hx
    · obtain ⟨_, span⟩ := l
      cases hl
      exact isVariableName_of_lexeme hts.1 ht
    · exact ih hts.2 x hx

theorem isTerm_of_readSide {ts : List Token} {e : Expr} (hts : ∀ t ∈ ts, t.IsUniform)
    (h : readSide ts = .ok e) : e.IsTerm := by
  rw [readSide] at h
  split_ifs at h
  have hread := toOption_build_ofTokens_eq_read? ts
  rw [h, ReversePolish.toOption_ok, eq_comm, Option.bind_eq_some_iff] at hread
  obtain ⟨ls, hls, hread⟩ := hread
  exact Grammar.isTerm_of_read? (proper_of_mapM hts (toOption_eq_some_iff.1 hls)) hread

/-- What is read of uniform tokens is a formula. -/
theorem isFormula_of_readTokens {ts : List Token} {e : Expr} (hts : ∀ t ∈ ts, t.IsUniform)
    (h : readTokens ts = .ok e) : e.IsFormula := by
  unfold readTokens at h
  split at h
  · exact .term (isTerm_of_readSide hts h)
  · next left equals right hspan =>
    rw [List.span_eq_takeWhile_dropWhile, Prod.mk.injEq] at hspan
    have happend := List.takeWhile_append_dropWhile (p := fun t : Token => !t.isEquals) (l := ts)
    rw [hspan.1, hspan.2] at happend
    subst happend
    rw [List.forall_mem_append, List.forall_mem_cons] at hts
    split_ifs at h
    cases hl : readSide left with
    | error fault =>
      rw [hl] at h
      cases h
    | ok l =>
      cases hr : readSide right with
      | error fault =>
        rw [hl, hr] at h
        cases h
      | ok r =>
        rw [hl, hr] at h
        cases h
        exact .eqn (isTerm_of_readSide hts.1 hl) (isTerm_of_readSide hts.2.2 hr)

/-- What is parsed is a formula, since the tokens of a text are uniform. -/
theorem isFormula_of_parse {text : String} {e : Expr} (h : Expr.parse text = .ok e) :
    e.IsFormula := by
  rw [Expr.parse] at h
  cases hts : readTokens (Token.ofText text) with
  | error fault =>
    rw [hts] at h
    cases h
  | ok e' =>
    rw [hts] at h
    cases h
    exact isFormula_of_readTokens (fun t => Token.isUniform_of_mem_scan) hts

end Parsing

end ComputerAlgebra
