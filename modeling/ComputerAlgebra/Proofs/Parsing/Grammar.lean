import ComputerAlgebra.Parsing.Formula
import Mathlib

/-!
# The grammar of formulas

A formula without equality sign, read by recursive descent with precedence climbing. `+` and `-`
bind less tightly than `*`, `/` and juxtaposition, and these less tightly than `^`, which alone
associates to the right. The reader works on lexemes and knows nothing of operators that wait.
-/

namespace ComputerAlgebra

namespace Parsing

namespace Grammar

/-! ### Literals -/

/-- The number of characters after the first point. -/
def places (cs : List Char) : Nat := (cs.dropWhile (· ≠ '.')).length - 1

/-- The number that all the digits write together. -/
def digitsNumber (cs : List Char) : Nat :=
  Nat.ofDigits 10 ((cs.filter (· ≠ '.')).map fun d => d.toNat - '0'.toNat).reverse

/-- The tree of a literal: `d` over `10 ^ k` for digits `d` with `k` of them after the point, and
`d` itself if `k` is `0`. -/
def literal? (cs : List Char) : Option Expr :=
  if cs.filter (· ≠ '.') = [] ∨ 1 < cs.count '.' ∨ 2 ^ 63 ≤ digitsNumber cs ∨
      2 ^ 63 ≤ 10 ^ places cs then none
  else if places cs = 0 then some (.num (.ofNat (digitsNumber cs)))
  else some (.quot (.num (.ofNat (digitsNumber cs))) (.num (.ofNat (10 ^ places cs))))

/-! ### Reading -/

/-- A tree that was read from fewer than `n` lexemes, and what is left of them. -/
structure Reading (n : Nat) where
  tree : Expr
  rest : List Lexeme
  lt : rest.length < n

/-- Build on a reading, which may have been part of a longer text. -/
def Reading.map {m n : Nat} (f : Expr → Expr) (h : m ≤ n) (r : Reading m) : Reading n :=
  ⟨f r.tree, r.rest, r.lt.trans_le h⟩

@[simp] theorem Reading.map_tree {m n : Nat} (f : Expr → Expr) (h : m ≤ n) (r : Reading m) :
    (r.map f h).tree = f r.tree := rfl

@[simp] theorem Reading.map_rest {m n : Nat} (f : Expr → Expr) (h : m ≤ n) (r : Reading m) :
    (r.map f h).rest = r.rest := rfl

/-- The operator that follows an operand, and where its right operand begins. An operand that
follows directly is a factor. -/
def nextOperator? : List Lexeme → Option (Operator × List Lexeme)
  | .op op :: ls => some (op, ls)
  | l :: ls => if l.startsOperand then some (.mul, l :: ls) else none
  | [] => none

/-- What follows an opening parenthesis, of which only plus signs may stand in front. -/
def afterParen? : List Lexeme → Option (List Lexeme)
  | .op .add :: ls => afterParen? ls
  | .leftParen :: ls => some ls
  | _ => none

/-- How tightly the operators of a right operand bind at least. -/
def rightLevel (op : Operator) : Nat :=
  if op.isRightAssoc then op.precedence else op.precedence + 1

/-- What stands behind an operator is no longer than the rest. -/
theorem length_le_of_nextOperator? {op : Operator} {ls right : List Lexeme}
    (h : nextOperator? ls = some (op, right)) : right.length ≤ ls.length := by
  unfold nextOperator? at h
  split at h
  · cases h
    simp
  · split at h <;> cases h
    exact le_rfl
  · cases h

/-- What stands behind a parenthesis is shorter, so that reading a group ends. -/
theorem length_lt_of_afterParen? {ls inner : List Lexeme} (h : afterParen? ls = some inner) :
    inner.length < ls.length := by
  induction ls using afterParen?.induct with
  | case1 ls ih =>
    rw [afterParen?] at h
    exact (ih h).trans (by simp)
  | case2 ls =>
    cases h
    simp
  | case3 ls hadd hparen => simp_all [afterParen?]

mutual

/-- Read one operand. A plus sign in front of it is ignored, and a minus sign makes it negative
together with its exponents. A function in front of a group takes the group alone, and any other
function takes all that it can. -/
def operand : (ls : List Lexeme) → Option (Reading ls.length)
  | .number cs :: ls => (literal? cs).map fun e => ⟨e, ls, by simp⟩
  | .name x :: ls => some ⟨.var x, ls, by simp⟩
  | .leftParen :: ls => (group ls).map (·.map id (by simp))
  | .op .add :: ls => (operand ls).map (·.map id (by simp))
  | .op .sub :: ls => (climb 3 ls).map (·.map .negate (by simp))
  | .func f :: ls =>
    match h : afterParen? ls with
    | some inner =>
      (group inner).map (·.map (.app f) (length_lt_of_afterParen? h).le.step)
    | none => (climb 1 ls).map (·.map (.app f) (by simp))
  | _ => none
termination_by ls => (ls.length, 0)
decreasing_by
  · exact Prod.Lex.left _ _ (by simp)
  · exact Prod.Lex.left _ _ (by simp)
  · exact Prod.Lex.left _ _ (by simp)
  · exact Prod.Lex.left _ _ ((length_lt_of_afterParen? h).trans (by simp))
  · exact Prod.Lex.left _ _ (by simp)

/-- Read an expression and the parenthesis that closes it. -/
def group (ls : List Lexeme) : Option (Reading ls.length) :=
  match climb 1 ls with
  | some ⟨e, .rightParen :: rest, h⟩ => some ⟨e, rest, Nat.lt_of_succ_lt h⟩
  | _ => none
termination_by (ls.length, 2)

/-- Read an expression whose operators bind at least as tightly as the level says. -/
def climb (level : Nat) (ls : List Lexeme) : Option (Reading ls.length) :=
  (operand ls).bind fun r => (extend level r.tree r.rest).map (·.map id r.lt)
termination_by (ls.length, 1)
decreasing_by
  · exact Prod.Lex.right _ (by decide)
  · exact Prod.Lex.left _ _ r.lt

/-- Go on after the expression on the left as long as operators bind tightly enough. -/
def extend (level : Nat) (left : Expr) (ls : List Lexeme) : Option (Reading (ls.length + 1)) :=
  match h : nextOperator? ls with
  | some (op, right) =>
    if level ≤ op.precedence then
      (climb (rightLevel op) right).bind fun r =>
        (extend level (combine op left r.tree) r.rest).map
          (·.map id (Nat.succ_le_succ (r.lt.le.trans (length_le_of_nextOperator? h))))
    else some ⟨left, ls, ls.length.lt_succ_self⟩
  | none => some ⟨left, ls, ls.length.lt_succ_self⟩
termination_by (ls.length, 2)
decreasing_by
  · rcases (length_le_of_nextOperator? h).lt_or_eq with hlt | heq
    · exact Prod.Lex.left _ _ hlt
    · rw [heq]
      exact Prod.Lex.right _ (by decide)
  · exact Prod.Lex.left _ _ (r.lt.trans_le (length_le_of_nextOperator? h))

end

/-- Read a formula to its end. -/
def read? (ls : List Lexeme) : Option Expr :=
  match climb 1 ls with
  | some ⟨e, [], _⟩ => some e
  | _ => none

end Grammar

end Parsing

end ComputerAlgebra
