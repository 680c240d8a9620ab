import ComputerAlgebra.Proofs.Parsing.Balance
import ComputerAlgebra.Proofs.Parsing.Literal

/-!
# The scan reads the grammar

Running the machine on lexemes is reading them by recursive descent and going on with what is left.
This holds of every reader of the grammar, by recursion along its calls; the operators that wait
when a reader is called bind too loosely to be called for while it runs.
-/

namespace ComputerAlgebra

namespace Parsing

open ReversePolish (Item Pending calls toOption_ok toOption_error)
open Grammar

namespace Machine

variable {new op : Operator} {pending : List Pending} {trees : List Expr} {a b : Expr} {f : Func}
  {l : Lexeme} {ls inner : List Lexeme} {level : Nat}

/-! ### What waits -/

/-- No operator of the level calls for what waits. -/
def Blocks (level : Nat) (pending : List Pending) : Prop :=
  ∀ op rest, pending = .op op :: rest → rightLevel op ≤ level

/-- No function waits for a group that comes next. -/
def Direct (pending : List Pending) (ls : List Lexeme) : Prop :=
  ∀ f rest, pending = .func f :: rest → afterParen? ls = none

/-- An operator whose right operand begins no higher than at the level does not call for more. -/
theorem Blocks.of_op (h : rightLevel op ≤ level) : Blocks level (.op op :: pending) := by
  rintro _ _ ⟨⟩
  exact h

theorem Blocks.of_func : Blocks level (.func f :: pending) := nofun

theorem Blocks.of_paren : Blocks level (.paren :: pending) := nofun

theorem Direct.of_op : Direct (.op op :: pending) ls := nofun

theorem Direct.of_paren : Direct (.paren :: pending) ls := nofun

/-- An operator calls for a waiting one unless it belongs to its right operand. -/
theorem calls_iff : calls new op ↔ new.precedence < rightLevel op := by
  cases new <;> cases op <;> decide

/-- What waits and is blocked stays where it is when a new operator of the level is read. -/
theorem release?_of_blocks (h : Blocks level pending) (hnew : level ≤ new.precedence) :
    release? new pending trees = some (pending, trees) := by
  match pending with
  | [] | .func _ :: _ | .paren :: _ => rfl
  | .op op :: rest =>
    have hcalls : ¬calls new op := by
      rw [calls_iff]
      have := h op rest rfl
      omega
    rw [release?, if_neg hcalls]

/-! ### Operators and operands -/

/-- Behind an operand the machine reads an operator where the grammar sees one, an implied
multiplication included. -/
theorem run?_binary (hop : nextOperator? ls = some (op, inner)) :
    run? ⟨trees, pending, true⟩ ls =
      (binary? ⟨trees, pending, true⟩ op).bind (run? · inner) := by
  unfold nextOperator? at hop
  split at hop
  · cases hop
    rfl
  · next l ls _ =>
    split at hop <;> cases hop
    next hl =>
    have hplain : ∀ r : List Pending × List Expr,
        run? ⟨r.2, .op .mul :: r.1, false⟩ (l :: ls) =
          (readPlain? ⟨r.2, .op .mul :: r.1, false⟩ l).bind (run? · ls) := fun _ => rfl
    have hread : read? ⟨trees, pending, true⟩ l =
        (binary? ⟨trees, pending, true⟩ .mul).bind (readPlain? · l) := by
      rw [read?, if_pos (by simpa using hl)]
    rw [run?, hread, Option.bind_assoc, binary?, Option.bind_map, Option.bind_map]
    rfl
  · cases hop

/-- The machine reads an operator of the level with everything on its left as one operand. -/
theorem run?_next (h : Blocks level pending) (hop : nextOperator? ls = some (op, inner))
    (hlevel : level ≤ op.precedence) :
    run? ⟨trees, pending, true⟩ ls = run? ⟨trees, .op op :: pending, false⟩ inner := by
  rw [run?_binary hop, binary?, release?_of_blocks h hlevel]
  rfl

/-- What may follow a finished expression of the level. -/
def Stops (level : Nat) (ls : List Lexeme) : Prop :=
  ∀ op inner, nextOperator? ls = some (op, inner) → op.precedence < level

/-- Nothing but a closing parenthesis or the end follows where no operator does. -/
theorem eq_nil_or_of_nextOperator? (h : nextOperator? ls = none) :
    ls = [] ∨ ∃ rest, ls = .rightParen :: rest := by
  match ls with
  | [] => exact .inl rfl
  | .rightParen :: rest => exact .inr ⟨rest, rfl⟩
  | .number _ :: _ | .name _ :: _ | .func _ :: _ | .leftParen :: _ | .op _ :: _ => cases h

/-- Where reading stops at the lowest level, no operator follows. -/
theorem Stops.nextOperator? (h : Stops 1 ls) : Grammar.nextOperator? ls = none := by
  cases hop : Grammar.nextOperator? ls with
  | none => rfl
  | some r =>
    have := h r.1 r.2 hop
    cases hr : r.1 <;> simp_all [Operator.precedence]

/-- A finished right operand is put together with its operator. -/
theorem run?_combine (h : Stops (rightLevel op) ls) :
    run? ⟨b :: a :: trees, .op op :: pending, true⟩ ls =
      run? ⟨combine op a b :: trees, pending, true⟩ ls := by
  cases hop : Grammar.nextOperator? ls with
  | none =>
    rcases eq_nil_or_of_nextOperator? hop with rfl | ⟨rest, rfl⟩ <;> rfl
  | some r =>
    have hcalls : calls r.1 op := calls_iff.2 (h r.1 r.2 hop)
    rw [run?_binary hop, run?_binary hop, binary?, release?, if_pos hcalls]
    rfl

/-- A finished argument is put together with its function. -/
theorem run?_app (h : Stops 1 ls) :
    run? ⟨a :: trees, .func f :: pending, true⟩ ls =
      run? ⟨.app f a :: trees, pending, true⟩ ls := by
  rcases eq_nil_or_of_nextOperator? h.nextOperator? with rfl | ⟨rest, rfl⟩ <;> rfl

/-- A parenthesis opens a group on the machine where the grammar sees one. -/
theorem run?_afterParen (h : afterParen? ls = some inner) :
    run? ⟨trees, pending, false⟩ ls = run? ⟨trees, .paren :: pending, false⟩ inner := by
  induction ls using afterParen?.induct with
  | case1 ls ih => exact ih h
  | case2 ls =>
    cases h
    rfl
  | case3 ls hadd hparen => simp_all [afterParen?]

/-! ### The readers -/

/-- Extending an operand stops only where nothing of the level can extend it further. -/
theorem stops_extend {level : Nat} {left : Expr} {ls : List Lexeme} {r : Reading (ls.length + 1)}
    (h : extend level left ls = some r) : Stops level r.rest := by
  rw [extend] at h
  split at h
  · next op right hop =>
    split_ifs at h with hlevel
    · obtain ⟨r₁, h₁, h⟩ := Option.bind_eq_some_iff.1 h
      obtain ⟨r₂, h₂, rfl⟩ := Option.map_eq_some_iff.1 h
      have hlt : r₁.rest.length < ls.length := r₁.lt.trans_le (length_le_of_nextOperator? hop)
      have hstops := stops_extend h₂
      exact hstops
    · cases h
      intro op' right' hop'
      rw [hop] at hop'
      cases hop'
      omega
  · next hop =>
    cases h
    intro op' right' hop'
    rw [hop] at hop'
    cases hop'
termination_by ls.length
decreasing_by exact hlt

/-- Reading from a level on stops only where nothing of the level follows. -/
theorem stops_climb {r : Reading ls.length} (h : climb level ls = some r) :
    Stops level r.rest := by
  rw [climb] at h
  obtain ⟨r₁, -, h⟩ := Option.bind_eq_some_iff.1 h
  obtain ⟨r₂, h₂, rfl⟩ := Option.map_eq_some_iff.1 h
  exact stops_extend h₂

theorem operand_nil : operand [] = none := by
  rw [operand] <;> simp

/-- What starts no operand and is no sign is no operand. -/
theorem operand_eq_none (hl : l.startsOperand = false) (hsign : l ≠ .op .add ∧ l ≠ .op .sub) :
    operand (l :: ls) = none := by
  cases l <;> simp_all [operand, Lexeme.startsOperand]

/-- Where no operand begins, the machine accepts nothing. -/
theorem run?_misplaced (hbal : trees.length = demand pending) (hl : l.startsOperand = false)
    (hsign : l ≠ .op .add ∧ l ≠ .op .sub) : run? ⟨trees, pending, false⟩ (l :: ls) = none := by
  refine Option.bind_eq_none_iff.2 fun m h => Deficient.run?_eq_none ?_
  have hlt : trees.length < demand pending + 1 := by omega
  match l with
  | .rightParen => exact .of_close (m := ⟨trees, pending, false⟩) h hlt
  | .op .mul | .op .div | .op .pow => exact .of_binary? (m := ⟨trees, pending, false⟩) h hlt

mutual

/-- The machine reads an operand where one is due. -/
theorem run?_operand (ls : List Lexeme) (trees : List Expr) (pending : List Pending)
    (hbal : trees.length = demand pending) (hdirect : Direct pending ls) :
    run? ⟨trees, pending, false⟩ ls =
      (operand ls).bind fun r => run? ⟨r.tree :: trees, pending, true⟩ r.rest := by
  match ls with
  | [] =>
    rw [operand_nil]
    exact finish?_eq_none hbal.le
  | .number cs :: ls =>
    rw [operand, literal?_eq_readNumeral?]
    cases h : readNumeral? cs <;> simp [run?, read?, readPlain?, act?, h]
  | .name x :: ls =>
    rw [operand]
    rfl
  | .leftParen :: ls =>
    -- behind a group nothing waits for it, since no function is called directly
    have hfunc : ∀ e, applyFunc? (pending, e :: trees) = some ⟨e :: trees, pending, true⟩ := by
      intro e
      match pending, hdirect with
      | [], _ | .op _ :: _, _ | .paren :: _, _ => rfl
      | .func f :: rest, hdirect => cases hdirect f rest rfl
    have h := run?_group ls trees pending hbal
    simp only [hfunc, Option.bind_some] at h
    rw [operand, Option.bind_map]
    exact h
  | .op .add :: ls =>
    have h := run?_operand ls trees pending hbal fun f rest hp => hdirect f rest hp
    rw [operand, Option.bind_map]
    exact h
  | .op .sub :: ls =>
    -- a sign waits as a product with `-1`, whose right operand is read from the level of powers on
    have h := run?_climb 3 ls (.num (-1) :: trees) (.op .mul :: pending) (by simp [demand, hbal])
      .of_op (.of_op (by decide))
    rw [operand, Option.bind_map]
    refine h.trans (Option.bind_congr fun r hr => ?_)
    exact run?_combine (stops_climb hr)
  -- a function takes the group that follows it, or else all factors of a product
  | .func f :: ls =>
    rw [operand]
    split
    · next inner hinner =>
      have hlt := length_lt_of_afterParen? hinner
      have h := run?_group inner trees (.func f :: pending) hbal
      rw [Option.bind_map]
      exact (run?_afterParen hinner).trans h
    · next hnone =>
      have h := run?_climb 1 ls trees (.func f :: pending) hbal (fun _ _ _ => hnone) .of_func
      rw [Option.bind_map]
      exact h.trans (Option.bind_congr fun r hr => run?_app (stops_climb hr))
  | .rightParen :: ls | .op .mul :: ls | .op .div :: ls | .op .pow :: ls =>
    rw [operand_eq_none rfl (by simp)]
    exact run?_misplaced hbal rfl (by simp)
termination_by (ls.length, 0)
decreasing_by
  · exact Prod.Lex.left _ _ (by simp)
  · exact Prod.Lex.left _ _ (by simp)
  · exact Prod.Lex.left _ _ (by simp)
  · exact Prod.Lex.left _ _ (hlt.trans (by simp))
  · exact Prod.Lex.left _ _ (by simp)

/-- The machine reads an expression and the parenthesis that closes it. -/
theorem run?_group (ls : List Lexeme) (trees : List Expr) (pending : List Pending)
    (hbal : trees.length = demand pending) :
    run? ⟨trees, .paren :: pending, false⟩ ls =
      (group ls).bind fun r => (applyFunc? (pending, r.tree :: trees)).bind (run? · r.rest) := by
  have h := run?_climb 1 ls trees (.paren :: pending) hbal .of_paren .of_paren
  rw [h, group]
  cases hr : climb 1 ls with
  | none => rfl
  | some r =>
    obtain ⟨e, rest, hlt⟩ := r
    rcases eq_nil_or_of_nextOperator? (stops_climb hr).nextOperator? with hrest | ⟨rest', hrest⟩
    · cases hrest
      rfl
    · cases hrest
      rfl
termination_by (ls.length, 2)

/-- The machine reads an expression of a level where an operand is due. -/
theorem run?_climb (level : Nat) (ls : List Lexeme) (trees : List Expr) (pending : List Pending)
    (hbal : trees.length = demand pending) (hdirect : Direct pending ls)
    (hblocks : Blocks level pending) :
    run? ⟨trees, pending, false⟩ ls =
      (climb level ls).bind fun r => run? ⟨r.tree :: trees, pending, true⟩ r.rest := by
  rw [run?_operand ls trees pending hbal hdirect, climb, Option.bind_assoc]
  refine Option.bind_congr fun r _ => ?_
  rw [run?_extend level r.tree r.rest trees pending hbal hblocks, Option.bind_map]
  rfl
termination_by (ls.length, 1)
decreasing_by
  · exact Prod.Lex.right _ (by decide)
  · exact Prod.Lex.left _ _ r.lt

/-- The machine goes on after an expression on the left. -/
theorem run?_extend (level : Nat) (left : Expr) (ls : List Lexeme) (trees : List Expr)
    (pending : List Pending) (hbal : trees.length = demand pending)
    (hblocks : Blocks level pending) :
    run? ⟨left :: trees, pending, true⟩ ls =
      (extend level left ls).bind fun r => run? ⟨r.tree :: trees, pending, true⟩ r.rest := by
  rw [extend]
  split
  · next op right hop =>
    have hle := length_le_of_nextOperator? hop
    split_ifs with hlevel
    · rw [run?_next hblocks hop hlevel,
        run?_climb (rightLevel op) right (left :: trees) (.op op :: pending)
          (by simp [demand, hbal]) .of_op (.of_op le_rfl),
        Option.bind_assoc]
      refine Option.bind_congr fun r hr => ?_
      have hlt := r.lt.trans_le hle
      rw [run?_combine (stops_climb hr),
        run?_extend level (combine op left r.tree) r.rest trees pending hbal hblocks,
        Option.bind_map]
      rfl
    · rfl
  · rfl
termination_by (ls.length, 2)
decreasing_by
  · rcases hle.lt_or_eq with hlt | heq
    · exact Prod.Lex.left _ _ hlt
    · rw [heq]
      exact Prod.Lex.right _ (by decide)
  · exact Prod.Lex.left _ _ hlt

end

/-- The machine accepts what the grammar reads, with the same tree. -/
theorem run?_eq_read? (ls : List Lexeme) : run? ⟨[], [], false⟩ ls = Grammar.read? ls := by
  rw [run?_climb 1 ls [] [] rfl nofun nofun, Grammar.read?]
  cases hr : climb 1 ls with
  | none => rfl
  | some r =>
    obtain ⟨e, rest, hlt⟩ := r
    rcases eq_nil_or_of_nextOperator? (stops_climb hr).nextOperator? with hrest | ⟨rest', hrest⟩
    · cases hrest
      rfl
    · cases hrest
      rfl

end Machine

/-- Reordering and building is reading by the grammar, apart from the fault. -/
theorem toOption_build_ofTokens_eq_read? (ts : List Token) :
    (do build (← ReversePolish.ofTokens ts)).toOption =
      (ts.mapM Token.lexeme).toOption.bind fun ls => Grammar.read? (ls.map Located.value) := by
  rw [ReversePolish.toOption_build_ofTokens]
  exact Option.bind_congr fun ls _ => Machine.run?_eq_read? _

theorem toOption_eq_some_iff {ε α : Type} {x : Except ε α} {a : α} :
    x.toOption = some a ↔ x = .ok a := by
  cases x <;> simp

/-- Reverse Polish order and the stack of trees accept exactly the formulas of the grammar, and
build their trees. -/
theorem build_ofTokens_eq_ok_iff {ts : List Token} {e : Expr} :
    (do build (← ReversePolish.ofTokens ts)) = .ok e ↔
      ∃ ls, ts.mapM Token.lexeme = .ok ls ∧ Grammar.read? (ls.map Located.value) = some e := by
  rw [← toOption_eq_some_iff, toOption_build_ofTokens_eq_read?, Option.bind_eq_some_iff]
  simp only [toOption_eq_some_iff]

end Parsing

end ComputerAlgebra
