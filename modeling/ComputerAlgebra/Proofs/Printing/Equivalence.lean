import ComputerAlgebra.Proofs.Printing.Template

/-!
# Reading the text of any tree

Trees that no formula denotes have plain text too: sums and products of many operands, and negative
integers anywhere. Their text is read as an equivalent tree unless the least integer occurs. The
digits of that one do not fit without their sign, so its text is refused
(`Expr.parse_toPlainText_agree`).

A text denotes an expression if it is read as an equivalent one, or is refused for its digits
(`Parsing.Denotes`).
-/

namespace ComputerAlgebra

open Parsing

universe u

namespace Parsing

open Machine

variable {left right left' right' : Nat} {a b e e' : Expr} {as bs ls ls' : List Lexeme}
  {op : Operator}

/-! ### Numerals that do not fit -/

/-- A numeral among the lexemes has no value. -/
def Overflows (ls : List Lexeme) : Prop := ∃ cs, .number cs ∈ ls ∧ readNumeral? cs = none

theorem Overflows.subset (h : Overflows ls) (hsub : ls ⊆ ls') : Overflows ls' := by
  obtain ⟨cs, hmem, hcs⟩ := h
  exact ⟨cs, hsub hmem, hcs⟩

/-- A number that does not fit into 64 bits is refused, wherever it stands. -/
theorem Overflows.run?_eq_none (h : Overflows ls) (m : Machine) : run? m ls = none := by
  obtain ⟨cs, hmem, hcs⟩ := h
  induction ls generalizing m with
  | nil => cases hmem
  | cons l ls ih =>
    rcases List.mem_cons.1 hmem with rfl | hmem
    · simp [run?, Machine.read?, readPlain?, act?, hcs]
    · -- whatever the first lexeme leads to, the rest is refused
      rw [run?]
      exact Option.bind_eq_none_iff.2 fun m' _ => ih m' hmem

/-- The grammar reads no formula with a number that does not fit into 64 bits. -/
theorem Overflows.read?_eq_none (h : Overflows ls) : Grammar.read? ls = none := by
  rw [← run?_eq_read?, h.run?_eq_none]

/-! ### Lexemes that denote an expression -/

/-- The lexemes are read as an equivalent expression, or not at all if the least integer occurs. -/
structure Denotes (left right : Nat) (e : Expr) (ls : List Lexeme) : Prop where
  reads : e.OmitsLeast → ∃ e', Expr.Equivalent.{u} e e' ∧ ReadsBetween left right e' ls
  overflows : ¬e.OmitsLeast → Overflows ls

namespace Denotes

/-- What may stand between strong operators may stand between weak ones. -/
theorem mono (h : Denotes.{u} left right e ls) (hleft : left' ≤ left) (hright : right' ≤ right) :
    Denotes.{u} left' right' e ls where
  reads homits := by
    obtain ⟨e', he', hreads⟩ := h.reads homits
    exact ⟨e', he', hreads.mono hleft hright⟩
  overflows := h.overflows

/-- What denotes a tree denotes all trees that are interchangeable with it. -/
theorem congr (h : Denotes.{u} left right e ls) (he : Expr.Interchangeable.{u} e e') :
    Denotes.{u} left right e' ls where
  reads homits := by
    obtain ⟨e'', he'', hreads⟩ := h.reads (he.omitsLeast_iff.2 homits)
    exact ⟨e'', he.equivalent.symm.trans he'', hreads⟩
  overflows hleast := h.overflows (mt he.omitsLeast_iff.1 hleast)

/-- What is read as a tree denotes it, if the least integer is not in it. -/
theorem of_reads (h : ReadsBetween left right e ls) (homits : e.OmitsLeast) :
    Denotes.{u} left right e ls :=
  ⟨fun _ => ⟨e, .refl e, h⟩, fun hleast => absurd homits hleast⟩

/-- Two operands with an operator between them denote the tree of the operator. -/
theorem binary (ha : Denotes.{u} left (op.precedence + 1) a as)
    (hb : Denotes.{u} (Grammar.rightLevel op) right b bs) (hleft : left ≤ op.precedence)
    (hright : right ≤ Grammar.rightLevel op) :
    Denotes.{u} left right (combine op a b) (as ++ .op op :: bs) where
  reads homits := by
    rw [Expr.OmitsLeast.combine_iff] at homits
    obtain ⟨a', hea, hra⟩ := ha.reads homits.1
    obtain ⟨b', heb, hrb⟩ := hb.reads homits.2
    exact ⟨combine op a' b', hea.combine heb, hra.binary hrb hleft hright⟩
  overflows hleast := by
    rw [Expr.OmitsLeast.combine_iff, not_and_or] at hleast
    rcases hleast with hleast | hleast
    · exact (ha.overflows hleast).subset (by simp)
    · exact (hb.overflows hleast).subset (by intro; simp +contextual)

/-- A sign in front denotes the opposite. -/
theorem negate (hb : Denotes.{u} 3 3 b bs) : Denotes.{u} 3 3 (.negate b) (.op .sub :: bs) where
  reads homits := by
    obtain ⟨b', heb, hrb⟩ := hb.reads (Expr.OmitsLeast.negate_iff.1 homits)
    exact ⟨.negate b', heb.negate, Reads.negate hrb le_rfl⟩
  overflows hleast :=
    (hb.overflows (mt Expr.OmitsLeast.negate_iff.2 hleast)).subset (List.subset_cons_self _ _)

/-- In parentheses, a text may stand anywhere. -/
theorem paren (h : Denotes.{u} 1 1 e ls) :
    Denotes.{u} left right e (.leftParen :: ls ++ [.rightParen]) where
  reads homits := by
    obtain ⟨e', he', hreads⟩ := h.reads homits
    exact ⟨e', he', (Reads.paren hreads).between (le_max_left _ _) (le_max_right _ _)⟩
  overflows hleast := (h.overflows hleast).subset (by intro; simp +contextual)

/-- A function with its argument in parentheses may stand anywhere. -/
theorem app (f : Func) (h : Denotes.{u} 1 1 a ls) :
    Denotes.{u} left right (.app f a) (.func f :: .leftParen :: ls ++ [.rightParen]) where
  reads homits := by
    obtain ⟨a', ha', hreads⟩ := h.reads (Expr.OmitsLeast.app_iff.1 homits)
    exact ⟨.app f a', ha'.app f,
      (Reads.app f hreads).between (le_max_left _ _) (le_max_right _ _)⟩
  overflows hleast :=
    (h.overflows (mt Expr.OmitsLeast.app_iff.2 hleast)).subset (by intro; simp +contextual)

/-- What denotes a tree is read as some tree if and only if the least integer is not in it. -/
theorem exists_read?_iff (h : Denotes.{u} 1 1 e ls) :
    (∃ e', Grammar.read? ls = some e') ↔ e.OmitsLeast := by
  constructor
  · rintro ⟨e', he'⟩
    by_contra hleast
    rw [(h.overflows hleast).read?_eq_none] at he'
    cases he'
  · intro homits
    obtain ⟨e', -, hreads⟩ := h.reads homits
    exact ⟨e', Reads.read? hreads⟩

/-- What denotes a tree is read as nothing but an equivalent tree. -/
theorem equivalent_of_read? (h : Denotes.{u} 1 1 e ls) (hread : Grammar.read? ls = some e') :
    Expr.Equivalent.{u} e e' := by
  obtain ⟨e'', he'', hreads⟩ := h.reads (h.exists_read?_iff.1 ⟨e', hread⟩)
  rw [Reads.read? hreads, Option.some.injEq] at hread
  rwa [← hread]

end Denotes

end Parsing

namespace Printing

namespace Style

variable {left right left' right' : Nat} {a b e e' : Expr} {es : List Expr} {n : Int64}
  {text ta tb : String} {context : Option Operator} {op : Operator}

open ComputerAlgebra.Expr

/-! ### Texts of operations -/

/-- The text spells lexemes that denote the expression. -/
def IsWritten (left right : Nat) (e : Expr) (text : String) : Prop :=
  ∃ ls, Spells text.toList ls ∧ Denotes.{u} left right e ls

namespace IsWritten

theorem mono (h : IsWritten.{u} left right e text) (hleft : left' ≤ left)
    (hright : right' ≤ right) : IsWritten.{u} left' right' e text := by
  obtain ⟨ls, hspells, hdenotes⟩ := h
  exact ⟨ls, hspells, hdenotes.mono hleft hright⟩

/-- What is a text of a tree is one of all interchangeable trees. -/
theorem congr (h : IsWritten.{u} left right e text) (he : Interchangeable.{u} e e') :
    IsWritten.{u} left right e' text := by
  obtain ⟨ls, hspells, hdenotes⟩ := h
  exact ⟨ls, hspells, hdenotes.congr he⟩

theorem paren (h : IsWritten.{u} 1 1 e text) : IsWritten.{u} left right e (plain.paren text) := by
  obtain ⟨ls, hspells, hdenotes⟩ := h
  refine ⟨_, ?_, hdenotes.paren⟩
  have := spells_paren hspells
  simpa [Style.paren, plain] using this

/-- With parentheses where the context demands them, a text fits into its context. -/
theorem wrap (op : Operator) (h : IsWritten.{u} op.precedence op.precedence e text) :
    IsWritten.{u} (contextLevel context) (contextLevel context) e (plain.wrap context op text) := by
  rw [wrap_plain]
  split_ifs with hlevel
  · exact h.mono hlevel hlevel
  · have hone : 1 ≤ op.precedence := by cases op <;> decide
    exact (h.mono hone hone).paren

/-- Operands with an operator between them are a text of the tree of the operator. -/
theorem binary (op : Operator) (ha : IsWritten.{u} left (op.precedence + 1) a ta)
    (hb : IsWritten.{u} (Grammar.rightLevel op) right b tb) (hleft : left ≤ op.precedence)
    (hright : right ≤ Grammar.rightLevel op) :
    IsWritten.{u} left right (combine op a b) (ta ++ op.symbol ++ tb) := by
  obtain ⟨as, hsa, hda⟩ := ha
  obtain ⟨bs, hsb, hdb⟩ := hb
  refine ⟨_, ?_, hda.binary hdb hleft hright⟩
  have := spells_binary op hsa hsb
  simpa [Operator.symbol] using this

/-- Addends are written with spaces around the sign. -/
theorem addends (op : Operator) (ha : IsWritten.{u} left (op.precedence + 1) a ta)
    (hb : IsWritten.{u} (Grammar.rightLevel op) right b tb) (hleft : left ≤ op.precedence)
    (hright : right ≤ Grammar.rightLevel op) :
    IsWritten.{u} left right (combine op a b) (ta ++ (" " ++ op.symbol ++ " " ++ tb)) := by
  obtain ⟨as, hsa, hda⟩ := ha
  obtain ⟨bs, hsb, hdb⟩ := hb
  refine ⟨_, ?_, hda.binary hdb hleft hright⟩
  have := spells_addends op hsa hsb
  simpa [Operator.symbol] using this

theorem negate (hb : IsWritten.{u} 3 3 b tb) : IsWritten.{u} 3 3 (.negate b) ("-" ++ tb) := by
  obtain ⟨bs, hsb, hdb⟩ := hb
  refine ⟨_, ?_, hdb.negate⟩
  have : Spells ('-' :: tb.toList) (.op .sub :: bs) := .symbol (by decide) (by decide) hsb
  simpa using this

theorem app (f : Func) (ha : IsWritten.{u} 1 1 a ta) :
    IsWritten.{u} left right (.app f a) (f.name ++ "(" ++ ta ++ ")") := by
  obtain ⟨as, hsa, hda⟩ := ha
  refine ⟨_, ?_, hda.app f⟩
  have := spells_app f hsa
  simpa using this

end IsWritten

/-! ### Integers -/

/-- Only the digits of the least integer do not fit without its sign. -/
theorem isWritten_of_neg (h : n < 0) : IsWritten.{u} 3 3 (.num n) (digits n) := by
  have hvalue : readNumeral? (Nat.toDigits 10 n.toInt.natAbs) = n.neg?.map .num := by
    rw [Int64.lt_iff_toInt_lt, Int64.toInt_zero] at h
    rw [readNumeral?_toDigits, Int64.neg?, Int.ofNat_natAbs_of_nonpos h.le]
  refine ⟨[.op .sub, .number (Nat.toDigits 10 n.toInt.natAbs)], ?_, ?_⟩
  · rw [toList_digits_of_neg h]
    exact .symbol (by decide) (by decide) (spells_toDigits _)
  · cases hneg : n.neg? with
    | none =>
      have hleast := Int64.neg?_eq_none_iff.1 hneg
      rw [hneg] at hvalue
      exact ⟨fun homits => absurd hleast (OmitsLeast.num_iff.1 homits),
        fun _ => ⟨_, by simp, hvalue⟩⟩
    | some m =>
      have hm : OmitsLeast (.num m) := OmitsLeast.num_iff.2 (Int64.ne_minValue_of_neg? hneg).2
      rw [hneg] at hvalue
      exact (Denotes.of_reads (Reads.number hvalue) hm).negate.congr (.negate_num hneg)

/-- A number that is not negative is written anywhere by its digits. -/
theorem isWritten_of_nonneg (h : 0 ≤ n) : IsWritten.{u} left right (.num n) (digits n) := by
  have homits : OmitsLeast (.num n) := by
    rw [OmitsLeast.num_iff]
    rintro rfl
    exact absurd h (by decide)
  refine ⟨[.number (Nat.toDigits 10 n.toInt.toNat)], ?_, .of_reads ?_ homits⟩
  · rw [toList_digits h]
    exact spells_toDigits _
  · exact Reads.between (.number (readNumeral?_toDigits_toNat h)) (le_max_left _ _)
      (le_max_right _ _)

/-- A number with its sign may stand where a sign may. -/
theorem isWritten_digits (n : Int64) : IsWritten.{u} 3 3 (.num n) (digits n) := by
  by_cases h : n < 0
  · exact isWritten_of_neg h
  · exact isWritten_of_nonneg (Int64.not_lt.1 h)

/-- Reading gets along with sums and products. -/
theorem template_plain : Template.{u} plain IsWritten.{u} where
  mono := .mono
  congr := .congr
  paren := .paren
  wrap _ := wrap_plain _ _
  times ha hb := .binary .mul ha hb le_rfl le_rfl
  plus ha hb := .addends .add ha hb le_rfl le_rfl
  minus ha hb := .addends .sub ha hb le_rfl le_rfl
  negate := .negate
  digits := isWritten_digits
  digits_nonneg := isWritten_of_nonneg

/-! ### Trees -/

/-- In every context, the text of the expression is read as an equivalent operand. -/
def IsFaithful (e : Expr) : Prop :=
  ∀ context, IsWritten.{u} (contextLevel context) (contextLevel context) e
    (plain.render context e)

namespace IsFaithful

theorem var {x : String} (h : IsVariableName x) : IsFaithful.{u} (.var x) := by
  intro context
  obtain ⟨ls, hspells, hreads⟩ : IsRendered context _ _ := isRendered_var h
  exact ⟨ls, hspells, .of_reads hreads (by simp)⟩

theorem quot (ha : IsFaithful.{u} a) (hb : IsFaithful.{u} b) : IsFaithful.{u} (.quot a b) := by
  intro context
  rw [render_quot]
  have ha : IsWritten.{u} 2 3 a _ := (ha (some .div)).mono (by decide) le_rfl
  have hb : IsWritten.{u} 3 2 b _ := (hb (some .div)).mono le_rfl (by decide)
  exact .wrap .div (.binary .div ha hb le_rfl (by decide))

theorem pow (ha : IsFaithful.{u} a) (hb : IsFaithful.{u} b) : IsFaithful.{u} (.pow a b) := by
  intro context
  rw [render_pow]
  have ha : IsWritten.{u} 3 4 a _ := (ha (some .pow)).mono (by decide) le_rfl
  have hb : IsWritten.{u} 3 3 b _ := (hb (some .pow)).mono (by decide) (by decide)
  exact .wrap .pow (.binary .pow ha hb le_rfl le_rfl)

/-- A function is written faithfully if its argument is. -/
theorem app (f : Func) (ha : IsFaithful.{u} a) : IsFaithful.{u} (.app f a) :=
  fun _ => (ha none).app f

end IsFaithful

end Style

end Printing

/-! ### Formulas of any shape -/

namespace Expr

/-- Trees with sums and products of any number of operands from two on, any integers, and names that
formulas may use. -/
inductive IsWideTerm : Expr → Prop where
  | var {x : String} (h : IsVariableName x) : IsWideTerm (.var x)
  | num (n : Int64) : IsWideTerm (.num n)
  | sum {es : List Expr} (hlen : 2 ≤ es.length) (h : ∀ e ∈ es, IsWideTerm e) :
      IsWideTerm (.sum es)
  | prod {es : List Expr} (hlen : 2 ≤ es.length) (h : ∀ e ∈ es, IsWideTerm e) :
      IsWideTerm (.prod es)
  | quot {a b : Expr} (ha : IsWideTerm a) (hb : IsWideTerm b) : IsWideTerm (.quot a b)
  | pow {a b : Expr} (ha : IsWideTerm a) (hb : IsWideTerm b) : IsWideTerm (.pow a b)
  | app (f : Func) {a : Expr} (ha : IsWideTerm a) : IsWideTerm (.app f a)

/-- Such a tree, or an equation of two of them. -/
inductive IsWideFormula : Expr → Prop where
  | term {e : Expr} (h : IsWideTerm e) : IsWideFormula e
  | eqn {l r : Expr} (hl : IsWideTerm l) (hr : IsWideTerm r) : IsWideFormula (.eqn l r)

/-- Both are equations with equivalent sides, or both are not and are equivalent. -/
inductive Agree : Expr → Expr → Prop where
  | term {e e' : Expr} (he : e.isEquation = false) (he' : e'.isEquation = false)
      (h : Equivalent.{u} e e') : Agree e e'
  | eqn {l l' r r' : Expr} (hl : Equivalent.{u} l l') (hr : Equivalent.{u} r r') :
      Agree (.eqn l r) (.eqn l' r')

open Printing.Style

variable {e l r : Expr}

theorem IsWideTerm.isEquation (h : e.IsWideTerm) : e.isEquation = false := by
  cases h <;> rfl

/-- Plain text of a tree of any shape is read as an equivalent operand in every context. -/
theorem faithfulAddend_of_isWideTerm (h : e.IsWideTerm) : plain.FaithfulAddend IsWritten.{u} e := by
  induction h with
  | var h => exact ⟨.var _, IsFaithful.var h, by rintro _ ⟨⟩⟩
  | num n => exact template_plain.numAddend n
  | sum hlen _ ih => exact template_plain.sumAddend hlen ih
  | prod hlen _ ih => exact template_plain.prodAddend hlen ih
  | quot _ _ iha ihb =>
    exact ⟨.quot iha.wellFormed ihb.wellFormed, IsFaithful.quot iha.faithful ihb.faithful,
      by rintro _ ⟨⟩⟩
  | pow _ _ iha ihb =>
    exact ⟨.pow iha.wellFormed ihb.wellFormed, IsFaithful.pow iha.faithful ihb.faithful,
      by rintro _ ⟨⟩⟩
  | app f _ ih => exact ⟨.app f ih.wellFormed, IsFaithful.app f ih.faithful, by rintro _ ⟨⟩⟩

/-- A wide term is written in its plain text, whatever the number of operands in its nodes. -/
theorem isWritten_of_isWideTerm (h : e.IsWideTerm) : IsWritten.{u} 1 1 e e.toPlainText :=
  (faithfulAddend_of_isWideTerm h).faithful none

theorem isEquation_of_readSide {start : Nat} {cs : List Char}
    (h : readSide (Token.scan start cs) = .ok e) : e.isEquation = false := by
  cases isTerm_of_readSide (fun t => Token.isUniform_of_mem_scan) h <;> rfl

/-- The plain text of a wide term is accepted if and only if the least integer is not in it, and is
then read as a tree that agrees with it. -/
theorem parse_toPlainText_agree_term (h : e.IsWideTerm) :
    ((∃ e', parse e.toPlainText = .ok e') ↔ e.OmitsLeast) ∧
      ∀ e', parse e.toPlainText = .ok e' → Agree.{u} e e' := by
  obtain ⟨ls, hspells, hdenotes⟩ := isWritten_of_isWideTerm.{u} h
  have hparse : ∀ e', parse e.toPlainText = .ok e' ↔ Grammar.read? ls = some e' := fun e' => by
    rw [parse_eq_ok_iff, Token.ofText, readTokens_eq_ok_iff hspells]
  simp only [hparse]
  exact ⟨hdenotes.exists_read?_iff, fun e' he' => .term h.isEquation
    (isEquation_of_readSide ((hspells.readSide_eq_ok_iff 0).2 he'))
    (hdenotes.equivalent_of_read? he')⟩

/-- The plain text of an equation is accepted if both sides are, and is then read as an equation
that agrees with it. -/
theorem parse_toPlainText_agree_eqn (hl : l.IsWideTerm) (hr : r.IsWideTerm) :
    ((∃ e', parse (toPlainText (.eqn l r)) = .ok e') ↔ l.OmitsLeast ∧ r.OmitsLeast) ∧
      ∀ e', parse (toPlainText (.eqn l r)) = .ok e' → Agree.{u} (.eqn l r) e' := by
  obtain ⟨ls, hspells, hdenotes⟩ := isWritten_of_isWideTerm.{u} hl
  obtain ⟨ls', hspells', hdenotes'⟩ := isWritten_of_isWideTerm.{u} hr
  have hparse : ∀ e', parse (toPlainText (.eqn l r)) = .ok e' ↔
      ∃ l' r', Grammar.read? ls = some l' ∧ Grammar.read? ls' = some r' ∧ e' = .eqn l' r' := by
    intro e'
    rw [parse_eq_ok_iff, Token.ofText, toList_toPlainText_eqn,
      readTokens_equals_eq_ok_iff hspells hspells']
  simp only [hparse, ← hdenotes.exists_read?_iff, ← hdenotes'.exists_read?_iff]
  constructor
  · constructor
    · rintro ⟨_, l', r', hl', hr', -⟩
      exact ⟨⟨l', hl'⟩, ⟨r', hr'⟩⟩
    · rintro ⟨⟨l', hl'⟩, ⟨r', hr'⟩⟩
      exact ⟨_, l', r', hl', hr', rfl⟩
  · rintro _ ⟨l', r', hl', hr', rfl⟩
    exact .eqn (hdenotes.equivalent_of_read? hl') (hdenotes'.equivalent_of_read? hr')

/-- Plain text of a tree of any shape is read unless the least integer occurs in the tree, and what
is read has the same values in all commutative rings. -/
theorem parse_toPlainText_agree (h : e.IsWideFormula) :
    ((∃ e', parse e.toPlainText = .ok e') ↔ e.OmitsLeast) ∧
      ∀ e', parse e.toPlainText = .ok e' → Agree.{u} e e' := by
  cases h with
  | term h => exact parse_toPlainText_agree_term h
  | eqn hl hr =>
    rw [OmitsLeast.eqn_iff]
    exact parse_toPlainText_agree_eqn hl hr

/-- The text `-2 - 3*x*x - (-4) = (-2)^(-x)` is read, and that of the least integer is not. -/
theorem parse_toPlainText_agree_signs :
    let e : Expr := .eqn
      (.sum [.num (-2), .prod [.num (-3), .var "x", .var "x"], .prod [.num (-1), .num (-4)]])
      (.pow (.num (-2)) (.prod [.num (-1), .var "x"]))
    e.IsWideFormula ∧ (∃ e', parse e.toPlainText = .ok e' ∧ Agree.{0} e e') ∧
      IsWideFormula (.num Int64.minValue) ∧
      ¬∃ e', parse (toPlainText (.num Int64.minValue)) = .ok e' := by
  have hx : IsWideTerm (.var "x") :=
    .var ⟨by decide, by simp [CharClass.of, Text.isAlphabetic], by decide⟩
  have hsum : IsWideTerm
      (.sum [.num (-2), .prod [.num (-3), .var "x", .var "x"], .prod [.num (-1), .num (-4)]]) := by
    have hxx : IsWideTerm (.prod [.num (-3), .var "x", .var "x"]) :=
      .prod (by decide) (by simp [IsWideTerm.num, hx])
    have hfour : IsWideTerm (.prod [.num (-1), .num (-4)]) :=
      .prod (by decide) (by simp [IsWideTerm.num])
    exact .sum (by decide) (by simp [IsWideTerm.num, hxx, hfour])
  have hpow : IsWideTerm (.pow (.num (-2)) (.prod [.num (-1), .var "x"])) :=
    .pow (.num _) (.prod (by decide) (by simp [IsWideTerm.num, hx]))
  have hleast : IsWideFormula (.num Int64.minValue) := .term (.num _)
  refine ⟨.eqn hsum hpow, ?_, hleast, ?_⟩
  · have hagree := parse_toPlainText_agree.{0} (.eqn hsum hpow)
    obtain ⟨e', he'⟩ := hagree.1.2 (by simp)
    exact ⟨e', he', hagree.2 e' he'⟩
  · rw [(parse_toPlainText_agree.{0} hleast).1]
    simp

end Expr

end ComputerAlgebra
