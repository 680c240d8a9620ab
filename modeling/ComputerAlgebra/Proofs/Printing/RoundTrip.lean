import ComputerAlgebra.Printing.Render
import ComputerAlgebra.Proofs.Parsing.Spelling

/-!
# Reading what was written

Plain text of a tree is read as that tree, for all trees that formulas denote. A text in a context
reads as one operand there: its operators bind tightly enough not to call for what waits before it,
and what follows it binds loosely enough not to take a part of it away (`Reads`).
-/

namespace ComputerAlgebra

open Parsing

namespace Parsing

open Machine ReversePolish

/-- Where an operand is due, the lexemes are read as this operand, provided that what waits and what
follows leaves operators of the level alone. -/
def Reads (level : Nat) (e : Expr) (ls : List Lexeme) : Prop :=
  ∀ trees pending rest, Blocks level pending → (∀ f waiting, pending ≠ .func f :: waiting) →
    Stops level rest →
      run? ⟨trees, pending, false⟩ (ls ++ rest) = run? ⟨e :: trees, pending, true⟩ rest

/-- Where an operand is due, the lexemes are read as this operand, provided that what waits leaves
operators of one level alone, and what follows those of another. -/
def ReadsBetween (left right : Nat) (e : Expr) (ls : List Lexeme) : Prop :=
  ∀ trees pending rest, Blocks left pending → (∀ f waiting, pending ≠ .func f :: waiting) →
    Stops right rest →
      run? ⟨trees, pending, false⟩ (ls ++ rest) = run? ⟨e :: trees, pending, true⟩ rest

variable {level left right : Nat} {a b e : Expr} {as bs ls : List Lexeme} {op : Operator}

theorem Machine.Blocks.mono {k : Nat} {pending : List Pending} (h : Blocks level pending)
    (hle : level ≤ k) : Blocks k pending :=
  fun op waiting hp => (h op waiting hp).trans hle

theorem Machine.Stops.mono {k : Nat} (h : Stops level ls) (hle : level ≤ k) : Stops k ls :=
  fun op right hop => (h op right hop).trans_le hle

namespace ReadsBetween

/-- What is read between strong operators is read between weak ones. -/
theorem mono {left' right' : Nat} (h : ReadsBetween left right e ls) (hleft : left' ≤ left)
    (hright : right' ≤ right) : ReadsBetween left' right' e ls :=
  fun trees pending rest hblocks hpending hstops =>
    h trees pending rest (hblocks.mono hleft) hpending (hstops.mono hright)

/-- An operator takes what stands on its left if that binds more tightly, and what stands on its
right if that binds as tightly as the right operand must. -/
theorem binary (ha : ReadsBetween left (op.precedence + 1) a as)
    (hb : ReadsBetween (Grammar.rightLevel op) right b bs) (hleft : left ≤ op.precedence)
    (hright : right ≤ Grammar.rightLevel op) :
    ReadsBetween left right (combine op a b) (as ++ .op op :: bs) := by
  intro trees pending rest hblocks hpending hstops
  have hop : Grammar.nextOperator? (.op op :: (bs ++ rest)) = some (op, bs ++ rest) := rfl
  rw [List.append_assoc, List.cons_append]
  calc run? ⟨trees, pending, false⟩ (as ++ .op op :: (bs ++ rest))
      = run? ⟨a :: trees, pending, true⟩ (.op op :: (bs ++ rest)) := by
        refine ha _ _ _ hblocks hpending ?_
        rintro _ _ ⟨⟩
        exact Nat.lt_succ_self _
    _ = run? ⟨a :: trees, .op op :: pending, false⟩ (bs ++ rest) := run?_next hblocks hop hleft
    _ = run? ⟨b :: a :: trees, .op op :: pending, true⟩ rest :=
        hb _ _ _ (.of_op le_rfl) nofun hstops
    _ = run? ⟨combine op a b :: trees, pending, true⟩ rest := run?_combine (hstops.mono hright)

end ReadsBetween

namespace Reads

/-- What is read at a level is read between operators that are not stronger. -/
theorem between (h : Reads level e ls) (hleft : left ≤ level) (hright : right ≤ level) :
    ReadsBetween left right e ls :=
  ReadsBetween.mono h hleft hright

theorem name (x : String) : Reads level (.var x) [.name x] := fun _ _ _ _ _ _ => rfl

theorem number {cs : List Char} (h : readNumeral? cs = some e) : Reads level e [.number cs] := by
  intro trees pending rest _ _ _
  simp [run?, Machine.read?, readPlain?, act?, h]

/-- Operands that bind more tightly than the operator between them are its operands. -/
theorem binary (ha : Reads (op.precedence + 1) a as) (hb : Reads (op.precedence + 1) b bs)
    (hlevel : level ≤ op.precedence) : Reads level (combine op a b) (as ++ .op op :: bs) := by
  have hright : op.precedence ≤ Grammar.rightLevel op ∧
      Grammar.rightLevel op ≤ op.precedence + 1 := by
    unfold Grammar.rightLevel
    split <;> omega
  exact ReadsBetween.binary (ha.between (by omega) le_rfl) (hb.between hright.2 (by omega)) hlevel
    (hlevel.trans hright.1)

/-- A sign in front of what binds stronger is read as the opposite. -/
theorem negate (hb : Reads 3 b bs) (hlevel : level ≤ 3) :
    Reads level (.negate b) (.op .sub :: bs) := by
  intro trees pending rest _ _ hstops
  calc run? ⟨trees, pending, false⟩ (.op .sub :: bs ++ rest)
      = run? ⟨.num (-1) :: trees, .op .mul :: pending, false⟩ (bs ++ rest) := rfl
    _ = run? ⟨b :: .num (-1) :: trees, .op .mul :: pending, true⟩ rest :=
        hb _ _ _ (.of_op (by decide)) nofun (hstops.mono hlevel)
    _ = run? ⟨.negate b :: trees, pending, true⟩ rest := run?_combine (hstops.mono hlevel)

theorem stops_rightParen (ls : List Lexeme) : Stops level (.rightParen :: ls) := nofun

/-- In parentheses, a tree is read anywhere. -/
theorem paren (h : Reads 1 e ls) : Reads level e (.leftParen :: ls ++ [.rightParen]) := by
  intro trees pending rest _ hpending _
  have hfunc : applyFunc? (pending, e :: trees) = some ⟨e :: trees, pending, true⟩ := by
    match pending with
    | [] | .op _ :: _ | .paren :: _ => rfl
    | .func f :: waiting => exact absurd rfl (hpending f waiting)
  calc run? ⟨trees, pending, false⟩ (.leftParen :: ls ++ [.rightParen] ++ rest)
      = run? ⟨trees, .paren :: pending, false⟩ (ls ++ .rightParen :: rest) := by
        rw [List.append_assoc]
        rfl
    _ = run? ⟨e :: trees, .paren :: pending, true⟩ (.rightParen :: rest) :=
        h _ _ _ .of_paren nofun (stops_rightParen rest)
    _ = (applyFunc? (pending, e :: trees)).bind (run? · rest) := rfl
    _ = run? ⟨e :: trees, pending, true⟩ rest := by rw [hfunc, Option.bind_some]

/-- A function of an argument in parentheses is read anywhere. -/
theorem app (f : Func) (h : Reads 1 a ls) :
    Reads level (.app f a) (.func f :: .leftParen :: ls ++ [.rightParen]) := by
  intro trees pending rest _ _ _
  calc run? ⟨trees, pending, false⟩ (.func f :: .leftParen :: ls ++ [.rightParen] ++ rest)
      = run? ⟨trees, .paren :: .func f :: pending, false⟩ (ls ++ .rightParen :: rest) := by
        rw [List.append_assoc]
        rfl
    _ = run? ⟨a :: trees, .paren :: .func f :: pending, true⟩ (.rightParen :: rest) :=
        h _ _ _ .of_paren nofun (stops_rightParen rest)
    _ = run? ⟨.app f a :: trees, pending, true⟩ rest := rfl

/-- A tree that is read up to the end is what the grammar reads. -/
theorem read? (h : Reads 1 e ls) : Grammar.read? ls = some e := by
  have h := h [] [] [] nofun nofun nofun
  rw [List.append_nil] at h
  rw [← run?_eq_read?, h]
  rfl

end Reads

end Parsing

namespace Printing

namespace Style

open ComputerAlgebra.Expr

variable {context : Option Operator} {a b e : Expr} {n : Int64} {text : String}

/-- How tightly an operation binds at least if its context needs no parentheses around it. -/
def contextLevel (context : Option Operator) : Nat := context.elim 1 (·.precedence + 1)

/-- A style that wraps by precedence puts parentheses around what is weaker than its context. -/
theorem wrap_of_wraps {s : Style} {op : Operator}
    (h : ∀ outer, s.wraps outer op = wrapsByPrecedence outer op) (text : String) :
    s.wrap context op text =
      if contextLevel context ≤ op.precedence then text else s.paren text := by
  cases context with
  | none =>
    rw [if_pos (by cases op <;> decide)]
    rfl
  | some outer =>
    by_cases hlevel : op.precedence ≤ outer.precedence
    · rw [if_neg (by simpa [contextLevel] using hlevel)]
      simp [wrap, h, wrapsByPrecedence, hlevel]
    · rw [if_pos (by simpa [contextLevel] using hlevel)]
      simp [wrap, h, wrapsByPrecedence, hlevel]

/-- Plain text has parentheses around what is weaker than its context. -/
theorem wrap_plain (op : Operator) (text : String) :
    plain.wrap context op text =
      if contextLevel context ≤ op.precedence then text else plain.paren text :=
  wrap_of_wraps (fun _ => rfl) text

/-- The text is read as the tree in the context. -/
def IsRendered (context : Option Operator) (e : Expr) (text : String) : Prop :=
  ∃ ls, Spells text.toList ls ∧ Reads (contextLevel context) e ls

/-! ### Parentheses -/

/-- Parentheses around a text spell parentheses around its lexemes. -/
theorem spells_paren {cs : List Char} {ls : List Lexeme} (h : Spells cs ls) :
    Spells ('(' :: cs ++ [')']) (.leftParen :: ls ++ [.rightParen]) := by
  have hclose : Spells [')'] [.rightParen] :=
    .symbol (by decide) (by decide) fun _ => .nil
  exact .symbol (by decide) (by decide) (h.append hclose (.cons (by decide)))

/-- A text that reads as an operation of its own reads in any context once it is wrapped. -/
theorem isRendered_wrap {op : Operator} {ls : List Lexeme} (hspells : Spells text.toList ls)
    (hreads : ∀ level ≤ op.precedence, Reads level e ls) :
    IsRendered context e (plain.wrap context op text) := by
  rw [wrap_plain]
  split_ifs with h
  · exact ⟨ls, hspells, hreads _ h⟩
  · refine ⟨_, ?_, (hreads 1 (by cases op <;> decide)).paren⟩
    have := spells_paren hspells
    simpa [paren, plain] using this

/-! ### Integers -/

/-- A number that is not negative is written as its digits. -/
theorem toList_digits (h : 0 ≤ n) : (digits n).toList = Nat.toDigits 10 n.toInt.toNat := by
  rw [Int64.le_iff_toInt_le, Int64.toInt_zero] at h
  obtain ⟨k, hk⟩ := Int.eq_ofNat_of_zero_le h
  rw [digits, hk, Int.toNat_natCast]
  exact Nat.toList_repr

/-- A negative number is written as a sign and the digits of its absolute value. -/
theorem toList_digits_of_neg (h : n < 0) :
    (digits n).toList = '-' :: Nat.toDigits 10 n.toInt.natAbs := by
  rw [Int64.lt_iff_toInt_lt, Int64.toInt_zero] at h
  obtain ⟨k, hk⟩ := Int.eq_negSucc_of_lt_zero h
  have htext : toString (Int.negSucc k) = "-" ++ Nat.repr (k + 1) := rfl
  rw [digits, hk, htext, String.toList_append, Nat.toList_repr]
  rfl

/-- Digits are read as their value, if this fits into 64 bits. -/
theorem readNumeral?_toDigits (k : Nat) :
    readNumeral? (Nat.toDigits 10 k) = (Int64.ofInt? k).map .num := by
  have hpoint : '.' ∉ Nat.toDigits 10 k := fun hmem => by
    have := Nat.isDigit_of_mem_toDigits (by decide) (by decide) hmem
    simp at this
  have hvalue : digitsValue (Nat.toDigits 10 k) = k := Nat.ofDigitChars_ten_toDigits
  have hne : Nat.toDigits 10 k ≠ [] := Nat.toDigits_ne_nil
  generalize Nat.toDigits 10 k = ds at hpoint hvalue hne
  rcases Grammar.exists_point ds with ⟨-, hspan⟩ | ⟨w, f, -, rfl, -⟩
  · rw [readNumeral?, hspan]
    simp [hvalue, hne, Option.map_eq_bind]
  · exact absurd (by simp) hpoint

/-- The digits of a number that is not negative are read as this number. -/
theorem readNumeral?_toDigits_toNat (h : 0 ≤ n) :
    readNumeral? (Nat.toDigits 10 n.toInt.toNat) = some (.num n) := by
  rw [Int64.le_iff_toInt_le, Int64.toInt_zero] at h
  rw [readNumeral?_toDigits, Int.toNat_of_nonneg h, Int64.ofInt?_toInt, Option.map_some]

/-- Digits are characters of numbers. -/
theorem class_of_isDigit {c : Char} (h : c.isDigit = true) : CharClass.of c = .number := by
  have hdigit : 48 ≤ c.toNat ∧ c.toNat ≤ 57 := by
    have h' := h
    simp only [Char.isDigit, Bool.and_eq_true, decide_eq_true_eq, ge_iff_le,
      UInt32.le_iff_toNat_le] at h'
    exact h'
  have halpha : c.isAlpha = false := by
    simp only [Char.isAlpha, Char.isUpper, Char.isLower, Bool.or_eq_false_iff,
      Bool.and_eq_false_iff, decide_eq_false_iff_not, ge_iff_le, UInt32.le_iff_toNat_le]
    refine ⟨fun ⟨(hle : 65 ≤ c.toNat), _⟩ => ?_, .inl fun (hle : 97 ≤ c.toNat) => ?_⟩ <;> omega
  have halpha : Text.isAlphabetic c = false := by
    rw [Text.isAlphabetic, Bool.or_eq_false_iff, Bool.and_eq_false_iff]
    exact ⟨halpha, .inl (by rw [decide_eq_false_iff_not]; omega)⟩
  have hquote : c ≠ '\'' := by
    rintro rfl
    exact absurd hdigit (by decide)
  simp [CharClass.of, halpha, hquote, h]

/-- The digits of a number spell it. -/
theorem spells_toDigits (k : Nat) : Spells (Nat.toDigits 10 k) [.number (Nat.toDigits 10 k)] :=
  .number Nat.toDigits_ne_nil fun _ hc =>
    class_of_isDigit (Nat.isDigit_of_mem_toDigits (by decide) (by decide) hc)

/-- A number that is not negative is read as itself. -/
theorem isRendered_number (h : 0 ≤ n) : IsRendered context (.num n) (plain.number context n) := by
  have hlt : ¬n < 0 := by
    rw [Int64.le_iff_toInt_le] at h
    rw [Int64.lt_iff_toInt_lt]
    omega
  rw [number, if_neg (by simp [hlt])]
  refine ⟨[.number (Nat.toDigits 10 n.toInt.toNat)], ?_, .number (readNumeral?_toDigits_toNat h)⟩
  rw [toList_digits h]
  exact spells_toDigits _

/-! ### Operations -/

/-- A variable is read as itself. -/
theorem isRendered_var {x : String} (h : IsVariableName x) : IsRendered context (.var x) x := by
  have hspells := Spells.word h.ne_nil h.word
  rw [String.ofList_toList, h.not_func] at hspells
  exact ⟨_, hspells, .name x⟩

/-- An operator between two texts spells the operator between their lexemes. -/
theorem spells_binary (op : Operator) {ta tb : String} {as bs : List Lexeme}
    (ha : Spells ta.toList as) (hb : Spells tb.toList bs) :
    Spells (ta.toList ++ op.char :: tb.toList) (as ++ .op op :: bs) := by
  have hclass : CharClass.of op.char = .symbol := by cases op <;> decide
  have hop : Lexeme.ofSymbol? (String.singleton op.char) = some (.op op) := by cases op <;> decide
  exact ha.append (.symbol hclass hop hb) (.cons (by rw [hclass]; rfl))

/-- Operands with an operator between them are read as the tree of the operator. -/
theorem isRendered_binary (op : Operator) {ta tb : String} (ha : IsRendered (some op) a ta)
    (hb : IsRendered (some op) b tb) :
    IsRendered context (combine op a b) (plain.wrap context op (ta ++ op.symbol ++ tb)) := by
  obtain ⟨as, hsa, hra⟩ := ha
  obtain ⟨bs, hsb, hrb⟩ := hb
  have hspells := spells_binary op hsa hsb
  exact isRendered_wrap (by simpa [Operator.symbol] using hspells)
    fun level hlevel => hra.binary hrb hlevel

/-- Spaces around an operator spell nothing. -/
theorem spells_addends (op : Operator) {ta tb : String} {as bs : List Lexeme}
    (ha : Spells ta.toList as) (hb : Spells tb.toList bs) :
    Spells (ta.toList ++ ' ' :: op.char :: ' ' :: tb.toList) (as ++ .op op :: bs) := by
  have hclass : CharClass.of op.char = .symbol := by cases op <;> decide
  have hop : Lexeme.ofSymbol? (String.singleton op.char) = some (.op op) := by cases op <;> decide
  have hblank : CharClass.of ' ' = .blank := by decide
  exact ha.append (.blank hblank (.symbol hclass hop (.blank hblank hb))) (.cons (by decide))

/-- Addends with their sign between them are read as their sum or difference. -/
theorem isRendered_addends (context : Option Operator) (op : Operator) {ta tb : String}
    (hop : op.precedence = 1) (ha : IsRendered (some .add) a ta)
    (hb : IsRendered (some .add) b tb) :
    IsRendered context (combine op a b)
      (plain.wrap context .add (ta ++ (" " ++ op.symbol ++ " ") ++ tb)) := by
  obtain ⟨as, hsa, hra⟩ := ha
  obtain ⟨bs, hsb, hrb⟩ := hb
  have hlevel : contextLevel (some .add) = op.precedence + 1 := by rw [hop]; rfl
  rw [hlevel] at hra hrb
  have hspells := spells_addends op hsa hsb
  exact isRendered_wrap (by simpa [Operator.symbol] using hspells)
    fun level h => hra.binary hrb (by rwa [hop])

/-- A sign in front of an operand is read as its opposite. -/
theorem isRendered_negate {tb : String} (hb : IsRendered (some .mul) b tb) :
    IsRendered context (.negate b) (plain.wrap context .mul ("-" ++ tb)) := by
  obtain ⟨bs, hsb, hrb⟩ := hb
  have hspells : Spells ('-' :: tb.toList) (.op .sub :: bs) := .symbol (by decide) (by decide) hsb
  exact isRendered_wrap (by simpa using hspells) fun level h => hrb.negate (h.trans (by decide))

/-- The names of functions are words. -/
theorem class_of_mem_name (f : Func) : ∀ c ∈ f.name.toList, CharClass.of c = .word := by
  have halpha : ∀ c ∈ f.name.toList, c.isAlpha = true := by cases f <;> simp [Func.name]
  intro c hc
  simp [CharClass.of, Text.isAlphabetic_of_isAlpha (halpha c hc)]

/-- A function with its argument in parentheses spells these lexemes. -/
theorem spells_app (f : Func) {ta : String} {as : List Lexeme} (ha : Spells ta.toList as) :
    Spells (f.name.toList ++ ('(' :: ta.toList ++ [')']))
      (.func f :: .leftParen :: as ++ [.rightParen]) := by
  have hname : Spells f.name.toList [.func f] := by
    have hne : f.name.toList ≠ [] := by cases f <;> decide
    have hword := Spells.word hne (class_of_mem_name f)
    rwa [String.ofList_toList, Func.ofName?_eq_some_iff.2 List.mem_cons_self] at hword
  have hopen : (CharClass.of '(').isRun = false := by decide
  exact hname.append (spells_paren ha) (.cons hopen)

/-- A function of a rendered argument is read as this function of the argument. -/
theorem isRendered_app {ta : String} (f : Func) (ha : IsRendered none a ta) :
    IsRendered context (.app f a) (f.name ++ "(" ++ ta ++ ")") := by
  obtain ⟨as, hsa, hra⟩ := ha
  refine ⟨_, ?_, .app f hra⟩
  have := spells_app f hsa
  simpa using this

/-! ### Expressions -/

theorem render_quot : plain.render context (.quot a b) = plain.wrap context .div
    (plain.render (some .div) a ++ Operator.div.symbol ++ plain.render (some .div) b) := by
  change plain.wrap context .div ("" ++ _ ++ "/" ++ _ ++ "") = _
  rw [String.empty_append, String.append_empty]
  rfl

theorem render_pow : plain.render context (.pow a b) = plain.wrap context .pow
    (plain.render (some .pow) a ++ Operator.pow.symbol ++ plain.render (some .pow) b) := by
  change plain.wrap context .pow ("" ++ _ ++ "^" ++ _ ++ "") = _
  rw [String.empty_append, String.append_empty]
  rfl

theorem not_lt_zero (h : 0 ≤ n) : ¬n < 0 := by
  rw [Int64.le_iff_toInt_le] at h
  rw [Int64.lt_iff_toInt_lt]
  omega

/-- A product of two terms is written with a sign between them: no term is a negative coefficient,
which would be written otherwise. -/
theorem render_prod (ha : a.IsTerm) : plain.render context (.prod [a, b]) =
    plain.wrap context .mul
      (plain.render (some .mul) a ++ Operator.mul.symbol ++ plain.render (some .mul) b) := by
  cases ha with
  | @num n h =>
    have hne : n ≠ -1 := by
      rintro rfl
      exact absurd h (by decide)
    simp only [render, renderFactors, product, if_neg hne, if_neg (not_lt_zero h)]
    rfl
  | _ => rfl

/-- A sum of two terms is written with a minus sign if the second one has an opposite to write, and
with a plus sign otherwise. -/
theorem render_sum (ha : a.IsTerm) : plain.render context (.sum [a, b]) =
    plain.wrap context .add (plain.render (some .add) a ++
      match b.opposite? with
      | some e => " - " ++ plain.render (some .add) e
      | none => " + " ++ plain.render (some .add) b) := by
  have haddends : plain.renderAddends [b] = match b.opposite? with
      | some e => " - " ++ plain.render (some .add) e
      | none => " + " ++ plain.render (some .add) b := by
    rw [renderAddends, renderOpposite?_eq_map, renderAddends, String.append_empty]
    cases b.opposite? <;> rfl
  rw [render, ← haddends]
  cases ha with
  | @num n h =>
    rw [renderSum, render, number, if_neg (by simp [not_lt_zero h])]
  | _ => rfl

/-- Plain text of a term, and of what is left of it after a minus sign, is read as that tree. -/
theorem isRendered_of_isTerm (h : e.IsTerm) :
    (∀ context, IsRendered context e (plain.render context e)) ∧
      ∀ e', e.opposite? = some e' →
        e = .negate e' ∧ ∀ context, IsRendered context e' (plain.render context e') := by
  -- a sign is written by the sum around it, so what is opposite is carried through the induction
  induction h with
  | var h => exact ⟨fun _ => isRendered_var h, by rintro _ ⟨⟩⟩
  | num h => exact ⟨fun _ => isRendered_number h, by simp [opposite?, not_lt_zero h]⟩
  | @sum a b ha hb iha ihb =>
    refine ⟨fun context => ?_, by rintro _ ⟨⟩⟩
    rw [render_sum ha]
    cases hopp : b.opposite? with
    | none =>
      have := isRendered_addends context .add rfl (iha.1 _) (ihb.1 _)
      rw [String.append_assoc] at this
      exact this
    | some e' =>
      obtain ⟨rfl, he'⟩ := ihb.2 e' hopp
      have := isRendered_addends context .sub rfl (iha.1 _) (he' _)
      rw [String.append_assoc] at this
      exact this
  | @prod a b ha hb iha ihb =>
    refine ⟨fun context => ?_, ?_⟩
    · rw [render_prod ha]
      exact isRendered_binary .mul (iha.1 _) (ihb.1 _)
    · intro e' he'
      -- a term that is a number is not negative, so it is no sign
      cases ha with
      | @num n h =>
        have hne : n ≠ -1 := by
          rintro rfl
          exact absurd h (by decide)
        simp [opposite?, not_lt_zero h, hne] at he'
      | _ => cases he'
  | negate hb ih =>
    refine ⟨fun context => ?_, ?_⟩
    · exact isRendered_negate (ih.1 _)
    · rintro _ ⟨⟩
      exact ⟨rfl, ih.1⟩
  | quot ha hb iha ihb =>
    refine ⟨fun context => ?_, by rintro _ ⟨⟩⟩
    rw [render_quot]
    exact isRendered_binary .div (iha.1 _) (ihb.1 _)
  | pow ha hb iha ihb =>
    refine ⟨fun context => ?_, by rintro _ ⟨⟩⟩
    rw [render_pow]
    exact isRendered_binary .pow (iha.1 _) (ihb.1 _)
  | app f ha ih => exact ⟨fun _ => isRendered_app f (ih.1 _), by rintro _ ⟨⟩⟩

end Style

end Printing

/-! ### Formulas -/

namespace Parsing

variable {cs cs' : List Char} {ls ls' : List Lexeme} {e : Expr}

/-- Without equality sign there is one side. -/
theorem readTokens_eq_readSide (h : Spells cs ls) (start : Nat) :
    readTokens (Token.scan start cs) = readSide (Token.scan start cs) := by
  have hequals : ∀ t ∈ Token.scan start cs, (!t.isEquals) = true := fun t ht => by
    simp [h.not_equals start t ht]
  have hspan : (Token.scan start cs).span (fun t => !t.isEquals) = (Token.scan start cs, []) := by
    rw [List.span_eq_takeWhile_dropWhile, List.takeWhile_eq_self_iff.2 hequals,
      List.dropWhile_eq_nil_iff.2 hequals]
  rw [readTokens, hspan]

/-- The two sides of an equality sign are read on their own. -/
theorem exists_readTokens_equals (h : Spells cs ls) (h' : Spells cs' ls') (start : Nat) :
    ∃ next, readTokens (Token.scan start (cs ++ ' ' :: '=' :: ' ' :: cs')) =
      do return .eqn (← readSide (Token.scan start cs)) (← readSide (Token.scan next cs')) := by
  have hblank : CharClass.of ' ' = .blank := by decide
  have hsymbol : CharClass.of '=' = .symbol := by decide
  have hequals : ∀ t ∈ Token.scan start cs, (!t.isEquals) = true := fun t ht => by
    simp [h.not_equals start t ht]
  rw [Token.scan_append (.cons (by rw [hblank]; rfl)), Token.scan_blank hblank,
    Token.scan_symbol hsymbol, Token.scan_blank hblank]
  generalize start + byteLength cs + ' '.utf8Size + '='.utf8Size + ' '.utf8Size = next
  have hany : (Token.scan next cs').any Token.isEquals = false := by
    simpa [List.any_eq_false] using h'.not_equals next
  refine ⟨next, ?_⟩
  rw [readTokens, List.span_eq_takeWhile_dropWhile, List.takeWhile_append_of_pos hequals,
    List.dropWhile_append_of_pos hequals, List.takeWhile_cons_of_neg (by simp [Token.isEquals]),
    List.dropWhile_cons_of_neg (by simp [Token.isEquals]), List.append_nil]
  simp only [hany]
  rfl

/-- A formula without equality sign is read as the grammar reads its lexemes. -/
theorem readTokens_eq_ok_iff (h : Spells cs ls) (start : Nat) :
    readTokens (Token.scan start cs) = .ok e ↔ Grammar.read? ls = some e := by
  rw [readTokens_eq_readSide h, h.readSide_eq_ok_iff]

/-- A formula with an equality sign is read as the grammar reads each of its sides. -/
theorem readTokens_equals_eq_ok_iff (h : Spells cs ls) (h' : Spells cs' ls') (start : Nat) :
    readTokens (Token.scan start (cs ++ ' ' :: '=' :: ' ' :: cs')) = .ok e ↔
      ∃ l r, Grammar.read? ls = some l ∧ Grammar.read? ls' = some r ∧ e = .eqn l r := by
  obtain ⟨next, hnext⟩ := exists_readTokens_equals h h' start
  simp only [hnext, ← h.readSide_eq_ok_iff start, ← h'.readSide_eq_ok_iff next]
  cases readSide (Token.scan start cs) <;> cases readSide (Token.scan next cs') <;>
    simp [bind, Except.bind, pure, Except.pure, eq_comm]

end Parsing

namespace Expr

theorem parse_eq_ok_iff {text : String} {e : Expr} :
    parse text = .ok e ↔ readTokens (Token.ofText text) = .ok e := by
  rw [parse]
  cases readTokens (Token.ofText text) <;> simp [Except.mapError]

/-- An equation is written with its sign and spaces between the sides. -/
theorem toList_toPlainText_eqn (l r : Expr) :
    (toPlainText (.eqn l r)).toList =
      l.toPlainText.toList ++ ' ' :: '=' :: ' ' :: r.toPlainText.toList := by
  simp [toPlainText, Printing.Style.render]

/-- Reading plain text of a tree that a formula denotes gives the tree. -/
theorem parse_toPlainText {e : Expr} (h : e.IsFormula) : parse e.toPlainText = .ok e := by
  rw [parse_eq_ok_iff, Token.ofText]
  cases h with
  | term h =>
    obtain ⟨ls, hspells, hreads⟩ := (Printing.Style.isRendered_of_isTerm h).1 none
    exact (readTokens_eq_ok_iff hspells 0).2 hreads.read?
  | @eqn l r hl hr =>
    obtain ⟨ls, hspells, hreads⟩ := (Printing.Style.isRendered_of_isTerm hl).1 none
    obtain ⟨ls', hspells', hreads'⟩ := (Printing.Style.isRendered_of_isTerm hr).1 none
    rw [toList_toPlainText_eqn]
    exact (readTokens_equals_eq_ok_iff hspells hspells' 0).2
      ⟨l, r, hreads.read?, hreads'.read?, rfl⟩

/-- Plain text is a right inverse of reading, exactly on the trees that reading gives: these are the
formulas, and each of them is read from its own text. -/
theorem parse_toPlainText_exact :
    (∀ text e, parse text = .ok e → e.IsFormula) ∧
      (∀ e : Expr, e.IsFormula → parse e.toPlainText = .ok e) ∧
      ∀ text e, parse text = .ok e → parse e.toPlainText = .ok e :=
  ⟨fun _ _ => isFormula_of_parse, fun _ => parse_toPlainText,
    fun _ _ h => parse_toPlainText (isFormula_of_parse h)⟩

/-- The formula `x - -y^2 = 3` survives. -/
theorem parse_toPlainText_exact_difference :
    let e : Expr := .eqn (.sum [.var "x", .negate (.negate (.pow (.var "y") (.num 2)))]) (.num 3)
    e.IsFormula ∧ parse e.toPlainText = .ok e := by
  have hname : ∀ x ∈ ["x", "y"], IsVariableName x := by
    intro x hx
    simp only [List.mem_cons, List.not_mem_nil, or_false] at hx
    rcases hx with rfl | rfl <;>
      exact ⟨by decide, by simp [CharClass.of, Text.isAlphabetic], by decide⟩
  have hx : IsTerm (.var "x") := .var (hname "x" (by decide))
  have hy : IsTerm (.var "y") := .var (hname "y" (by decide))
  have h : IsFormula (.eqn (.sum [.var "x", .negate (.negate (.pow (.var "y") (.num 2)))])
      (.num 3)) :=
    .eqn (.sum hx (.negate (.negate (.pow hy (.num (by decide)))))) (.num (by decide))
  exact ⟨h, parse_toPlainText_exact.2.1 _ h⟩

end Expr

end ComputerAlgebra
