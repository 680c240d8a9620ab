import ComputerAlgebra.Proofs.Printing.Template
import ComputerAlgebra.Proofs.Printing.Transcription

/-!
# LaTeX source is unambiguous

Two trees with the same LaTeX source have the same value in all commutative rings, if the two names
of `π` mean the same. The source is transcribed to the lexemes of a formula, and what is read from
these has the value of the tree that was written (`Style.IsTypeset`). Both steps are functions of
the source alone.
-/

namespace ComputerAlgebra

open Parsing

universe u

/-! ### Numerals as names -/

namespace Interpretation

variable {R : Type u} [CommRing R] (I : Interpretation R)

/-- The interpretation in which names that consist of digits are numbers. -/
def withNumerals : Interpretation R where
  var x := if x.toList ≠ [] ∧ x.toList.all Char.isDigit then (digitsValue x.toList : R) else I.var x
  quot := I.quot
  pow := I.pow
  app := I.app

/-- A numeral has the value of its number, in every interpretation. -/
theorem withNumerals_repr (k : Nat) : I.withNumerals.value (.var k.repr) = (k : R) := by
  have hdigits : (Nat.toDigits 10 k).all Char.isDigit = true := by
    rw [List.all_eq_true]
    exact fun c hc => Nat.isDigit_of_mem_toDigits (by decide) (by decide) hc
  have hvalue : digitsValue (Nat.toDigits 10 k) = k := Nat.ofDigitChars_ten_toDigits
  have hne : Nat.toDigits 10 k ≠ [] := Nat.toDigits_ne_nil
  simp only [value, withNumerals, Nat.toList_repr]
  rw [if_pos ⟨hne, hdigits⟩, hvalue]

/-- A word is no numeral, and keeps its value. -/
theorem withNumerals_word {x : String} (h : ∀ c ∈ x.toList, CharClass.of c = .word) :
    I.withNumerals.value (.var x) = I.var x := by
  simp only [value, withNumerals]
  rw [if_neg]
  rintro ⟨hne, hdigits⟩
  obtain ⟨c, hc⟩ := List.exists_mem_of_ne_nil _ hne
  have hword := h c hc
  rw [Printing.Style.class_of_isDigit (List.all_eq_true.mp hdigits c hc)] at hword
  cases hword

end Interpretation

namespace Expr

variable {a a' b b' e e' e'' : Expr} {op : Operator}

/-- Two expressions have the same value under every interpretation that does not tell `pi` from
`π`. -/
def SameValue (e e' : Expr) : Prop :=
  ∀ (R : Type u) [CommRing R] (I : Interpretation R), I.var "pi" = I.var "π" →
    I.value e = I.value e'

/-- The first expression has the value that the second one has if its numerals are numbers. -/
def StandsFor (e e' : Expr) : Prop :=
  ∀ (R : Type u) [CommRing R] (I : Interpretation R), I.var "pi" = I.var "π" →
    I.value e = I.withNumerals.value e'

namespace StandsFor

/-- What stands for a tree stands for all equivalent trees. -/
theorem congr (h : StandsFor.{u} e e'') (he : Equivalent.{u} e e') : StandsFor.{u} e' e'' :=
  fun R _ I hpi => (he R I).symm.trans (h R I hpi)

/-- Operands that stand for trees make operators that do. -/
theorem combine (op : Operator) (ha : StandsFor.{u} a a') (hb : StandsFor.{u} b b') :
    StandsFor.{u} (Parsing.combine op a b) (Parsing.combine op a' b') := by
  intro R _ I hpi
  cases op <;>
    simp [Parsing.combine, subtract, ha R I hpi, hb R I hpi, Interpretation.withNumerals]

/-- What stands for a tree makes an opposite that does. -/
theorem negate (h : StandsFor.{u} a a') : StandsFor.{u} (.negate a) (.negate a') :=
  fun R _ I hpi => by simp [h R I hpi]

/-- What stands for an argument makes a function that does. -/
theorem app (f : Func) (h : StandsFor.{u} a a') : StandsFor.{u} (.app f a) (.app f a') :=
  fun R _ I hpi => by simp [h R I hpi, Interpretation.withNumerals]

end StandsFor

end Expr

namespace Printing

namespace Style

open ComputerAlgebra.Expr Transcription

variable {left right left' right' : Nat} {a b e e' : Expr} {es : List Expr} {n : Int64}
  {text ta tb : String} {ls : List Lexeme} {context : Option Operator} {op : Operator}

/-- The text is transcribed to lexemes that are read as an expression of the same value. -/
def IsTypeset (left right : Nat) (e : Expr) (text : String) : Prop :=
  ∃ ls e', Typesets text.toList ls ∧ ReadsBetween left right e' ls ∧ StandsFor.{u} e e'

/-- The digits of a number are set as its numeral. -/
theorem typesets_toDigits (k : Nat) : Typesets (Nat.toDigits 10 k) [.name k.repr] :=
  .number Nat.toDigits_ne_nil fun _ hc =>
    class_of_isDigit (Nat.isDigit_of_mem_toDigits (by decide) (by decide) hc)

/-- A function with a roman name is a command in front of parentheses. -/
theorem exists_command {f : Func} (habs : f ≠ .abs) (hsqrt : f ≠ .sqrt) :
    ∃ name, name ≠ "" ∧ (∀ c ∈ name.toList, c.isAlpha = true) ∧
      (∀ bs, command bs name = (⟨.item, bs⟩, [some (.func f)])) ∧
      latex.call f = ("\\" ++ name ++ "\\left(", "\\right)") := by
  refine ⟨String.ofList (latexName f).toList.tail, ?_⟩
  cases f with
  | abs | sqrt => contradiction
  | _ => simp [latexName, Func.name, command, Func.all, latex]

/-- A function with its argument is set as the style calls it: in parentheses, under a root or
between bars. -/
theorem typesets_call (f : Func) (ha : Typesets ta.toList ls) :
    Typesets ((latex.call f).1 ++ ta ++ (latex.call f).2).toList
      (.func f :: .leftParen :: ls ++ [.rightParen]) := by
  by_cases habs : f = .abs
  · subst habs
    simpa [latex] using ha.bars
  by_cases hsqrt : f = .sqrt
  · subst hsqrt
    simpa [latex] using ha.root
  obtain ⟨name, hne, hword, hname, hcall⟩ := exists_command habs hsqrt
  have htypesets := ha.call (by simpa using hne) hword (by simpa using hname)
  simpa [hcall] using htypesets

namespace IsTypeset

/-- An operand of its own is read between any two levels. -/
theorem of_reads (htypesets : Typesets text.toList ls) (hreads : Reads (max left right) e' ls)
    (he : StandsFor.{u} e e') : IsTypeset.{u} left right e text :=
  ⟨ls, e', htypesets, hreads.between (le_max_left _ _) (le_max_right _ _), he⟩

theorem mono (h : IsTypeset.{u} left right e text) (hleft : left' ≤ left)
    (hright : right' ≤ right) : IsTypeset.{u} left' right' e text := by
  obtain ⟨ls, e', htypesets, hreads, he'⟩ := h
  exact ⟨ls, e', htypesets, hreads.mono hleft hright, he'⟩

/-- What is set as a tree is set as all interchangeable trees. -/
theorem congr (h : IsTypeset.{u} left right e text) (he : Interchangeable.{u} e e') :
    IsTypeset.{u} left right e' text := by
  obtain ⟨ls, e'', htypesets, hreads, he''⟩ := h
  exact ⟨ls, e'', htypesets, hreads, he''.congr he.equivalent⟩

theorem paren (h : IsTypeset.{u} 1 1 e text) : IsTypeset.{u} left right e (latex.paren text) := by
  obtain ⟨ls, e', htypesets, hreads, he'⟩ := h
  refine of_reads ?_ (Reads.paren hreads) he'
  simpa [Style.paren, latex] using htypesets.paren

/-- A product of two factors is set with a dot between them. -/
theorem times (ha : IsTypeset.{u} 2 3 a ta) (hb : IsTypeset.{u} 3 3 b tb) :
    IsTypeset.{u} 2 3 (.prod [a, b]) (ta ++ latex.times ++ tb) := by
  obtain ⟨as, a', hta, hra, ha'⟩ := ha
  obtain ⟨bs, b', htb, hrb, hb'⟩ := hb
  have hreads : ReadsBetween 2 3 (combine .mul a' b') _ := hra.binary hrb le_rfl le_rfl
  refine ⟨as ++ .op .mul :: bs, combine .mul a' b', ?_, hreads, ha'.combine .mul hb'⟩
  simpa [latex] using hta.times htb

/-- A sum or difference is set with its sign between the addends. -/
theorem sign (op : Operator) (hop : op = .add ∨ op = .sub) (ha : IsTypeset.{u} 1 2 a ta)
    (hb : IsTypeset.{u} 2 2 b tb) :
    IsTypeset.{u} 1 2 (combine op a b) (ta ++ (" " ++ op.symbol ++ " " ++ tb)) := by
  obtain ⟨as, a', hta, hra, ha'⟩ := ha
  obtain ⟨bs, b', htb, hrb, hb'⟩ := hb
  refine ⟨as ++ .op op :: bs, combine op a' b', ?_, ?_, ha'.combine op hb'⟩
  · simpa [Operator.symbol] using hta.sign hop htb
  · rcases hop with rfl | rfl
    · exact hra.binary hrb le_rfl le_rfl
    · exact hra.binary hrb le_rfl le_rfl

theorem negate (hb : IsTypeset.{u} 3 3 b tb) : IsTypeset.{u} 3 3 (.negate b) ("-" ++ tb) := by
  obtain ⟨bs, b', htb, hrb, hb'⟩ := hb
  refine ⟨_, _, ?_, Reads.negate hrb le_rfl, hb'.negate⟩
  simpa using htb.minus

/-- A fraction bar holds its operands together, and the fraction with them. -/
theorem quot (ha : IsTypeset.{u} 1 1 a ta) (hb : IsTypeset.{u} 1 1 b tb) :
    IsTypeset.{u} left right (.quot a b) (latex.quotient.fill ta tb) := by
  obtain ⟨as, a', hta, hra, ha'⟩ := ha
  obtain ⟨bs, b', htb, hrb, hb'⟩ := hb
  have hquot : Reads 1 (combine .div a' b') _ :=
    Reads.binary (Reads.paren hra) (Reads.paren hrb) (by decide)
  refine of_reads ?_ (Reads.paren hquot) (ha'.combine .div hb')
  simpa [Layout.fill, latex] using hta.fraction htb

/-- An exponent is raised as a whole. -/
theorem pow (ha : IsTypeset.{u} 4 4 a ta) (hb : IsTypeset.{u} 1 1 b tb) :
    IsTypeset.{u} 3 3 (.pow a b) (latex.power.fill ta tb) := by
  obtain ⟨as, a', hta, hra, ha'⟩ := ha
  obtain ⟨bs, b', htb, hrb, hb'⟩ := hb
  have hpow : Reads 3 (combine .pow a' b') _ := Reads.binary hra (Reads.paren hrb) le_rfl
  refine ⟨_, _, ?_, hpow, ha'.combine .pow hb'⟩
  simpa [Layout.fill, latex] using hta.power htb

/-- A function is set anywhere, if its argument is. -/
theorem app (f : Func) (ha : IsTypeset.{u} 1 1 a ta) :
    IsTypeset.{u} left right (.app f a) ((latex.call f).1 ++ ta ++ (latex.call f).2) := by
  obtain ⟨as, a', hta, hra, ha'⟩ := ha
  exact of_reads (typesets_call f hta) (Reads.app f hra) (ha'.app f)

/-- A variable is set anywhere by its name. -/
theorem var {x : String} (hne : x.toList ≠ []) (hword : ∀ c ∈ x.toList, CharClass.of c = .word) :
    IsTypeset.{u} left right (.var x) (latex.name x) := by
  by_cases hpi : x = "pi" ∨ x = "π"
  · refine of_reads ?_ (.name "pi") ?_
    · simpa [latex, hpi] using Typesets.pi
    · intro R _ I h
      have hname : I.var x = I.var "pi" := by rcases hpi with rfl | rfl <;> simp [h]
      rw [I.withNumerals_word (by simp [CharClass.of, Text.isAlphabetic])]
      simpa [Interpretation.value] using hname
  · refine of_reads ?_ (.name x) ?_
    · have htypesets := Typesets.word hne hword
      rw [String.ofList_toList] at htypesets
      simpa [latex, hpi] using htypesets
    · intro R _ I _
      rw [I.withNumerals_word hword, Interpretation.value]

/-- A number that is not negative is set anywhere by its digits. -/
theorem digits_nonneg (h : 0 ≤ n) : IsTypeset.{u} left right (.num n) (digits n) := by
  refine of_reads ?_ (.name n.toInt.toNat.repr) ?_
  · rw [toList_digits h]
    exact typesets_toDigits _
  · intro R _ I _
    have hn : ((n.toInt.toNat : Int) : R) = (n.toInt : R) := by
      rw [Int64.le_iff_toInt_le, Int64.toInt_zero] at h
      rw [Int.toNat_of_nonneg h]
    rw [I.withNumerals_repr, Interpretation.value_num, ← hn, Int.cast_natCast]

/-- The digits of the least integer are no exception here. -/
theorem digits (n : Int64) : IsTypeset.{u} 3 3 (.num n) (digits n) := by
  by_cases h : n < 0
  · refine ⟨_, _, ?_, Reads.negate (.name n.toInt.natAbs.repr) le_rfl, ?_⟩
    · rw [toList_digits_of_neg h]
      exact (typesets_toDigits _).minus
    · intro R _ I _
      have hn : ((n.toInt.natAbs : Int) : R) = -(n.toInt : R) := by
        rw [Int64.lt_iff_toInt_lt, Int64.toInt_zero] at h
        rw [Int.ofNat_natAbs_of_nonpos h.le, Int.cast_neg]
      rw [Int.cast_natCast] at hn
      rw [Interpretation.value_negate, I.withNumerals_repr, hn, neg_neg, Interpretation.value_num]
  · exact digits_nonneg (Int64.not_lt.1 h)

end IsTypeset

/-- Typesetting gets along with sums and products. -/
theorem template_latex : Template.{u} latex IsTypeset.{u} where
  mono := .mono
  congr := .congr
  paren := .paren
  wrap {_ op _} hop := by
    refine wrap_of_wraps (fun outer => ?_) _
    cases op with
    | div => contradiction
    | _ => rfl
  times := .times
  plus := .sign .add (.inl rfl)
  minus := .sign .sub (.inr rfl)
  negate := .negate
  digits := .digits
  digits_nonneg := .digits_nonneg

/-! ### Trees -/

/-- The text of the expression is typeset in every context. -/
abbrev IsLegible (e : Expr) : Prop := latex.FaithfulAddend IsTypeset.{u} e

theorem isLegible_var {x : String} (hne : x.toList ≠ [])
    (hword : ∀ c ∈ x.toList, CharClass.of c = .word) : IsLegible.{u} (.var x) :=
  ⟨.var x, fun _ => .var hne hword, by rintro _ ⟨⟩⟩

/-- A quotient is legible if its parts are. As a fraction it needs no parentheses. -/
theorem isLegible_quot (ha : IsLegible.{u} a) (hb : IsLegible.{u} b) :
    IsLegible.{u} (.quot a b) := by
  refine ⟨.quot ha.wellFormed hb.wellFormed, fun context => ?_, by rintro _ ⟨⟩⟩
  rw [render, wrap]
  split_ifs
  · exact (IsTypeset.quot (ha.faithful none) (hb.faithful none)).paren
  · exact .quot (ha.faithful none) (hb.faithful none)

/-- A power is legible if its parts are. Its exponent needs no parentheses. -/
theorem isLegible_pow (ha : IsLegible.{u} a) (hb : IsLegible.{u} b) : IsLegible.{u} (.pow a b) := by
  refine ⟨.pow ha.wellFormed hb.wellFormed, fun context => ?_, by rintro _ ⟨⟩⟩
  rw [render]
  exact template_latex.wrapped (by decide) (.pow (ha.faithful (some .pow)) (hb.faithful none))

/-- A function is legible if its argument is. -/
theorem isLegible_app (f : Func) (ha : IsLegible.{u} a) : IsLegible.{u} (.app f a) :=
  ⟨.app f ha.wellFormed, fun _ => .app f (ha.faithful none), by rintro _ ⟨⟩⟩

end Style

end Printing

namespace Expr

open Printing Printing.Style

/-- Trees with sums and products of two or more operands, whose variables are words. -/
inductive IsWordTerm : Expr → Prop where
  | var {x : String} (hne : x.toList ≠ []) (hword : ∀ c ∈ x.toList, CharClass.of c = .word) :
      IsWordTerm (.var x)
  | num (n : Int64) : IsWordTerm (.num n)
  | sum {es : List Expr} (hlen : 2 ≤ es.length) (h : ∀ e ∈ es, IsWordTerm e) :
      IsWordTerm (.sum es)
  | prod {es : List Expr} (hlen : 2 ≤ es.length) (h : ∀ e ∈ es, IsWordTerm e) :
      IsWordTerm (.prod es)
  | quot {a b : Expr} (ha : IsWordTerm a) (hb : IsWordTerm b) : IsWordTerm (.quot a b)
  | pow {a b : Expr} (ha : IsWordTerm a) (hb : IsWordTerm b) : IsWordTerm (.pow a b)
  | app (f : Func) {a : Expr} (ha : IsWordTerm a) : IsWordTerm (.app f a)

/-- Such a tree, or an equation of two of them. -/
inductive IsWordFormula : Expr → Prop where
  | term {e : Expr} (h : IsWordTerm e) : IsWordFormula e
  | eqn {l r : Expr} (hl : IsWordTerm l) (hr : IsWordTerm r) : IsWordFormula (.eqn l r)

/-- Both are equations whose sides have the same values, or both are not and have the same value. -/
inductive Coincide : Expr → Expr → Prop where
  | term {e e' : Expr} (he : e.isEquation = false) (he' : e'.isEquation = false)
      (h : SameValue.{u} e e') : Coincide e e'
  | eqn {l l' r r' : Expr} (hl : SameValue.{u} l l') (hr : SameValue.{u} r r') :
      Coincide (.eqn l r) (.eqn l' r')

variable {a b e e' l r : Expr} {ls : List Lexeme}

theorem IsWordTerm.isEquation (h : e.IsWordTerm) : e.isEquation = false := by
  cases h <;> rfl

/-- A word term is legible, whatever the number of operands in its nodes. -/
theorem IsWordTerm.isLegible (h : e.IsWordTerm) : IsLegible.{u} e := by
  induction h with
  | var hne hword => exact isLegible_var hne hword
  | num n => exact template_latex.numAddend n
  | sum hlen _ ih => exact template_latex.sumAddend hlen ih
  | prod hlen _ ih => exact template_latex.prodAddend hlen ih
  | quot _ _ iha ihb => exact isLegible_quot iha ihb
  | pow _ _ iha ihb => exact isLegible_pow iha ihb
  | app f _ ih => exact isLegible_app f ih

/-- The lexemes are read as an expression of the same value. -/
def IsTranscript (e : Expr) (ls : List Lexeme) : Prop :=
  ∃ e', Grammar.read? ls = some e' ∧ StandsFor.{u} e e'

/-- Trees with one transcript have one value, in all interpretations of names, quotients, powers and
functions. -/
theorem IsTranscript.sameValue (h : IsTranscript.{u} e ls) (h' : IsTranscript.{u} e' ls) :
    SameValue.{u} e e' := by
  obtain ⟨_, hread, he⟩ := h
  obtain ⟨_, hread', he'⟩ := h'
  cases hread.symm.trans hread'
  intro R _ I hpi
  rw [he R I hpi, he' R I hpi]

/-- A word term has a transcript. -/
theorem IsWordTerm.exists_transcript (h : e.IsWordTerm) :
    ∃ ls, Transcription.Typesets e.toLatex.toList ls ∧ IsTranscript.{u} e ls := by
  obtain ⟨ls, e', htypesets, hreads, he'⟩ := h.isLegible.faithful none
  exact ⟨ls, htypesets, e', Reads.read? hreads, he'⟩

/-- The program's text of a word term is transcribed as its transcript. -/
theorem transcript_toLatex_term (h : e.IsWordTerm) :
    ∃ ls, transcript e.toLatex = ls.map some ∧ IsTranscript.{u} e ls := by
  obtain ⟨ls, htypesets, hls⟩ := h.exists_transcript
  exact ⟨ls, htypesets.transcript_eq, hls⟩

/-- The program's text of an equation is transcribed as the transcripts of both sides, with the sign
between them. -/
theorem transcript_toLatex_eqn (hl : l.IsWordTerm) (hr : r.IsWordTerm) :
    ∃ ls ls', transcript (toLatex (.eqn l r)) = ls.map some ++ none :: ls'.map some ∧
      IsTranscript.{u} l ls ∧ IsTranscript.{u} r ls' := by
  obtain ⟨ls, htypesets, hls⟩ := hl.exists_transcript
  obtain ⟨ls', htypesets', hls'⟩ := hr.exists_transcript
  have htext : (toLatex (.eqn l r)).toList =
      l.toLatex.toList ++ ' ' :: '=' :: ' ' :: r.toLatex.toList := by
    simp [toLatex, render]
  refine ⟨ls, ls', ?_, hls, hls'⟩
  exact htypesets.transcript_equation htypesets' htext

/-- Formulas with the same LaTeX source have the same value in all commutative rings, side by side
if they are equations, provided that `pi` and `π` mean the same. -/
theorem coincide_of_toLatex_eq (ha : a.IsWordFormula) (hb : b.IsWordFormula)
    (h : a.toLatex = b.toLatex) : Coincide.{u} a b := by
  have htranscript := congrArg transcript h
  cases ha with
  | term ha =>
    obtain ⟨ls, hls, htra⟩ := transcript_toLatex_term.{u} ha
    rw [hls] at htranscript
    cases hb with
    | term hb =>
      obtain ⟨ls', hls', htrb⟩ := transcript_toLatex_term.{u} hb
      rw [hls', List.map_inj_right fun _ _ => Option.some.inj] at htranscript
      subst htranscript
      exact .term ha.isEquation hb.isEquation (htra.sameValue htrb)
    | eqn hl hr =>
      obtain ⟨ls', ls'', hls', -⟩ := transcript_toLatex_eqn.{u} hl hr
      rw [hls'] at htranscript
      have hnone : none ∈ ls.map some := by simp [htranscript]
      simp at hnone
  | eqn hl hr =>
    obtain ⟨as, as', has, htrl, htrr⟩ := transcript_toLatex_eqn.{u} hl hr
    rw [has] at htranscript
    cases hb with
    | term hb =>
      obtain ⟨ls, hls, -⟩ := transcript_toLatex_term.{u} hb
      rw [hls] at htranscript
      have hnone : none ∈ ls.map some := by simp [← htranscript]
      simp at hnone
    | eqn hl' hr' =>
      obtain ⟨bs, bs', hbs, htrl', htrr'⟩ := transcript_toLatex_eqn.{u} hl' hr'
      rw [hbs, List.append_cons_inj_of_notMem (by simp) (by simp)] at htranscript
      obtain ⟨hleft, -, hright⟩ := htranscript
      rw [List.map_inj_right fun _ _ => Option.some.inj] at hleft hright
      subst hleft hright
      exact .eqn (htrl.sameValue htrl') (htrr.sameValue htrr')

/-- The source `-5 \\cdot \\pi = x - 3` belongs to several trees. -/
theorem coincide_of_toLatex_eq_signs :
    let a : Expr := .eqn (.prod [.num (-5), .var "pi"]) (.sum [.var "x", .num (-3)])
    let b : Expr := .eqn (.prod [.num (-1), .num 5, .var "π"])
      (.sum [.var "x", .prod [.num (-1), .num 3]])
    a.IsWordFormula ∧ b.IsWordFormula ∧ a.toLatex = b.toLatex ∧ Coincide.{0} a b := by
  have hpi : Text.isAlphabetic 'π' = true := by decide +kernel
  have hword : IsWordTerm (.var "pi") ∧ IsWordTerm (.var "π") ∧ IsWordTerm (.var "x") := by
    refine ⟨.var (by decide) ?_, .var (by decide) ?_, .var (by decide) ?_⟩ <;>
      simp [CharClass.of, Text.isAlphabetic_of_isAlpha, hpi]
  have ha : IsWordFormula (.eqn (.prod [.num (-5), .var "pi"]) (.sum [.var "x", .num (-3)])) :=
    .eqn (.prod (by decide) (by simp [IsWordTerm.num, hword]))
      (.sum (by decide) (by simp [IsWordTerm.num, hword]))
  have hthree : IsWordTerm (.prod [.num (-1), .num 3]) :=
    .prod (by decide) (by simp [IsWordTerm.num])
  have hb : IsWordFormula (.eqn (.prod [.num (-1), .num 5, .var "π"])
      (.sum [.var "x", .prod [.num (-1), .num 3]])) :=
    .eqn (.prod (by decide) (by simp [IsWordTerm.num, hword]))
      (.sum (by decide) (by simp [hthree, hword]))
  have htext : toLatex (.eqn (.prod [.num (-5), .var "pi"]) (.sum [.var "x", .num (-3)])) =
      toLatex (.eqn (.prod [.num (-1), .num 5, .var "π"])
        (.sum [.var "x", .prod [.num (-1), .num 3]])) := by
    decide +kernel
  exact ⟨ha, hb, htext, coincide_of_toLatex_eq ha hb htext⟩

end Expr

end ComputerAlgebra
