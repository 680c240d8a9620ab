import ComputerAlgebra.Printing.Style
import ComputerAlgebra.Proofs.Parsing.Scanning

/-!
# Formulas that LaTeX source writes

LaTeX source is transcribed to the lexemes of a formula with the same structure, token by token:
`\frac{a}{b}` to `((a)/(b))`, `a^{b}` to `a^(b)`, `\left|a\right|` to `abs(a)`, and so on. Braces
are matched on a stack, since a closing brace means different things after a numerator, a
denominator and any other group. Numerals are transcribed to names, so that all of them are read,
the digits of the least integer included.

A text typesets lexemes if it is transcribed to them wherever it stands (`Transcription.Typesets`).
-/

namespace ComputerAlgebra

namespace Printing

open Parsing

/-- What a pair of braces encloses. -/
inductive Brace where
  | group | numerator | denominator

/-- What the next token belongs to: it stands for itself, or it completes a command or a
parenthesis, or it opens a brace. -/
inductive Awaited where
  | item | command | opening | closing | brace (b : Brace)

/-- How far a transcription has come: what it awaits, and which braces are open, the innermost
first. -/
structure Transcription where
  awaited : Awaited
  braces : List Brace

namespace Transcription

/-- What a command stands for, and what it is followed by. -/
def command (bs : List Brace) (word : String) : Transcription × List (Option Lexeme) :=
  if word = "frac" then (⟨.brace .numerator, bs⟩, [some .leftParen])
  else if word = "sqrt" then (⟨.brace .group, bs⟩, [some (.func .sqrt)])
  else if word = "left" then (⟨.opening, bs⟩, [])
  else if word = "right" then (⟨.closing, bs⟩, [])
  else if word = "cdot" then (⟨.item, bs⟩, [some (.op .mul)])
  else if word = "pi" then (⟨.item, bs⟩, [some (.name word)])
  else (⟨.item, bs⟩,
    ((Func.all.find? fun f => Style.latexName f = "\\" ++ word).map fun f => some (.func f)).toList)

/-- What a symbol stands for. An equality sign has no lexeme, and all other symbols close braces. -/
def symbol (bs : List Brace) (text : String) : Transcription × List (Option Lexeme) :=
  if text = "\\" then (⟨.command, bs⟩, [])
  else if text = "^" then (⟨.brace .group, bs⟩, [some (.op .pow)])
  else if text = "+" then (⟨.item, bs⟩, [some (.op .add)])
  else if text = "-" then (⟨.item, bs⟩, [some (.op .sub)])
  else if text = "=" then (⟨.item, bs⟩, [none])
  else match bs with
    | .group :: bs => (⟨.item, bs⟩, [some .rightParen])
    | .numerator :: bs => (⟨.brace .denominator, bs⟩, [some .rightParen, some (.op .div)])
    | .denominator :: bs => (⟨.item, bs⟩, [some .rightParen, some .rightParen])
    | [] => (⟨.item, []⟩, [])

/-- Transcribe one token. -/
def step (m : Transcription) (t : Token) : Transcription × List (Option Lexeme) :=
  match m.awaited with
  | .item =>
    if t.cls = .symbol then symbol m.braces t.text
    else (⟨.item, m.braces⟩, [some (.name t.text)])
  | .command => command m.braces t.text
  | .opening =>
    (⟨.item, m.braces⟩,
      if t.text = "|" then [some (.func .abs), some .leftParen] else [some .leftParen])
  | .closing => (⟨.item, m.braces⟩, [some .rightParen])
  | .brace b => (⟨.item, b :: m.braces⟩, [some .leftParen])

/-- Transcribe tokens. -/
def run (m : Transcription) : List Token → Transcription × List (Option Lexeme)
  | [] => (m, [])
  | t :: ts =>
    let (m', ls) := m.step t
    let (m'', ls') := run m' ts
    (m'', ls ++ ls')

/-- Tokens are transcribed one after the other, the second ones from the state that the first ones
leave. -/
theorem run_append (m : Transcription) (ts us : List Token) :
    m.run (ts ++ us) =
      (((m.run ts).1.run us).1, (m.run ts).2 ++ ((m.run ts).1.run us).2) := by
  induction ts generalizing m with
  | nil => rfl
  | cons t ts ih => simp [run, ih]

/-- The text takes one transcription to another one, wherever it stands. -/
def Takes (m : Transcription) (cs : List Char) (m' : Transcription)
    (ls : List (Option Lexeme)) : Prop :=
  ∀ start, m.run (Token.scan start cs) = (m', ls)

variable {m m' m'' : Transcription} {cs cs' : List Char} {ls ls' : List (Option Lexeme)} {c : Char}
  {bs : List Brace} {b : Brace}

namespace Takes

open Token (Breaks)

theorem nil (m : Transcription) : Takes m [] m [] := fun _ => rfl

/-- Two texts that break off from each other are transcribed one after the other. -/
theorem append (h : Takes m cs m' ls) (h' : Takes m' cs' m'' ls') (hbreaks : Breaks cs') :
    Takes m (cs ++ cs') m'' (ls ++ ls') := by
  intro start
  rw [Token.scan_append hbreaks, run_append, h start, h' _]

theorem blank (hc : CharClass.of c = .blank) (h : Takes m cs m' ls) : Takes m (c :: cs) m' ls := by
  intro start
  rw [Token.scan_blank hc]
  exact h _

/-- A symbol is transcribed by one step. -/
theorem of_step {out : List (Option Lexeme)} (hc : CharClass.of c = .symbol)
    (h : Takes m' cs m'' ls') (hstep : ∀ start, m.step ⟨.symbol, start, [c]⟩ = (m', ls))
    (hout : out = ls ++ ls') : Takes m (c :: cs) m'' out := by
  intro start
  simp [Token.scan_symbol hc, run, hstep, h _, hout]

/-- A word is transcribed as a name, and leaves the braces open that are open. -/
theorem word (hne : cs ≠ []) (h : ∀ c ∈ cs, CharClass.of c = .word) :
    Takes ⟨.item, bs⟩ cs ⟨.item, bs⟩ [some (.name (String.ofList cs))] := by
  intro start
  rw [Token.scan_run rfl hne h]
  rfl

theorem number (hne : cs ≠ []) (h : ∀ c ∈ cs, CharClass.of c = .number) :
    Takes ⟨.item, bs⟩ cs ⟨.item, bs⟩ [some (.name (String.ofList cs))] := by
  intro start
  rw [Token.scan_run rfl hne h]
  rfl

/-- A command reaches to the first character that is no letter. -/
theorem command {out : List (Option Lexeme)} (hword : ∀ c ∈ cs, c.isAlpha = true)
    (h : Takes m cs' m' ls') (hbreaks : Breaks cs') (hne : cs ≠ [])
    (hcommand : Transcription.command bs (String.ofList cs) = (m, ls)) (hout : out = ls ++ ls') :
    Takes ⟨.item, bs⟩ ('\\' :: (cs ++ cs')) m' out := by
  have hclass : ∀ c ∈ cs, CharClass.of c = .word := fun c hc => by
    simp [CharClass.of, Text.isAlphabetic_of_isAlpha (hword c hc)]
  have hname : Takes ⟨.command, bs⟩ cs m ls := by
    intro start
    rw [Token.scan_run rfl hne hclass]
    simp [run, step, Token.text, hcommand]
  exact of_step (by decide) (hname.append h hbreaks) (fun _ => rfl) hout

end Takes

/-- The text is transcribed to the lexemes, wherever it stands and whatever braces are open. -/
def Typesets (cs : List Char) (ls : List Lexeme) : Prop :=
  ∀ bs, Takes ⟨.item, bs⟩ cs ⟨.item, bs⟩ (ls.map some)

namespace Typesets

open Token (Breaks)

variable {xs ys : List Char} {as ls : List Lexeme}

/-- A word stands for a name in any context. -/
theorem word (hne : xs ≠ []) (h : ∀ c ∈ xs, CharClass.of c = .word) :
    Typesets xs [.name (String.ofList xs)] :=
  fun _ => .word hne h

/-- Digits stand for a name too: numerals are names of constants. -/
theorem number (hne : xs ≠ []) (h : ∀ c ∈ xs, CharClass.of c = .number) :
    Typesets xs [.name (String.ofList xs)] :=
  fun _ => .number hne h

/-- The letter pi is transcribed as the name of the constant. -/
theorem pi : Typesets ['\\', 'p', 'i'] [.name "pi"] := by
  intro bs
  show Takes _ ('\\' :: (['p', 'i'] ++ [])) _ _
  exact .command (by simp) (.nil _) .nil (by decide) rfl rfl

theorem minus (hy : Typesets ys ls) : Typesets ('-' :: ys) (.op .sub :: ls) :=
  fun bs => .of_step (by decide) (hy bs) (fun _ => rfl) rfl

/-- A sign between blanks. -/
theorem sign {op : Operator} (hop : op = .add ∨ op = .sub) (hx : Typesets xs as)
    (hy : Typesets ys ls) :
    Typesets (xs ++ ' ' :: op.char :: ' ' :: ys) (as ++ .op op :: ls) := by
  intro bs
  have hblank : CharClass.of ' ' = .blank := by decide
  have hsign : Takes ⟨.item, bs⟩ (op.char :: ' ' :: ys) ⟨.item, bs⟩
      (some (.op op) :: ls.map some) := by
    rcases hop with rfl | rfl
    · exact .of_step (by decide) (.blank hblank (hy bs)) (fun _ => rfl) rfl
    · exact .of_step (by decide) (.blank hblank (hy bs)) (fun _ => rfl) rfl
  rw [List.map_append]
  exact (hx bs).append (.blank hblank hsign) (.cons (by decide))

/-- The dot of a product is transcribed as a multiplication sign. -/
theorem times (hx : Typesets xs as) (hy : Typesets ys ls) :
    Typesets (xs ++ ' ' :: '\\' :: (['c', 'd', 'o', 't'] ++ ' ' :: ys)) (as ++ .op .mul :: ls) := by
  intro bs
  have hblank : CharClass.of ' ' = .blank := by decide
  have htimes : Takes ⟨.item, bs⟩ ('\\' :: (['c', 'd', 'o', 't'] ++ ' ' :: ys)) ⟨.item, bs⟩
      (some (.op .mul) :: ls.map some) :=
    .command (by simp) (.blank hblank (hy bs)) (.cons (by decide)) (by decide) rfl rfl
  rw [List.map_append]
  exact (hx bs).append (.blank hblank htimes) (.cons (by decide))

/-- A pair of braces around a text. -/
theorem braces {m : Transcription} {b : Brace} {bs : List Brace} {rest : List (Option Lexeme)}
    (hy : Typesets ys ls) (hclose : Takes ⟨.item, b :: bs⟩ ('}' :: xs) m rest) :
    Takes ⟨.brace b, bs⟩ ('{' :: (ys ++ '}' :: xs)) m
      (some .leftParen :: (ls.map some ++ rest)) :=
  .of_step (by decide) ((hy (b :: bs)).append hclose (.cons (by decide))) (fun _ => rfl) rfl

/-- Braces that only group are transcribed as parentheses. -/
theorem group {bs : List Brace} (hy : Typesets ys ls) :
    Takes ⟨.brace .group, bs⟩ ('{' :: (ys ++ ['}'])) ⟨.item, bs⟩
      (some .leftParen :: (ls.map some ++ [some .rightParen])) :=
  hy.braces (.of_step (by decide) (.nil _) (fun _ => rfl) rfl)

/-- A superscript is transcribed as an exponent in parentheses. -/
theorem power (hx : Typesets xs as) (hy : Typesets ys ls) :
    Typesets (xs ++ '^' :: '{' :: (ys ++ ['}']))
      (as ++ .op .pow :: (.leftParen :: ls ++ [.rightParen])) := by
  intro bs
  have hpower : Takes ⟨.item, bs⟩ ('^' :: '{' :: (ys ++ ['}'])) ⟨.item, bs⟩
      (some (.op .pow) :: some .leftParen :: (ls.map some ++ [some .rightParen])) :=
    .of_step (by decide) hy.group (fun _ => rfl) rfl
  simpa using (hx bs).append hpower (.cons (by decide))

/-- A fraction is transcribed as a quotient in parentheses, of a numerator and a denominator in
parentheses. -/
theorem fraction (hx : Typesets xs as) (hy : Typesets ys ls) :
    Typesets ('\\' :: (['f', 'r', 'a', 'c'] ++ '{' :: (xs ++ '}' :: '{' :: (ys ++ ['}']))))
      (.leftParen :: (.leftParen :: as ++ [.rightParen] ++
        .op .div :: (.leftParen :: ls ++ [.rightParen])) ++ [.rightParen]) := by
  intro bs
  have hdenominator : Takes ⟨.brace .denominator, bs⟩ ('{' :: (ys ++ ['}'])) ⟨.item, bs⟩
      (some .leftParen :: (ls.map some ++ [some .rightParen, some .rightParen])) :=
    hy.braces (.of_step (by decide) (.nil _) (fun _ => rfl) rfl)
  have hnumerator : Takes ⟨.brace .numerator, bs⟩
      ('{' :: (xs ++ '}' :: '{' :: (ys ++ ['}']))) ⟨.item, bs⟩ _ :=
    hx.braces (.of_step (by decide) hdenominator (fun _ => rfl) rfl)
  exact .command (by simp) hnumerator (.cons (by decide)) (by decide) rfl (by simp)

/-- What stands between `\left` and `\right`. -/
theorem between (bs : List Brace) (opening closing : Char) {rest : List (Option Lexeme)}
    (hx : Typesets xs as) (hopening : CharClass.of opening = .symbol)
    (hclosing : CharClass.of closing = .symbol)
    (hstep : ∀ start, step ⟨.opening, bs⟩ ⟨.symbol, start, [opening]⟩ = (⟨.item, bs⟩, rest)) :
    Takes ⟨.item, bs⟩ ('\\' :: (['l', 'e', 'f', 't'] ++ opening ::
        (xs ++ '\\' :: (['r', 'i', 'g', 'h', 't'] ++ [closing])))) ⟨.item, bs⟩
      (rest ++ (as.map some ++ [some .rightParen])) := by
  have hclose : Takes ⟨.closing, bs⟩ [closing] ⟨.item, bs⟩ [some .rightParen] :=
    .of_step hclosing (.nil _) (fun _ => rfl) rfl
  have hright : Takes ⟨.item, bs⟩ ('\\' :: (['r', 'i', 'g', 'h', 't'] ++ [closing])) ⟨.item, bs⟩
      [some .rightParen] :=
    .command (by simp) hclose (.cons (by rw [hclosing]; rfl)) (by decide) rfl rfl
  have hopen : Takes ⟨.opening, bs⟩ (opening :: (xs ++ _)) ⟨.item, bs⟩ _ :=
    .of_step hopening ((hx bs).append hright (.cons (by decide))) hstep rfl
  exact .command (by simp) hopen (.cons (by rw [hopening]; rfl)) (by decide) rfl rfl

/-- Sized parentheses are transcribed as parentheses. -/
theorem paren (hx : Typesets xs as) :
    Typesets ('\\' :: (['l', 'e', 'f', 't'] ++ '(' ::
        (xs ++ '\\' :: (['r', 'i', 'g', 'h', 't'] ++ [')']))))
      (.leftParen :: as ++ [.rightParen]) := by
  intro bs
  have hparen := hx.between bs '(' ')' (by decide) (by decide) (fun _ => rfl)
  simpa using hparen

/-- Sized bars are transcribed as the function of the absolute value. -/
theorem bars (hx : Typesets xs as) :
    Typesets ('\\' :: (['l', 'e', 'f', 't'] ++ '|' ::
        (xs ++ '\\' :: (['r', 'i', 'g', 'h', 't'] ++ ['|']))))
      (.func .abs :: .leftParen :: as ++ [.rightParen]) := by
  intro bs
  have hbars := hx.between bs '|' '|' (by decide) (by decide) (fun _ => rfl)
  simpa using hbars

/-- A root is transcribed as its function. -/
theorem root (hx : Typesets xs as) :
    Typesets ('\\' :: (['s', 'q', 'r', 't'] ++ '{' :: (xs ++ ['}'])))
      (.func .sqrt :: .leftParen :: as ++ [.rightParen]) :=
  fun bs => .command (by simp) hx.group (.cons (by decide)) (by decide) rfl (by simp)

/-- The call of a function whose name is a command. -/
theorem call {name : List Char} {f : Func} (hne : name ≠ []) (hword : ∀ c ∈ name, c.isAlpha = true)
    (hname : ∀ bs, command bs (String.ofList name) = (⟨.item, bs⟩, [some (.func f)]))
    (hx : Typesets xs as) :
    Typesets ('\\' :: (name ++ '\\' :: (['l', 'e', 'f', 't'] ++ '(' ::
        (xs ++ '\\' :: (['r', 'i', 'g', 'h', 't'] ++ [')'])))))
      (.func f :: .leftParen :: as ++ [.rightParen]) :=
  fun bs => .command hword (hx.paren bs) (.cons (by decide)) hne (hname bs) (by simp)

end Typesets

end Transcription

open Transcription

/-- What a text is transcribed to. -/
def transcript (text : String) : List (Option Lexeme) :=
  (Transcription.run ⟨.item, []⟩ (Token.ofText text)).2

/-- The transcript of a text are the lexemes that it stands for. -/
theorem Transcription.Typesets.transcript_eq {text : String} {ls : List Lexeme}
    (h : Typesets text.toList ls) : transcript text = ls.map some := by
  rw [transcript, Token.ofText, h [] 0]

/-- An equality sign is kept apart from the lexemes. -/
theorem Transcription.Typesets.transcript_equation {text ta tb : String} {as bs : List Lexeme}
    (ha : Typesets ta.toList as) (hb : Typesets tb.toList bs)
    (htext : text.toList = ta.toList ++ ' ' :: '=' :: ' ' :: tb.toList) :
    transcript text = as.map some ++ none :: bs.map some := by
  have hblank : CharClass.of ' ' = .blank := by decide
  have hequals : Takes ⟨.item, []⟩ ('=' :: ' ' :: tb.toList) ⟨.item, []⟩ (none :: bs.map some) :=
    .of_step (by decide) (.blank hblank (hb [])) (fun _ => rfl) rfl
  have htakes := (ha []).append (.blank hblank hequals) (.cons (by decide))
  rw [transcript, Token.ofText, htext, htakes 0]

end Printing

end ComputerAlgebra
