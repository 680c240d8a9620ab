import ComputerAlgebra.Proofs.Parsing.Image

/-!
# Texts that spell lexemes

A text spells lexemes if its tokens mean them one by one, wherever the text stands. Texts are put
together at characters that belong to no run.
-/

namespace ComputerAlgebra

namespace Parsing

/-- The token means the lexeme and is no equality sign. -/
structure Token.Means (t : Token) (l : Lexeme) : Prop where
  not_equals : t.isEquals = false
  lexeme : ∃ span, t.lexeme = .ok ⟨l, span⟩

/-- The tokens of the text mean the lexemes. -/
def Spells (cs : List Char) (ls : List Lexeme) : Prop :=
  ∀ start, List.Forall₂ Token.Means (Token.scan start cs) ls

namespace Spells

open Token (Breaks)

variable {cs cs' : List Char} {ls ls' : List Lexeme} {c : Char} {l : Lexeme}

/-- Texts that break off from each other spell their lexemes one after the other. -/
theorem append (h : Spells cs ls) (h' : Spells cs' ls') (hbreaks : Breaks cs') :
    Spells (cs ++ cs') (ls ++ ls') := by
  intro start
  rw [Token.scan_append hbreaks]
  exact List.rel_append (h start) (h' _)

theorem blank (hc : CharClass.of c = .blank) (h : Spells cs ls) : Spells (c :: cs) ls := by
  intro start
  rw [Token.scan_blank hc]
  exact h _

/-- A symbol spells its lexeme, and may be followed by anything. -/
theorem symbol (hc : CharClass.of c = .symbol)
    (hl : Lexeme.ofSymbol? (String.singleton c) = some l) (h : Spells cs ls) :
    Spells (c :: cs) (l :: ls) := by
  intro start
  rw [Token.scan_symbol hc]
  refine .cons ⟨?_, Token.span ⟨.symbol, start, [c]⟩, ?_⟩ (h _)
  · rw [Token.isEquals, decide_eq_false_iff_not]
    rintro ⟨⟩
    have hnone : Lexeme.ofSymbol? (String.singleton '=') = none := by decide
    rw [hnone] at hl
    cases hl
  · simp [Token.lexeme, Token.text, hl]

/-- A word spells a function or, if there is none of this name, a name. -/
theorem word (hne : cs ≠ []) (h : ∀ c ∈ cs, CharClass.of c = .word) :
    Spells cs [((Func.ofName? (String.ofList cs)).elim (.name (String.ofList cs)) .func)] := by
  intro start
  rw [Token.scan_run rfl hne h]
  refine .cons ⟨?_, ?_⟩ .nil
  · rw [Token.isEquals, decide_eq_false_iff_not]
    rintro rfl
    exact absurd (h '=' List.mem_cons_self) (by decide)
  · cases hf : Func.ofName? (String.ofList cs) <;> simp [Token.lexeme, Token.text, hf]

/-- Digits and points spell a number, be it well-formed or not. -/
theorem number (hne : cs ≠ []) (h : ∀ c ∈ cs, CharClass.of c = .number) :
    Spells cs [.number cs] := by
  intro start
  rw [Token.scan_run rfl hne h]
  refine .cons ⟨?_, _, rfl⟩ .nil
  rw [Token.isEquals, decide_eq_false_iff_not]
  rintro rfl
  exact absurd (h '=' List.mem_cons_self) (by decide)

/-- What a text spells are the lexemes of its tokens. -/
theorem mapM_lexeme (h : Spells cs ls) (start : Nat) :
    ∃ ls', (Token.scan start cs).mapM Token.lexeme = .ok ls' ∧ ls'.map Located.value = ls := by
  have hls := h start
  simp only [mapM_lexeme_eq_ok_iff]
  generalize Token.scan start cs = ts at hls
  clear h
  induction hls with
  | nil => exact ⟨[], .nil, rfl⟩
  | cons ht _ ih =>
    obtain ⟨span, ht⟩ := ht.lexeme
    obtain ⟨ls', hls', rfl⟩ := ih
    exact ⟨_, .cons ht hls', rfl⟩

/-- What spells lexemes has no equality sign in it. -/
theorem not_equals (h : Spells cs ls) (start : Nat) :
    ∀ t ∈ Token.scan start cs, t.isEquals = false := by
  have hls := h start
  generalize Token.scan start cs = ts at hls
  clear h
  induction hls with
  | nil => simp
  | cons ht _ ih => exact List.forall_mem_cons.2 ⟨ht.not_equals, ih⟩

/-- A side that spells lexemes is read as the grammar reads them. -/
theorem toOption_readSide (h : Spells cs ls) (start : Nat) :
    (readSide (Token.scan start cs)).toOption = Grammar.read? ls := by
  obtain ⟨ls', hls', rfl⟩ := h.mapM_lexeme start
  have hbuild := toOption_build_ofTokens_eq_read? (Token.scan start cs)
  rw [hls', ReversePolish.toOption_ok, Option.bind_some] at hbuild
  rw [Parsing.readSide]
  split_ifs with hempty
  · have hls := h start
    rw [List.isEmpty_iff.1 hempty, List.forall₂_nil_left_iff] at hls
    rw [hls, Grammar.read?, Grammar.climb, Machine.operand_nil]
    rfl
  · exact hbuild

/-- A text is read as the grammar reads the lexemes that it spells. -/
theorem readSide_eq_ok_iff {e : Expr} (h : Spells cs ls) (start : Nat) :
    readSide (Token.scan start cs) = .ok e ↔ Grammar.read? ls = some e := by
  rw [← toOption_eq_some_iff, h.toOption_readSide start]

end Spells

end Parsing

end ComputerAlgebra
