import ComputerAlgebra.Parsing.Formula
import Mathlib

/-!
# Reading does not depend on places

A formula is read from the classes and the characters of its tokens. The places of the tokens are
only passed on, to the faults that name them. So tokens that differ in their places alone have the
same tree or the same cause of failure, and a relation between the places of the tokens holds
between the places of the faults (`Parsing.readTokens_alike`).
-/

namespace ComputerAlgebra

namespace Parsing

variable {R : Span → Span → Prop} {α β γ δ : Type}

/-- The same value at related places. -/
structure Located.Alike (R : Span → Span → Prop) (a b : Located α) : Prop where
  value : a.value = b.value
  span : R a.span b.span

/-- The same token at related places. -/
structure Token.Alike (R : Span → Span → Prop) (t u : Token) : Prop where
  cls : t.cls = u.cls
  chars : t.chars = u.chars
  span : R t.span u.span

/-- The same cause at related places, or in both cases at none. -/
structure Fault.Alike (R : Span → Span → Prop) (f g : Fault) : Prop where
  cause : f.cause = g.cause
  span : Option.Rel R f.span g.span

theorem Fault.Alike.at (cause : Cause) {s s' : Span} (h : R s s') :
    (Fault.at cause s).Alike R (.at cause s') :=
  ⟨rfl, .some h⟩

theorem Fault.Alike.overall (cause : Cause) : (Fault.overall cause).Alike R (.overall cause) :=
  ⟨rfl, .none⟩

/-! ### Outcomes -/

/-- Two outcomes are related results or faults that are alike. -/
inductive Alike (R : Span → Span → Prop) (rel : α → β → Prop) :
    Except Fault α → Except Fault β → Prop where
  | ok {a : α} {b : β} (h : rel a b) : Alike R rel (.ok a) (.ok b)
  | error {f g : Fault} (h : f.Alike R g) : Alike R rel (.error f) (.error g)

namespace Alike

variable {rel : α → β → Prop} {rel' : γ → δ → Prop}

theorem bind {x : Except Fault α} {y : Except Fault β} {f : α → Except Fault γ}
    {g : β → Except Fault δ} (h : Alike R rel x y)
    (hnext : ∀ a b, rel a b → Alike R rel' (f a) (g b)) : Alike R rel' (x >>= f) (y >>= g) := by
  cases h with
  | ok h => exact hnext _ _ h
  | error h => exact .error h

/-- A fold over lists that are alike is alike, if its steps are. -/
theorem foldlM {as : List γ} {bs : List δ} {f : α → γ → Except Fault α} {g : β → δ → Except Fault β}
    {a : α} {b : β} (h : List.Forall₂ rel' as bs) (hstart : rel a b)
    (hstep : ∀ a b c d, rel a b → rel' c d → Alike R rel (f a c) (g b d)) :
    Alike R rel (as.foldlM f a) (bs.foldlM g b) := by
  induction h generalizing a b with
  | nil => exact .ok hstart
  | cons hcd _ ih =>
    rw [List.foldlM_cons, List.foldlM_cons]
    exact (hstep a b _ _ hstart hcd).bind fun _ _ h => ih h

end Alike

/-! ### Tokens and lexemes -/

/-- Lists of located values that are alike one by one. -/
abbrev AllAlike (R : Span → Span → Prop) (as bs : List (Located α)) : Prop :=
  List.Forall₂ (Located.Alike R) as bs

/-- A token that stands elsewhere is the same lexeme, or has the same fault, there. -/
theorem lexeme_alike {t u : Token} (h : t.Alike R u) :
    Alike R (Located.Alike R) t.lexeme u.lexeme := by
  obtain ⟨cls, start, chars⟩ := t
  obtain ⟨cls', start', chars'⟩ := u
  obtain ⟨hcls, hchars, hspan⟩ := h
  obtain rfl : cls = cls' := hcls
  obtain rfl : chars = chars' := hchars
  have htext : Token.text ⟨cls, start, chars⟩ = Token.text ⟨cls, start', chars⟩ := rfl
  cases cls with
  | number => exact .ok ⟨rfl, hspan⟩
  | word =>
    simp only [Token.lexeme, htext]
    cases Func.ofName? (Token.text ⟨.word, start', chars⟩) with
    | some f => exact .ok ⟨rfl, hspan⟩
    | none => exact .ok ⟨rfl, hspan⟩
  | blank | symbol =>
    simp only [Token.lexeme, htext]
    cases Lexeme.ofSymbol? (Token.text ⟨_, start', chars⟩) with
    | some l => exact .ok ⟨rfl, hspan⟩
    | none => exact .error (.at _ hspan)

namespace ReversePolish

/-- States of the scan that differ in places alone. -/
structure State.Alike (R : Span → Span → Prop) (s s' : State) : Prop where
  output : AllAlike R s.output s'.output
  pending : AllAlike R s.pending s'.pending
  afterOperand : s.afterOperand = s'.afterOperand

variable {s s' : State} {pending pending' : List (Located Pending)}
  {output output' : List (Located Item)} {span span' : Span}

/-- Operators are released alike, since releasing does not look at places. -/
theorem release_alike (new : Operator) (hpending : AllAlike R pending pending')
    (houtput : AllAlike R output output') :
    AllAlike R (release new pending output).1 (release new pending' output').1 ∧
      AllAlike R (release new pending output).2 (release new pending' output').2 := by
  induction hpending generalizing output output' with
  | nil => exact ⟨.nil, houtput⟩
  | @cons p p' pending pending' hp htail ih =>
    obtain ⟨value, span⟩ := p
    obtain ⟨value', span'⟩ := p'
    obtain rfl : value = value' := hp.value
    cases value with
    | func f => exact ⟨.cons hp htail, houtput⟩
    | paren => exact ⟨.cons hp htail, houtput⟩
    | op o =>
      rw [release, release]
      split_ifs
      · exact ih (.cons ⟨rfl, hp.span⟩ houtput)
      · exact ⟨.cons hp htail, houtput⟩

theorem binary_alike (h : s.Alike R s') (op : Operator) (hspan : R span span') :
    (s.binary op span).Alike R (s'.binary op span') :=
  have hrelease := release_alike op h.pending h.output
  ⟨hrelease.2, .cons ⟨rfl, hspan⟩ hrelease.1, rfl⟩

/-- A sign or an operator is read alike: whether an operand stands before it is no matter of
places. -/
theorem operator_alike (h : s.Alike R s') (op : Operator) (hspan : R span span') :
    (s.operator op span).Alike R (s'.operator op span') := by
  unfold State.operator
  rw [h.afterOperand]
  split_ifs
  · exact binary_alike h op hspan
  · cases op with
    | sub => exact ⟨.cons ⟨rfl, hspan⟩ h.output, .cons ⟨rfl, hspan⟩ h.pending, rfl⟩
    | add => exact h
    | mul | div | pow => exact binary_alike h _ hspan

theorem closeGroup_alike (hpending : AllAlike R pending pending')
    (houtput : AllAlike R output output') :
    Option.Rel (fun x y => AllAlike R x.1 y.1 ∧ AllAlike R x.2 y.2) (closeGroup pending output)
      (closeGroup pending' output') := by
  induction hpending generalizing output output' with
  | nil => exact .none
  | @cons p p' pending pending' hp htail ih =>
    obtain ⟨value, span⟩ := p
    obtain ⟨value', span'⟩ := p'
    obtain rfl : value = value' := hp.value
    cases value with
    | paren => exact .some ⟨htail, houtput⟩
    | func f => exact ih (.cons ⟨rfl, hp.span⟩ houtput)
    | op o => exact ih (.cons ⟨rfl, hp.span⟩ houtput)

theorem close_alike (h : s.Alike R s') (hspan : R span span') :
    Alike R (State.Alike R) (s.close span) (s'.close span') := by
  rw [State.close, State.close]
  have hclose := closeGroup_alike h.pending h.output
  generalize closeGroup s.pending s.output = x at hclose
  generalize closeGroup s'.pending s'.output = y at hclose
  cases hclose with
  | none => exact .error (.at _ hspan)
  | @some x y hclose =>
    obtain ⟨pending, output⟩ := x
    obtain ⟨pending', output'⟩ := y
    obtain ⟨hpending, houtput⟩ := hclose
    cases hpending with
    | nil => exact .ok ⟨houtput, .nil, rfl⟩
    | @cons p p' pending pending' hp htail =>
      obtain ⟨value, span⟩ := p
      obtain ⟨value', span'⟩ := p'
      obtain rfl : value = value' := hp.value
      cases value with
      | func f => exact .ok ⟨.cons ⟨rfl, hp.span⟩ houtput, htail, rfl⟩
      | op o => exact .ok ⟨houtput, .cons hp htail, rfl⟩
      | paren => exact .ok ⟨houtput, .cons hp htail, rfl⟩

theorem read_alike {l l' : Located Lexeme} (h : s.Alike R s') (hl : l.Alike R l') :
    Alike R (State.Alike R) (s.read l) (s'.read l') := by
  obtain ⟨value, span⟩ := l
  obtain ⟨value', span'⟩ := l'
  obtain rfl : value = value' := hl.value
  have himplied : State.Alike R
      (if s.afterOperand && value.startsOperand then s.binary .mul span else s)
      (if s'.afterOperand && value.startsOperand then s'.binary .mul span' else s') := by
    rw [h.afterOperand]
    split_ifs
    · exact binary_alike h _ hl.span
    · exact h
  rw [State.read, State.read]
  generalize
    (if s.afterOperand && value.startsOperand then s.binary .mul span else s) = t at himplied ⊢
  generalize (if s'.afterOperand && value.startsOperand then s'.binary .mul span' else s') = t'
    at himplied ⊢
  cases value with
  | number digits => exact .ok ⟨.cons ⟨rfl, hl.span⟩ himplied.output, himplied.pending, rfl⟩
  | name x => exact .ok ⟨.cons ⟨rfl, hl.span⟩ himplied.output, himplied.pending, rfl⟩
  | func f => exact .ok ⟨himplied.output, .cons ⟨rfl, hl.span⟩ himplied.pending, rfl⟩
  | leftParen => exact .ok ⟨himplied.output, .cons ⟨rfl, hl.span⟩ himplied.pending, rfl⟩
  | rightParen => exact close_alike himplied hl.span
  | op o => exact .ok (operator_alike himplied o hl.span)

theorem flush_alike (hpending : AllAlike R pending pending') (houtput : AllAlike R output output') :
    Alike R (AllAlike R) (flush pending output) (flush pending' output') := by
  induction hpending generalizing output output' with
  | nil => exact .ok (List.rel_reverse houtput)
  | @cons p p' pending pending' hp htail ih =>
    obtain ⟨value, span⟩ := p
    obtain ⟨value', span'⟩ := p'
    obtain rfl : value = value' := hp.value
    cases value with
    | paren => exact .error (.at _ hp.span)
    | func f => exact ih (.cons ⟨rfl, hp.span⟩ houtput)
    | op o => exact ih (.cons ⟨rfl, hp.span⟩ houtput)

/-- Tokens that stand elsewhere are put into the same order. -/
theorem ofTokens_alike {ts us : List Token} (h : List.Forall₂ (Token.Alike R) ts us) :
    Alike R (AllAlike R) (ofTokens ts) (ofTokens us) := by
  have hstart : State.initial.Alike R .initial := ⟨.nil, .nil, rfl⟩
  have hscan := Alike.foldlM h hstart fun _ _ _ _ hs ht =>
    (lexeme_alike ht).bind fun _ _ hl => read_alike hs hl
  exact hscan.bind fun _ _ hs => flush_alike hs.pending hs.output

end ReversePolish

/-! ### Trees -/

/-- One item builds the same trees, or has the same fault there. -/
theorem apply_alike (stack : List Expr) {item item' : Located ReversePolish.Item}
    (h : item.Alike R item') : Alike R Eq (apply stack item) (apply stack item') := by
  obtain ⟨value, span⟩ := item
  obtain ⟨value', span'⟩ := item'
  obtain rfl : value = value' := h.value
  have hinvalid : Alike R Eq (.error (.at .invalidExpression span) : Except Fault (List Expr))
      (.error (.at .invalidExpression span')) := .error (.at _ h.span)
  cases value with
  | number digits =>
    simp only [apply]
    cases readNumeral? digits with
    | some e => exact .ok rfl
    | none => exact .error (.at _ h.span)
  | minusOne => exact .ok rfl
  | name x => exact .ok rfl
  | func f =>
    cases stack with
    | nil => exact hinvalid
    | cons a stack => exact .ok rfl
  | op o =>
    rcases stack with _ | ⟨b, _ | ⟨a, stack⟩⟩
    · exact hinvalid
    · exact hinvalid
    · exact .ok rfl

/-- Items build the same tree, or have the same fault there. -/
theorem build_alike {items items' : List (Located ReversePolish.Item)}
    (h : AllAlike R items items') : Alike R Eq (build items) (build items') := by
  have hitems : Alike R Eq (items.foldlM apply []) (items'.foldlM apply []) :=
    Alike.foldlM h rfl fun stack _ _ _ hstack hitem => hstack ▸ apply_alike stack hitem
  refine hitems.bind fun stack _ hstack => ?_
  subst hstack
  rcases stack with _ | ⟨e, _ | ⟨e', stack⟩⟩
  · exact .error (.overall _)
  · exact .ok rfl
  · exact .error (.overall _)

variable {ts us : List Token}

/-- One side of a formula is read alike, wherever its tokens stand. -/
theorem readSide_alike (h : List.Forall₂ (Token.Alike R) ts us) :
    Alike R Eq (readSide ts) (readSide us) := by
  cases h with
  | nil => exact .error (.overall _)
  | cons ht hts => exact (ReversePolish.ofTokens_alike (.cons ht hts)).bind fun _ _ => build_alike

/-- Whether a token is an equality sign is no matter of places. -/
theorem isEquals_eq {t u : Token} (h : t.Alike R u) : t.isEquals = u.isEquals := by
  rw [Token.isEquals, Token.isEquals, h.chars]

/-- Lists of tokens that are alike are split alike at the first equality sign. -/
theorem span_alike (h : List.Forall₂ (Token.Alike R) ts us) :
    List.Forall₂ (Token.Alike R) (ts.span fun t => !t.isEquals).1 (us.span fun t => !t.isEquals).1 ∧
      List.Forall₂ (Token.Alike R) (ts.span fun t => !t.isEquals).2
        (us.span fun t => !t.isEquals).2 := by
  simp only [List.span_eq_takeWhile_dropWhile]
  induction h with
  | nil => exact ⟨.nil, .nil⟩
  | @cons t u ts us ht hts ih =>
    rw [List.takeWhile_cons, List.takeWhile_cons, List.dropWhile_cons, List.dropWhile_cons,
      isEquals_eq ht]
    split_ifs
    · exact ⟨.cons ht ih.1, ih.2⟩
    · exact ⟨.nil, .cons ht hts⟩

theorem any_isEquals_eq (h : List.Forall₂ (Token.Alike R) ts us) :
    ts.any Token.isEquals = us.any Token.isEquals := by
  induction h with
  | nil => rfl
  | cons ht _ ih => rw [List.any_cons, List.any_cons, isEquals_eq ht, ih]

/-- Tokens that are alike are read alike. -/
theorem readTokens_alike (h : List.Forall₂ (Token.Alike R) ts us) :
    Alike R Eq (readTokens ts) (readTokens us) := by
  have hspan := span_alike h
  unfold readTokens
  generalize ts.span (fun t => !t.isEquals) = x at hspan ⊢
  generalize us.span (fun t => !t.isEquals) = y at hspan ⊢
  obtain ⟨left, right⟩ := x
  obtain ⟨left', right'⟩ := y
  obtain ⟨hleft, hright⟩ := hspan
  cases hright with
  | nil => exact readSide_alike h
  | cons _ hright =>
    simp only [any_isEquals_eq hright]
    split_ifs
    · exact .error (.overall _)
    · refine (readSide_alike hleft).bind fun l _ hl => ?_
      subst hl
      refine (readSide_alike hright).bind fun r _ hr => ?_
      subst hr
      exact .ok rfl

end Parsing

end ComputerAlgebra
