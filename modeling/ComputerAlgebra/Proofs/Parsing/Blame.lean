import ComputerAlgebra.Proofs.Parsing.Relocation
import ComputerAlgebra.Proofs.Parsing.Tokenization

/-!
# The token to blame

Multiplications that are only implied, and the operand and the multiplication that stand for a minus
sign, are no tokens, but they carry the place of one. So does everything else that is read, since
reading passes places on and makes up none: what holds of the places of the tokens holds of the
place of a fault (`Parsing.blames_of_readSide`). A fault of a formula that names a place thus names
the place of a token that is no equality sign, whichever side of the equation it stands on
(`Expr.parse_error_blames`).
-/

namespace ComputerAlgebra

namespace Parsing

variable {ts us left right : List Token} {t : Token} {f : Fault}

/-- If the fault names a place, one of the tokens stands there. -/
def Fault.Blames (f : Fault) (ts : List Token) : Prop :=
  ∀ s, f.span = some s → ∃ t ∈ ts, s = t.span

namespace Fault.Blames

/-- A fault without a place blames nothing. -/
theorem overall (cause : Cause) (ts : List Token) : (Fault.overall cause).Blames ts := nofun

/-- A fault that blames some tokens blames more of them. -/
theorem mono (h : f.Blames ts) (hsub : ts ⊆ us) : f.Blames us := fun s hs =>
  have ⟨t, ht, hspan⟩ := h s hs
  ⟨t, hsub ht, hspan⟩

end Fault.Blames

/-- Tokens are read as themselves, and what holds of all of their places holds of the place of a
fault. -/
theorem blames_of_readSide (h : readSide ts = .error f) : f.Blames ts := by
  have hplaces : List.Forall₂ (Token.Alike fun s _ => ∃ t ∈ ts, s = t.span) ts ts :=
    List.forall₂_same.2 fun t ht => ⟨rfl, rfl, t, ht, rfl⟩
  have hread := readSide_alike hplaces
  rw [h] at hread
  cases hread with
  | error hfault =>
    intro s hs
    have hspan := hfault.span
    rw [hs] at hspan
    cases hspan with
    | some hstands => exact hstands

/-! ### Equality signs -/

/-- There are as many equality signs as behind the first one, and that one. -/
theorem countP_isEquals (hleft : ∀ u ∈ left, u.isEquals = false) (ht : t.isEquals = true) :
    (left ++ t :: right).countP Token.isEquals = right.countP Token.isEquals + 1 := by
  rw [List.countP_append, List.countP_eq_zero.2 fun u hu => by simp [hleft u hu],
    List.countP_cons_of_pos ht, Nat.zero_add]

/-- A formula without equality sign is one side, a single sign stands between two sides, and more
than one sign is refused before anything else is looked at. -/
theorem readTokens_cases (ts : List Token) :
    (∀ t ∈ ts, t.isEquals = false) ∧ readTokens ts = readSide ts ∨
    (∃ left t right, ts = left ++ t :: right ∧ t.isEquals = true ∧
      (∀ u ∈ left ++ right, u.isEquals = false) ∧
      readTokens ts = (do return .eqn (← readSide left) (← readSide right))) ∨
    2 ≤ ts.countP Token.isEquals ∧ readTokens ts = .error (.overall .severalEquals) := by
  have hleft : ∀ u ∈ ts.takeWhile (fun t => !t.isEquals), u.isEquals = false :=
    fun u hu => by simpa using List.mem_takeWhile_imp hu
  have hsplit : ts.takeWhile (fun t => !t.isEquals) ++ ts.dropWhile (fun t => !t.isEquals) = ts :=
    List.takeWhile_append_dropWhile
  have hhead := List.head?_dropWhile_not (fun t : Token => !t.isEquals) ts
  unfold readTokens
  rw [List.span_eq_takeWhile_dropWhile]
  generalize ts.takeWhile (fun t => !t.isEquals) = left at hleft hsplit ⊢
  generalize ts.dropWhile (fun t => !t.isEquals) = rest at hsplit hhead ⊢
  subst hsplit
  cases rest with
  | nil => exact .inl ⟨by simpa using hleft, rfl⟩
  | cons t right =>
    have ht : t.isEquals = true := by simpa using hhead
    cases hright : right.any Token.isEquals with
    | true =>
      have hpos : 0 < right.countP Token.isEquals :=
        List.countP_pos_iff.2 (List.any_eq_true.1 hright)
      refine .inr (.inr ⟨?_, by simp [hright]⟩)
      rw [countP_isEquals hleft ht]
      omega
    | false =>
      refine .inr (.inl ⟨left, t, right, rfl, ht, ?_, by simp [hright]⟩)
      rw [List.forall_mem_append]
      exact ⟨hleft, fun u hu => by simpa using List.any_eq_false.1 hright u hu⟩

/-- Several equality signs are refused before anything else is looked at. -/
theorem readTokens_of_several (h : 2 ≤ ts.countP Token.isEquals) :
    readTokens ts = .error (.overall .severalEquals) := by
  obtain ⟨hnone, -⟩ | ⟨left, t, right, rfl, ht, hsides, -⟩ | ⟨-, hread⟩ :=
    readTokens_cases ts
  · rw [List.countP_eq_zero.2 fun t ht => by simp [hnone t ht]] at h
    omega
  · rw [List.forall_mem_append] at hsides
    rw [countP_isEquals hsides.1 ht,
      List.countP_eq_zero.2 fun u hu => by simp [hsides.2 u hu]] at h
    omega
  · exact hread

/-- A fault of a formula blames one of its tokens that is no equality sign. -/
theorem blames_of_readTokens (h : readTokens ts = .error f) :
    f.Blames (ts.filter fun t => !t.isEquals) := by
  -- by the number of equality signs: none, one, or more
  obtain ⟨hnone, hread⟩ | ⟨left, t, right, rfl, -, hsides, hread⟩ | ⟨-, hread⟩ :=
    readTokens_cases ts
  · rw [hread] at h
    exact (blames_of_readSide h).mono fun t ht => by simp [ht, hnone t ht]
  · have hside : ∀ us ⊆ left ++ right,
        us ⊆ (left ++ t :: right).filter fun t => !t.isEquals := by
      intro us hus u hu
      have hmem := List.mem_append.1 (hus hu)
      rw [List.mem_filter, hsides u (hus hu), List.mem_append]
      exact ⟨hmem.imp_right (List.mem_cons_of_mem t), rfl⟩
    rw [hread] at h
    -- the left side is read first, so its fault is the one reported
    cases hl : readSide left with
    | error f' =>
      rw [hl] at h
      cases h
      exact (blames_of_readSide hl).mono (hside left (List.subset_append_left left right))
    | ok l =>
      cases hr : readSide right with
      | error f' =>
        rw [hl, hr] at h
        cases h
        exact (blames_of_readSide hr).mono (hside right (List.subset_append_right left right))
      | ok r =>
        rw [hl, hr] at h
        cases h
  · rw [hread] at h
    cases h
    exact .overall _ _

end Parsing

/-! ### Formulas -/

/-- The bytes are those of at least one character of the text, and they cut none. -/
structure Span.IsProper (s : Span) (text : String) : Prop where
  nonempty : s.start < s.stop
  le_size : s.stop ≤ text.utf8ByteSize
  isValid_start : String.Pos.Raw.IsValid text ⟨s.start⟩
  isValid_stop : String.Pos.Raw.IsValid text ⟨s.stop⟩

/-- A token of a text stands between two character boundaries of the text. -/
theorem Parsing.Token.isProper_span {text : String} {t : Token} (ht : t ∈ ofText text) :
    t.span.IsProper text := by
  have htokens : IsTokenization text (ofText text) := isTokenization_iff.2 (partitions_iff.2 rfl)
  obtain ⟨before, after, htext, hspan⟩ := htokens.slice t ht
  have hstart : String.Pos.Raw.IsValid text ⟨t.span.start⟩ :=
    String.Pos.Raw.isValid_iff_exists_append.2
      ⟨before, t.text ++ after, by rw [htext, String.append_assoc], by rw [hspan]; rfl⟩
  have hstop : String.Pos.Raw.IsValid text ⟨t.span.stop⟩ :=
    String.Pos.Raw.isValid_iff_exists_append.2 ⟨before ++ t.text, after, htext, by rw [hspan]; rfl⟩
  exact ⟨htokens.nonempty t ht, hstop.le_utf8ByteSize, hstart, hstop⟩

open Parsing

/-- The error of a formula that cannot be read holds the whole formula. If it names a place, a token
other than an equality sign stands exactly there. Two or more equality signs are the error, without
a place, whatever else is wrong. -/
theorem Expr.parse_error_blames (text : String) :
    (∀ e, Expr.parse text = .error e → e.text = text ∧ ∀ s, e.span = some s →
      s.IsProper text ∧ ∃ t ∈ Token.ofText text, t.isEquals = false ∧ s = t.span) ∧
    (2 ≤ (Token.ofText text).countP Token.isEquals →
      Expr.parse text = .error ⟨.overall .severalEquals, text⟩) := by
  constructor
  · intro e he
    cases hread : readTokens (Token.ofText text) with
    | ok v =>
      rw [Expr.parse, hread] at he
      cases he
    | error f =>
      rw [Expr.parse, hread] at he
      cases he
      refine ⟨rfl, fun s hs => ?_⟩
      obtain ⟨t, ht, rfl⟩ := blames_of_readTokens hread s hs
      rw [List.mem_filter, Bool.not_eq_true'] at ht
      exact ⟨Token.isProper_span ht.1, t, ht.1, ht.2, rfl⟩
  · intro hcount
    rw [Expr.parse, readTokens_of_several hcount]
    rfl

/-- A minus sign without operand, on the right side and after a letter of two bytes, is the sixth
byte. An unknown symbol between two equality signs is not looked at. -/
theorem Expr.parse_error_blames_sign :
    Expr.parse "π = -" = .error ⟨.at .invalidExpression ⟨5, 6⟩, "π = -"⟩ ∧
      (∃ t ∈ Token.ofText "π = -", t.isEquals = false ∧ ⟨5, 6⟩ = t.span) ∧
      Expr.parse "x = $ = )" = .error ⟨.overall .severalEquals, "x = $ = )"⟩ := by
  have herror : Expr.parse "π = -" = .error ⟨.at .invalidExpression ⟨5, 6⟩, "π = -"⟩ := by
    decide +kernel
  obtain ⟨-, hplace⟩ := (Expr.parse_error_blames "π = -").1 _ herror
  exact ⟨herror, (hplace _ rfl).2, (Expr.parse_error_blames "x = $ = )").2 (by decide +kernel)⟩

end ComputerAlgebra
