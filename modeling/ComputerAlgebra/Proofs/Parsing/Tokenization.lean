import ComputerAlgebra.Proofs.Parsing.Partition

/-!
# The tokens of a text and its bytes

What `Token.Partitions` says about characters, said about strings: a token is the piece of the text
at its span, white space lies in no token and every other character in exactly one
(`Token.isTokenization_iff`).
-/

namespace ComputerAlgebra

/-! ### White space -/

namespace Text

/-- A blank character lies in one of the ranges. -/
theorem exists_range_of_isBlank {c : Char} (h : isBlank c = true) :
    ∃ r ∈ blankRanges, r.1 ≤ c.toNat ∧ c.toNat ≤ r.2 := by
  obtain ⟨r, hr, hc⟩ := List.any_eq_true.1 h
  exact ⟨r, hr, by simpa using hc⟩

/-- No blank character is a letter. -/
theorem isAlphabetic_of_isBlank {c : Char} (h : isBlank c = true) : isAlphabetic c = false := by
  have hdisjoint : ∀ r ∈ blankRanges, ∀ r' ∈ alphabeticRanges, r.2 < r'.1 ∨ r'.2 < r.1 := by
    decide +kernel
  have hascii : ∀ r ∈ blankRanges, r.2 < 65 ∨ 122 < r.1 := by decide
  obtain ⟨r, hr, hlo, hhi⟩ := exists_range_of_isBlank h
  rw [isAlphabetic, Bool.or_eq_false_iff, Bool.and_eq_false_iff, List.any_eq_false]
  constructor
  · have := hascii r hr
    rw [← Bool.not_eq_true]
    intro halpha
    have : 65 ≤ c.toNat ∧ c.toNat ≤ 90 ∨ 97 ≤ c.toNat ∧ c.toNat ≤ 122 := by
      simpa [Char.isAlpha, Char.isUpper, Char.isLower, UInt32.le_iff_toNat_le, ← Char.toNat_val]
        using halpha
    omega
  · refine .inr fun r' hr' => ?_
    have := hdisjoint r hr r' hr'
    simp only [Bool.and_eq_true, decide_eq_true_eq]
    omega

/-- No digit is blank. -/
theorem not_isDigit_of_isBlank {c : Char} (h : isBlank c = true) : c.isDigit = false := by
  have hascii : ∀ r ∈ blankRanges, r.2 < 48 ∨ 57 < r.1 := by decide
  obtain ⟨r, hr, hlo, hhi⟩ := exists_range_of_isBlank h
  have := hascii r hr
  rw [← Bool.not_eq_true, Char.isDigit_iff_toNat]
  have h0 : '0'.toNat = 48 := rfl
  have h9 : '9'.toNat = 57 := rfl
  omega

end Text

namespace Parsing

/-- The blank characters are the white space, though letters and digits are asked for first. -/
theorem CharClass.of_eq_blank_iff {c : Char} : CharClass.of c = .blank ↔ Text.isBlank c = true := by
  constructor
  · intro h
    unfold CharClass.of at h
    split_ifs at h with _ _ hblank
    exact hblank
  · intro h
    have hquote : c ≠ '\'' := by
      rintro rfl
      exact absurd h (by decide)
    have hpoint : c ≠ '.' := by
      rintro rfl
      exact absurd h (by decide)
    simp [CharClass.of, Text.isAlphabetic_of_isBlank h, Text.not_isDigit_of_isBlank h, hquote,
      hpoint, h]

/-! ### Bytes -/

theorem byteLength_append (cs cs' : List Char) :
    byteLength (cs ++ cs') = byteLength cs + byteLength cs' := by
  induction cs with
  | nil => simp [byteLength]
  | cons c cs ih => rw [List.cons_append, byteLength, ih, byteLength, Nat.add_assoc]

theorem byteLength_toList (s : String) : byteLength s.toList = s.utf8ByteSize := by
  have h (cs : List Char) : byteLength cs = String.utf8Len cs := by
    induction cs with
    | nil => rfl
    | cons c cs ih => rw [byteLength, ih, String.utf8Len_cons, Nat.add_comm]
  rw [h, ← String.utf8ByteSize_ofList, String.ofList_toList]

theorem utf8ByteSize_ofList (cs : List Char) : (String.ofList cs).utf8ByteSize = byteLength cs := by
  rw [← byteLength_toList, String.toList_ofList]

/-- A beginning of a text has no more bytes than the text. -/
theorem byteLength_le_of_isPrefix {cs cs' : List Char} (h : cs <+: cs') :
    byteLength cs ≤ byteLength cs' := by
  obtain ⟨rest, rfl⟩ := h
  rw [byteLength_append]
  exact Nat.le_add_right _ _

/-- What begins a text ends before or after a character of it, but not within. -/
theorem byteLength_add_le {c : Char} {before after cs : List Char} (h : cs <+: before ++ c :: after)
    (hlt : byteLength before < byteLength cs) : byteLength before + c.utf8Size ≤ byteLength cs := by
  have hsize : byteLength (before ++ [c]) = byteLength before + c.utf8Size := by
    rw [byteLength_append, byteLength, byteLength, Nat.add_zero]
  have hprefix : before ++ [c] <+: before ++ c :: after := ⟨after, by simp⟩
  rw [← hsize]
  rcases List.prefix_or_prefix_of_prefix hprefix h with h | h
  · exact byteLength_le_of_isPrefix h
  · rcases List.prefix_concat_iff.1 h with rfl | h
    · exact le_rfl
    · exact absurd (byteLength_le_of_isPrefix h) (Nat.not_le.2 hlt)

namespace Token

variable {c : Char} {cs : List Char} {start p : ℕ} {t u : Token} {ts : List Token}

/-! ### Texts and their bytes -/

/-- The tokens of a text, said in terms of the text and its bytes. -/
structure IsTokenization (text : String) (ts : List Token) : Prop where
  /-- A token is a piece of the text, and its span lies between the bytes of the pieces around
  it. -/
  slice : ∀ t ∈ ts, ∃ before after : String, text = before ++ t.text ++ after ∧
    t.span = ⟨before.utf8ByteSize, (before ++ t.text).utf8ByteSize⟩
  /-- No span is empty. -/
  nonempty : ∀ t ∈ ts, t.span.start < t.span.stop
  /-- Spans are disjoint, and ascend. -/
  ascending : ts.Pairwise fun t u => t.span.stop ≤ u.span.start
  /-- A character that is not white space lies in exactly one token. -/
  once : ∀ (before after : String) (c : Char), text = before ++ String.singleton c ++ after →
    Text.isBlank c = false → ∃! t, t ∈ ts ∧ t.span.start ≤ before.utf8ByteSize ∧
      (before ++ String.singleton c).utf8ByteSize ≤ t.span.stop
  /-- White space lies in no token. -/
  blank : ∀ (before after : String) (c : Char), text = before ++ String.singleton c ++ after →
    Text.isBlank c = true → ∀ t ∈ ts, t.span.stop ≤ before.utf8ByteSize ∨
      (before ++ String.singleton c).utf8ByteSize ≤ t.span.start
  /-- A token is one symbol, or a run of word characters or of number characters. -/
  lexical : ∀ t ∈ ts, t.IsLexical
  /-- Between two runs of one class that follow each other there is white space. -/
  separated : ts.IsChain fun t u => t.cls = u.cls → t.cls.isRun = true →
    ∃ (before after : String) (c : Char), text = before ++ String.singleton c ++ after ∧
      Text.isBlank c = true ∧ t.span.stop ≤ before.utf8ByteSize ∧
      (before ++ String.singleton c).utf8ByteSize ≤ u.span.start

/-- A character in the middle of a text is one in its list of characters. -/
theorem eq_append_singleton_iff {text before after : String} :
    text = before ++ String.singleton c ++ after ↔
      text.toList = before.toList ++ c :: after.toList := by
  rw [← String.toList_inj]
  simp

theorem utf8ByteSize_append_singleton (s : String) (c : Char) :
    (s ++ String.singleton c).utf8ByteSize = byteLength s.toList + c.utf8Size := by
  rw [String.utf8ByteSize_append, String.utf8ByteSize_singleton, byteLength_toList]

/-- Places in the list of characters of a text are places in the text. -/
theorem standsIn_zero_iff {s : String} : t.StandsIn 0 s.toList ↔
    ∃ before after : String, s = before ++ t.text ++ after ∧
      t.span = ⟨before.utf8ByteSize, (before ++ t.text).utf8ByteSize⟩ := by
  constructor
  · rintro ⟨before, after, hs, hstart⟩
    refine ⟨String.ofList before, String.ofList after, ?_, ?_⟩
    · rw [← String.toList_inj, hs]
      simp [text]
    · rw [String.utf8ByteSize_append, text, utf8ByteSize_ofList, utf8ByteSize_ofList, span,
        hstart, Nat.zero_add]
  · rintro ⟨before, after, rfl, hspan⟩
    refine ⟨before.toList, after.toList, by simp [text], ?_⟩
    rw [Nat.zero_add, byteLength_toList]
    exact congrArg Span.start hspan

/-- Tokens that ascend have no byte in common. -/
theorem eq_of_contains (h : ts.Pairwise fun t u => t.span.stop ≤ u.span.start) (ht : t ∈ ts)
    (hu : u ∈ ts) (htp : t.span.Contains p) (hup : u.span.Contains p) : t = u := by
  by_contra hne
  have : Std.Symm fun t u : Token => t.span.stop ≤ u.span.start ∨ u.span.stop ≤ t.span.start :=
    ⟨fun _ _ => Or.symm⟩
  have hpair : ts.Pairwise fun t u => t.span.stop ≤ u.span.start ∨ u.span.stop ≤ t.span.start :=
    h.imp Or.inl
  have hapart := hpair.forall ht hu hne
  have := htp.1
  have := htp.2
  have := hup.1
  have := hup.2
  omega

/-- Where a token begins and where it ends, a text can be cut. -/
theorem StandsIn.exists_isPrefix (h : t.StandsIn start cs) :
    (∃ before, before <+: cs ∧ t.span.start = start + byteLength before) ∧
      ∃ before, before <+: cs ∧ t.span.stop = start + byteLength before := by
  obtain ⟨before, after, rfl, hstart⟩ := h
  refine ⟨⟨before, ⟨t.chars ++ after, by simp⟩, hstart⟩, ⟨before ++ t.chars, ⟨after, rfl⟩, ?_⟩⟩
  rw [span, hstart, byteLength_append, Nat.add_assoc]

variable {before after : List Char}

/-- A token that holds the first byte of a character holds all of it. -/
theorem StandsIn.le_stop (h : t.StandsIn 0 (before ++ c :: after))
    (hp : t.span.Contains (byteLength before)) : byteLength before + c.utf8Size ≤ t.span.stop := by
  obtain ⟨-, cs, hprefix, hstop⟩ := h.exists_isPrefix
  rw [Nat.zero_add] at hstop
  rw [hstop]
  exact byteLength_add_le hprefix (hstop ▸ hp.2)

/-- A token that does not hold the first byte of a character holds nothing of it. -/
theorem StandsIn.le_or_le (h : t.StandsIn 0 (before ++ c :: after))
    (hp : ¬t.span.Contains (byteLength before)) :
    t.span.stop ≤ byteLength before ∨ byteLength before + c.utf8Size ≤ t.span.start := by
  rw [or_iff_not_imp_left, Nat.not_le]
  intro hstop
  have hstart : byteLength before < t.span.start := by
    by_contra hle
    exact hp ⟨Nat.not_lt.1 hle, hstop⟩
  obtain ⟨⟨cs, hprefix, hcs⟩, -⟩ := h.exists_isPrefix
  rw [Nat.zero_add] at hcs
  rw [hcs]
  exact byteLength_add_le hprefix (hcs ▸ hstart)

namespace Partitions

/-- Between two tokens that follow each other apart there is white space, right behind the first. -/
theorem exists_blank {l r : List Token} (h : Partitions 0 cs (l ++ t :: u :: r))
    (hlt : t.span.stop < u.span.start) : ∃ before c after, cs = before ++ c :: after ∧
      CharClass.of c = .blank ∧ t.span.stop = byteLength before := by
  obtain ⟨-, before, ⟨rest, rfl⟩, hstop⟩ := (h.stands t (by simp)).exists_isPrefix
  rw [Nat.zero_add] at hstop
  -- without a character between them, the second token would begin where the first one ends
  cases rest with
  | nil =>
    obtain ⟨⟨before', hprefix, hstart⟩, -⟩ := (h.stands u (by simp)).exists_isPrefix
    have hle := byteLength_le_of_isPrefix hprefix
    rw [List.append_nil] at hle
    omega
  | cons c after =>
    refine ⟨before, c, after, rfl, ?_, hstop⟩
    by_contra hc
    -- a character that is not blank would be held by a token between the two
    obtain ⟨v, hv, hle, hlt'⟩ := (h.covers before c after rfl).2 hc
    rw [Nat.zero_add, ← hstop] at hle hlt'
    have hasc := List.pairwise_append.1 h.ascending
    have hasc' := List.pairwise_cons.1 hasc.2.1
    have hasc'' := List.pairwise_cons.1 hasc'.2
    have ht := (h.lexical t (by simp)).start_lt_stop
    have hu := (h.lexical u (by simp)).start_lt_stop
    simp only [List.mem_append, List.mem_cons] at hv
    rcases hv with hv | rfl | rfl | hv
    · have := hasc.2.2 v hv t List.mem_cons_self
      omega
    · omega
    · omega
    · have := hasc''.1 v hv
      omega

end Partitions

/-- The two ways to say what the tokens of a text are agree. -/
theorem isTokenization_iff {s : String} : IsTokenization s ts ↔ Partitions 0 s.toList ts := by
  constructor
  -- a slice of the text stands in its list of characters, and bytes count the same in both
  · intro h
    refine ⟨fun t ht => standsIn_zero_iff.2 (h.slice t ht), h.lexical, h.ascending, ?_,
      h.separated.imp ?_⟩
    · intro before c after hs
      have hs' : s = String.ofList before ++ String.singleton c ++ String.ofList after := by
        rw [eq_append_singleton_iff, hs, String.toList_ofList, String.toList_ofList]
      have hsize := c.utf8Size_pos
      rw [Nat.zero_add, ne_eq, CharClass.of_eq_blank_iff, Bool.not_eq_true]
      cases hc : Text.isBlank c with
      | true =>
        refine iff_of_false ?_ (by simp)
        rintro ⟨t, ht, hle, hlt⟩
        have hapart := h.blank _ _ c hs' hc t ht
        rw [utf8ByteSize_append_singleton, utf8ByteSize_ofList, String.toList_ofList] at hapart
        omega
      | false =>
        refine iff_of_true ?_ rfl
        obtain ⟨t, ⟨ht, hle, hlt⟩, -⟩ := h.once _ _ c hs' hc
        rw [utf8ByteSize_ofList] at hle
        rw [utf8ByteSize_append_singleton, String.toList_ofList] at hlt
        exact ⟨t, ht, hle, by omega⟩
    · intro t u hgap hcls hrun
      obtain ⟨before, after, c, -, -, hle, hlt⟩ := hgap hcls hrun
      rw [utf8ByteSize_append_singleton, byteLength_toList] at hlt
      have := c.utf8Size_pos
      omega
  · intro h
    refine ⟨fun t ht => standsIn_zero_iff.1 (h.stands t ht),
      fun t ht => (h.lexical t ht).start_lt_stop, h.ascending, ?_, ?_, h.lexical,
      List.isChain_iff_forall_rel_of_append_cons_cons.2 ?_⟩
    -- exactly one token holds a character that is not blank
    · intro before after c hs hc
      rw [eq_append_singleton_iff] at hs
      have hcls : CharClass.of c ≠ .blank := by simp [CharClass.of_eq_blank_iff, hc]
      obtain ⟨t, ht, hp⟩ := (h.covers _ _ _ hs).2 hcls
      rw [Nat.zero_add] at hp
      rw [utf8ByteSize_append_singleton, ← byteLength_toList]
      refine ⟨t, ⟨ht, hp.1, (hs ▸ h.stands t ht).le_stop hp⟩, ?_⟩
      rintro u ⟨hu, hle, hlt⟩
      have := c.utf8Size_pos
      exact eq_of_contains h.ascending hu ht ⟨hle, by omega⟩ hp
    -- a blank character lies before or behind each token
    · intro before after c hs hc t ht
      rw [eq_append_singleton_iff] at hs
      have hnot : ¬t.span.Contains (byteLength before.toList) := fun hp =>
        (h.covers _ _ _ hs).1 ⟨t, ht, by rwa [Nat.zero_add]⟩ (CharClass.of_eq_blank_iff.2 hc)
      rw [utf8ByteSize_append_singleton, ← byteLength_toList]
      exact (hs ▸ h.stands t ht).le_or_le hnot
    -- runs of one class are kept apart by a blank character
    · rintro t u l r rfl hcls hrun
      have hlt := List.isChain_iff_forall_rel_of_append_cons_cons.1 h.separated rfl hcls hrun
      obtain ⟨before, c, after, hs, hc, hstop⟩ := h.exists_blank hlt
      refine
        ⟨String.ofList before, String.ofList after, c, ?_, CharClass.of_eq_blank_iff.1 hc, ?_, ?_⟩
      · rw [eq_append_singleton_iff, hs, String.toList_ofList, String.toList_ofList]
      · rw [utf8ByteSize_ofList, hstop]
      · rw [utf8ByteSize_append_singleton, String.toList_ofList]
        have hu := h.stands u (by simp)
        have hnot : ¬u.span.Contains (byteLength before) := fun hp => by
          have := hp.1
          omega
        refine ((hs ▸ hu).le_or_le hnot).resolve_left fun hle => ?_
        have := (h.lexical u (by simp)).start_lt_stop
        omega

end Token

end Parsing

end ComputerAlgebra
