import ComputerAlgebra.Proofs.Parsing.Scanning

/-!
# The tokens of a text

Which tokens a text has can be said without a scan: they are pieces of the text that lie one after
the other, they hold every character but the blank ones, each is a symbol or a run, and no run goes
on in the token right after it (`Token.Partitions`). One character put in front of a text changes
these pieces as `Token.attach` does, so there is exactly one way to cut a text
(`Token.partitions_iff`).
-/

namespace ComputerAlgebra

/-- The byte lies in the range. -/
def Span.Contains (s : Span) (byte : ℕ) : Prop := s.start ≤ byte ∧ byte < s.stop

namespace Parsing

namespace Token

variable {c : Char} {cs : List Char} {start p : ℕ} {t u : Token} {ts us : List Token}

/-! ### Pieces of a text -/

/-- The token holds the characters that stand at its bytes, if the first character stands at byte
`start`. -/
def StandsIn (start : ℕ) (cs : List Char) (t : Token) : Prop :=
  ∃ before after, cs = before ++ t.chars ++ after ∧ t.start = start + byteLength before

namespace StandsIn

/-- No token begins in front of the text. -/
theorem start_le (h : t.StandsIn start cs) : start ≤ t.start := by
  obtain ⟨before, after, -, hstart⟩ := h
  omega

/-- A token of the rest is a token of the text. -/
theorem cons (h : t.StandsIn (start + c.utf8Size) cs) : t.StandsIn start (c :: cs) := by
  obtain ⟨before, after, rfl, hstart⟩ := h
  exact ⟨c :: before, after, rfl, by rw [hstart, byteLength, Nat.add_assoc]⟩

/-- A token that begins behind the first character is a token of the rest. -/
theorem of_cons (h : t.StandsIn start (c :: cs)) (hlt : start < t.start) :
    t.StandsIn (start + c.utf8Size) cs := by
  obtain ⟨before, after, hcs, hstart⟩ := h
  cases before with
  | nil =>
    rw [byteLength, Nat.add_zero] at hstart
    omega
  | cons d before =>
    obtain ⟨rfl, rfl⟩ := List.cons.inj hcs
    exact ⟨before, after, rfl, by rw [hstart, byteLength, Nat.add_assoc]⟩

/-- A token that begins where the text does is a beginning of the text. -/
theorem exists_append (h : t.StandsIn start cs) (hstart : t.start = start) :
    ∃ after, cs = t.chars ++ after := by
  obtain ⟨before, after, rfl, hbefore⟩ := h
  obtain rfl : before = [] := by
    by_contra hne
    have := byteLength_pos hne
    omega
  exact ⟨after, rfl⟩

end StandsIn

/-- A token is one symbol, or a run of word characters or of number characters. -/
structure IsLexical (t : Token) : Prop extends IsUniform t where
  not_blank : t.cls ≠ .blank
  length : t.cls.isRun = false → t.chars.length = 1

/-- A token of more than one character is a run. -/
theorem IsLexical.isRun {cls : CharClass} {d : Char} (h : IsLexical ⟨cls, start, c :: d :: cs⟩) :
    cls.isRun = true := by
  by_contra hnot
  cases h.length (Bool.eq_false_iff.2 hnot)

/-- No token is empty. -/
theorem IsLexical.start_lt_stop (h : t.IsLexical) : t.span.start < t.span.stop :=
  Nat.lt_add_of_pos_right (byteLength_pos h.ne_nil)

/-- The byte lies in one of the tokens. -/
def Held (ts : List Token) (p : ℕ) : Prop := ∃ t ∈ ts, t.span.Contains p

/-- A byte is held by the first token or by one of the others. -/
theorem held_cons : Held (t :: ts) p ↔ t.span.Contains p ∨ Held ts p := by simp [Held]

/-- A token does not hold what stands before it. -/
theorem not_held_of_lt (h : ∀ t ∈ ts, p < t.start) : ¬Held ts p := by
  rintro ⟨t, ht, hp⟩
  have : t.start ≤ p := hp.1
  have := h t ht
  omega

/-- The tokens hold the characters of a text that are not blank, and no blank ones. -/
def Covers (start : ℕ) (cs : List Char) (ts : List Token) : Prop :=
  ∀ before c after, cs = before ++ c :: after →
    (Held ts (start + byteLength before) ↔ CharClass.of c ≠ .blank)

/-- A text is covered if its first character is, and the rest. -/
theorem covers_cons : Covers start (c :: cs) ts ↔
    (Held ts start ↔ CharClass.of c ≠ .blank) ∧ Covers (start + c.utf8Size) cs ts := by
  constructor
  · refine fun h => ⟨h [] c cs rfl, fun before d after hcs => ?_⟩
    have hheld := h (c :: before) d after (by rw [hcs]; rfl)
    rwa [byteLength, ← Nat.add_assoc] at hheld
  · rintro ⟨hhead, htail⟩ before d after hcs
    cases before with
    | nil =>
      cases hcs
      exact hhead
    | cons c' before =>
      obtain ⟨rfl, htext⟩ := List.cons.inj hcs
      rw [byteLength, ← Nat.add_assoc]
      exact htail before d after htext

/-- Only the bytes of the text matter. -/
theorem Covers.congr (h : Covers start cs ts) (heq : ∀ p, start ≤ p → (Held us p ↔ Held ts p)) :
    Covers start cs us :=
  fun before c after hcs => (heq _ (Nat.le_add_right _ _)).trans (h before c after hcs)

/-- The tokens cut a text, whose first character stands at byte `start`. -/
structure Partitions (start : ℕ) (cs : List Char) (ts : List Token) : Prop where
  stands : ∀ t ∈ ts, t.StandsIn start cs
  lexical : ∀ t ∈ ts, t.IsLexical
  ascending : ts.Pairwise fun t u => t.span.stop ≤ u.span.start
  covers : Covers start cs ts
  separated : ts.IsChain fun t u => t.cls = u.cls → t.cls.isRun = true → t.span.stop < u.span.start

/-- The token of a character and of those that follow it in the token. -/
theorem span_cons (cls : CharClass) (start : ℕ) (c : Char) (cs : List Char) :
    span ⟨cls, start, c :: cs⟩ = ⟨start, start + c.utf8Size + byteLength cs⟩ := by
  rw [span, byteLength, Nat.add_assoc]

/-- A token ends where the rest of it ends. -/
theorem stop_span_cons_cons {cls : CharClass} {c' : Char} :
    (span ⟨cls, start, c :: c' :: cs⟩).stop =
      (span ⟨cls, start + c.utf8Size, c' :: cs⟩).stop := by
  rw [span_cons, span]

/-- Behind its first character a token holds what the rest of it holds. -/
theorem held_cons_cons {cls : CharClass} {c' : Char} (hp : start + c.utf8Size ≤ p) :
    Held (⟨cls, start, c :: c' :: cs⟩ :: ts) p ↔
      Held (⟨cls, start + c.utf8Size, c' :: cs⟩ :: ts) p := by
  have hstart : start ≤ p ↔ start + c.utf8Size ≤ p := iff_of_true (by omega) hp
  rw [held_cons, held_cons, span_cons, span]
  exact or_congr_left (and_congr_left fun _ => hstart)

/-- Behind a token of one character, its byte is not held by it. -/
theorem held_singleton_cons {cls : CharClass} (hp : start + c.utf8Size ≤ p) :
    Held (⟨cls, start, [c]⟩ :: ts) p ↔ Held ts p :=
  held_cons.trans (or_iff_right fun h => absurd h.2 (Nat.not_lt.2 hp))

/-- A token holds the byte at which it begins. -/
theorem held_start {cls : CharClass} : Held (⟨cls, start, c :: cs⟩ :: ts) start := by
  have := c.utf8Size_pos
  refine ⟨_, List.mem_cons_self, ?_⟩
  rw [span_cons]
  exact ⟨le_rfl, by show start < start + c.utf8Size + byteLength cs; omega⟩

namespace Partitions

/-- The tokens of the rest begin behind the first character. -/
theorem lt_start (h : Partitions (start + c.utf8Size) cs ts) : ∀ t ∈ ts, start < t.start :=
  fun t ht => (Nat.lt_add_of_pos_right c.utf8Size_pos).trans_le (h.stands t ht).start_le

/-! ### One more character -/

/-- A blank character belongs to no token. -/
theorem blank (h : Partitions (start + c.utf8Size) cs ts) (hc : CharClass.of c = .blank) :
    Partitions start (c :: cs) ts where
  stands t ht := (h.stands t ht).cons
  lexical := h.lexical
  ascending := h.ascending
  covers := covers_cons.2 ⟨iff_of_false (not_held_of_lt h.lt_start) (not_not_intro hc), h.covers⟩
  separated := h.separated

/-- A character that continues nothing is a token. -/
theorem alone (h : Partitions (start + c.utf8Size) cs ts) (hc : CharClass.of c ≠ .blank)
    (hcont : continues (CharClass.of c) (start + c.utf8Size) ts = false) :
    Partitions start (c :: cs) (⟨CharClass.of c, start, [c]⟩ :: ts) where
  stands := List.forall_mem_cons.2 ⟨⟨[], cs, rfl, rfl⟩, fun t ht => (h.stands t ht).cons⟩
  lexical := List.forall_mem_cons.2 ⟨⟨⟨List.cons_ne_nil _ _, by simp⟩, hc, fun _ => rfl⟩, h.lexical⟩
  ascending := List.pairwise_cons.2 ⟨fun u hu => (h.stands u hu).start_le, h.ascending⟩
  covers := covers_cons.2 ⟨iff_of_true held_start hc, h.covers.congr fun _ => held_singleton_cons⟩
  separated := by
    refine h.separated.cons fun u hu hcls hrun => ?_
    refine lt_of_le_of_ne (h.stands u (List.mem_of_head? hu)).start_le fun hstop => ?_
    obtain ⟨us, rfl⟩ := List.head?_eq_some_iff.1 hu
    have hcontinues : continues (CharClass.of c) (start + c.utf8Size) (u :: us) = true := by
      simp only [continues, Bool.and_eq_true, decide_eq_true_eq]
      exact ⟨⟨hrun, hcls.symm⟩, hstop.symm⟩
    rw [hcont] at hcontinues
    cases hcontinues

/-- A character of a run can join the token that begins right after it. -/
theorem joined {cs' : List Char} {d : Char}
    (h : Partitions (start + c.utf8Size) cs (⟨CharClass.of c, start + c.utf8Size, d :: cs'⟩ :: ts))
    (hrun : (CharClass.of c).isRun = true) :
    Partitions start (c :: cs) (⟨CharClass.of c, start, c :: d :: cs'⟩ :: ts) where
  stands := by
    obtain ⟨after, rfl⟩ := (h.stands _ List.mem_cons_self).exists_append rfl
    refine List.forall_mem_cons.2 ⟨⟨[], after, rfl, rfl⟩, fun u hu => ?_⟩
    exact (h.stands u (List.mem_cons_of_mem _ hu)).cons
  lexical := by
    obtain ⟨hhead, htail⟩ := List.forall_mem_cons.1 h.lexical
    have huniform : IsUniform ⟨CharClass.of c, start, c :: d :: cs'⟩ :=
      ⟨List.cons_ne_nil _ _, List.forall_mem_cons.2 ⟨rfl, hhead.of_mem⟩⟩
    refine List.forall_mem_cons.2 ⟨⟨huniform, hhead.not_blank, fun hnot => ?_⟩, htail⟩
    exact absurd hrun (Bool.eq_false_iff.1 hnot)
  ascending := by
    obtain ⟨hhead, htail⟩ := List.pairwise_cons.1 h.ascending
    exact List.pairwise_cons.2 ⟨stop_span_cons_cons ▸ hhead, htail⟩
  covers := by
    have hblank := (h.lexical _ List.mem_cons_self).not_blank
    exact covers_cons.2 ⟨iff_of_true held_start hblank, h.covers.congr fun _ => held_cons_cons⟩
  separated := by
    obtain ⟨hhead, htail⟩ := List.isChain_cons.1 h.separated
    exact htail.cons (stop_span_cons_cons ▸ hhead)

/-- A character in front of a text is put into the tokens of the text by `attach`. -/
theorem attach (h : Partitions (start + c.utf8Size) cs ts) :
    Partitions start (c :: cs) (attach c start ts) := by
  rcases attach_cases c start ts with
    ⟨hc, heq⟩ | ⟨hc, hcont, heq⟩ | ⟨t, us, rfl, hrun, hcls, hstart, heq⟩ <;> rw [heq]
  · exact h.blank hc
  · exact h.alone hc hcont
  · obtain ⟨cls, first, chars⟩ := t
    obtain rfl : cls = CharClass.of c := hcls
    obtain rfl : first = start + c.utf8Size := hstart
    obtain ⟨d, cs', rfl⟩ := List.exists_cons_of_ne_nil (h.lexical _ List.mem_cons_self).ne_nil
    exact h.joined hrun

/-! ### One character less -/

/-- The token of a character that is not blank comes first and begins with it. -/
theorem exists_head (h : Partitions start (c :: cs) ts) (hc : CharClass.of c ≠ .blank) :
    ∃ cs' us, ts = ⟨CharClass.of c, start, c :: cs'⟩ :: us := by
  obtain ⟨t, ht, hle, hlt⟩ := (covers_cons.1 h.covers).1.2 hc
  cases ts with
  | nil => cases ht
  | cons u us =>
    have hu := h.lexical u List.mem_cons_self
    have hstands := h.stands u List.mem_cons_self
    have hstart : u.start = start := by
      refine le_antisymm ?_ hstands.start_le
      rcases List.mem_cons.1 ht with rfl | ht
      · exact hle
      · have hstop := (List.pairwise_cons.1 h.ascending).1 t ht
        exact (hu.start_lt_stop.le.trans hstop).trans hle
    obtain ⟨after, hafter⟩ := hstands.exists_append hstart
    obtain ⟨cls, first, chars⟩ := u
    obtain rfl : first = start := hstart
    obtain ⟨d, cs', rfl⟩ := List.exists_cons_of_ne_nil hu.ne_nil
    obtain ⟨rfl, -⟩ := List.cons.inj hafter
    obtain rfl : CharClass.of c = cls := hu.of_mem c List.mem_cons_self
    exact ⟨cs', us, rfl⟩

/-- Without a blank character the rest of the text is cut as before. -/
theorem of_blank (h : Partitions start (c :: cs) ts) (hc : CharClass.of c = .blank) :
    Partitions (start + c.utf8Size) cs ts where
  stands t ht := by
    refine (h.stands t ht).of_cons (lt_of_le_of_ne (h.stands t ht).start_le ?_)
    rintro rfl
    exact (covers_cons.1 h.covers).1.1 ⟨t, ht, le_rfl, (h.lexical t ht).start_lt_stop⟩ hc
  lexical := h.lexical
  ascending := h.ascending
  covers := (covers_cons.1 h.covers).2
  separated := h.separated

/-- Without a character that is a token the rest of the text is cut as before. -/
theorem of_alone {cls : CharClass} (h : Partitions start (c :: cs) (⟨cls, start, [c]⟩ :: ts)) :
    Partitions (start + c.utf8Size) cs ts where
  stands t ht := by
    have hstop : start + c.utf8Size ≤ t.start := (List.pairwise_cons.1 h.ascending).1 t ht
    exact (h.stands t (List.mem_cons_of_mem _ ht)).of_cons
      ((Nat.lt_add_of_pos_right c.utf8Size_pos).trans_le hstop)
  lexical := (List.forall_mem_cons.1 h.lexical).2
  ascending := (List.pairwise_cons.1 h.ascending).2
  covers := (covers_cons.1 h.covers).2.congr fun _ hp => (held_singleton_cons hp).symm
  separated := (List.isChain_cons.1 h.separated).2

/-- A token without its first character is a token of the text without it. -/
theorem of_joined {cls : CharClass} {cs' : List Char} {d : Char}
    (h : Partitions start (c :: cs) (⟨cls, start, c :: d :: cs'⟩ :: ts)) :
    Partitions (start + c.utf8Size) cs (⟨cls, start + c.utf8Size, d :: cs'⟩ :: ts) where
  stands := by
    have hhead := h.lexical _ List.mem_cons_self
    obtain ⟨after, hafter⟩ := (h.stands _ List.mem_cons_self).exists_append rfl
    refine List.forall_mem_cons.2 ⟨⟨[], after, (List.cons.inj hafter).2, rfl⟩, fun u hu => ?_⟩
    have hle := (List.pairwise_cons.1 h.ascending).1 u hu
    exact (h.stands u (List.mem_cons_of_mem _ hu)).of_cons (hhead.start_lt_stop.trans_le hle)
  lexical := by
    obtain ⟨hhead, htail⟩ := List.forall_mem_cons.1 h.lexical
    have huniform : IsUniform ⟨cls, start + c.utf8Size, d :: cs'⟩ :=
      ⟨List.cons_ne_nil _ _, fun e he => hhead.of_mem e (List.mem_cons_of_mem c he)⟩
    refine List.forall_mem_cons.2 ⟨⟨huniform, hhead.not_blank, fun hnot => ?_⟩, htail⟩
    exact absurd hhead.isRun (Bool.eq_false_iff.1 hnot)
  ascending := by
    obtain ⟨hhead, htail⟩ := List.pairwise_cons.1 h.ascending
    exact List.pairwise_cons.2 ⟨stop_span_cons_cons ▸ hhead, htail⟩
  covers := (covers_cons.1 h.covers).2.congr fun _ hp => (held_cons_cons hp).symm
  separated := by
    obtain ⟨hhead, htail⟩ := List.isChain_cons.1 h.separated
    exact htail.cons (stop_span_cons_cons ▸ hhead)

/-- The tokens of a text are those of the text without its first character with this character put
in front. -/
theorem exists_attach (h : Partitions start (c :: cs) ts) :
    ∃ us, Partitions (start + c.utf8Size) cs us ∧ ts = Token.attach c start us := by
  by_cases hc : CharClass.of c = .blank
  · exact ⟨ts, h.of_blank hc, (attach_blank hc).symm⟩
  obtain ⟨cs', us, rfl⟩ := h.exists_head hc
  cases cs' with
  | nil =>
    refine ⟨us, h.of_alone, (attach_of_not_continues hc ?_).symm⟩
    cases us with
    | nil => rfl
    | cons u us =>
      rw [← Bool.not_eq_true]
      intro hcont
      simp only [continues, Bool.and_eq_true, decide_eq_true_eq] at hcont
      have hlt := (List.isChain_cons.1 h.separated).1 u rfl hcont.1.2.symm hcont.1.1
      exact absurd hcont.2.symm hlt.ne
  | cons d cs' =>
    have hrun : (CharClass.of c).isRun = true := (h.lexical _ List.mem_cons_self).isRun
    have hcont : continues (CharClass.of c) (start + c.utf8Size)
        (⟨CharClass.of c, start + c.utf8Size, d :: cs'⟩ :: us) = true := by simp [continues, hrun]
    exact ⟨_, h.of_joined, (attach_of_continues hc hcont).symm⟩

end Partitions

/-- There is exactly one way to cut a text into tokens, and scanning finds it. -/
theorem partitions_iff : Partitions start cs ts ↔ ts = scan start cs := by
  induction cs generalizing start ts with
  | nil =>
    constructor
    · intro h
      cases ts with
      | nil => rfl
      | cons t ts =>
        obtain ⟨before, after, hnil, -⟩ := h.stands t List.mem_cons_self
        exact absurd (by simp_all) (h.lexical t List.mem_cons_self).ne_nil
    · rintro rfl
      exact ⟨nofun, nofun, .nil, fun before c after h => by simp at h, .nil⟩
  | cons c cs ih =>
    constructor
    · intro h
      obtain ⟨us, hus, rfl⟩ := h.exists_attach
      rw [ih.1 hus, scan]
    · rintro rfl
      exact (ih.2 rfl).attach

end Token

end Parsing

end ComputerAlgebra
