import ComputerAlgebra.Proofs.Parsing.Relocation
import ComputerAlgebra.Proofs.Parsing.Tokenization

/-!
# White space between tokens

White space can be put into a text wherever no token is cut, and taken out wherever it does not keep
two runs of one class apart: neither changes the characters of any token, and since reading does not
depend on places, neither changes the tree or the cause of failure
(`Parsing.ofText_unique_respaced`).
-/

namespace ComputerAlgebra

namespace Parsing

namespace Token

variable {c : Char} {cs rest gap : List Char} {start k : ℕ} {ts : List Token}

/-- The token a number of bytes later. -/
def shift (k : ℕ) (t : Token) : Token := { t with start := t.start + k }

/-- Whether a run goes on is not changed by moving all of the text. -/
theorem continues_map_shift (cls : CharClass) (next k : ℕ) (ts : List Token) :
    continues cls (next + k) (ts.map (shift k)) = continues cls next ts := by
  cases ts <;> simp [continues, shift]

/-- One more character in front of moved tokens gives the moved tokens. -/
theorem attach_map_shift (c : Char) (start k : ℕ) (ts : List Token) :
    attach c (start + k) (ts.map (shift k)) = (attach c start ts).map (shift k) := by
  have hnext : start + k + c.utf8Size = start + c.utf8Size + k := Nat.add_right_comm _ _ _
  rcases attach_cases c start ts with
    ⟨hc, heq⟩ | ⟨hc, hcont, heq⟩ | ⟨t, us, rfl, hrun, hcls, hstart, heq⟩ <;> rw [heq]
  · exact attach_blank hc
  · rw [attach_of_not_continues hc (by rw [hnext, continues_map_shift, hcont])]
    rfl
  · have hblank : CharClass.of c ≠ .blank := fun hc => by simp [hc, CharClass.isRun] at hrun
    have hcont : continues (CharClass.of c) (start + k + c.utf8Size)
        ((t :: us).map (shift k)) = true := by
      rw [hnext, continues_map_shift]
      simp [continues, hrun, hcls, hstart]
    exact attach_of_continues hblank hcont

/-- Where a text stands changes nothing but where its tokens stand. -/
theorem scan_add (start k : ℕ) (cs : List Char) :
    scan (start + k) cs = (scan start cs).map (shift k) := by
  induction cs generalizing start with
  | nil => rfl
  | cons c cs ih =>
    rw [scan, scan, ← attach_map_shift, ← ih, Nat.add_right_comm]

/-- A text has the same tokens wherever it begins, but for their places. -/
theorem scan_alike (start start' : ℕ) (cs : List Char) :
    List.Forall₂ (Alike fun _ _ => True) (scan start cs) (scan start' cs) := by
  rw [← Nat.zero_add start, ← Nat.zero_add start', scan_add, scan_add, List.forall₂_map_left_iff,
    List.forall₂_map_right_iff]
  exact List.forall₂_same.2 fun t _ => ⟨rfl, rfl, trivial⟩

/-! ### Where white space stands -/

/-- White space breaks off every token. -/
theorem breaks_gap (h : ∀ c ∈ gap, CharClass.of c = .blank) (hne : gap ≠ []) :
    Breaks (gap ++ rest) := by
  obtain ⟨c, gap, rfl⟩ := List.exists_cons_of_ne_nil hne
  exact .cons (by rw [h c List.mem_cons_self]; rfl)

/-- White space is not seen in front of a text. -/
theorem scan_gap_append (h : ∀ c ∈ gap, CharClass.of c = .blank) :
    scan start (gap ++ rest) = scan (start + byteLength gap) rest := by
  induction gap generalizing start with
  | nil => rfl
  | cons c gap ih =>
    rw [List.forall_mem_cons] at h
    rw [List.cons_append, scan_blank h.1, ih h.2, byteLength, Nat.add_assoc]

/-- White space adds no token. -/
theorem scan_append_gap (h : ∀ c ∈ gap, CharClass.of c = .blank) (hne : gap ≠ []) :
    scan start (cs ++ (gap ++ rest)) =
      scan start cs ++ scan (start + byteLength cs + byteLength gap) rest := by
  rw [scan_append (breaks_gap h hne), scan_gap_append h]

/-- White space can be put in or taken out where it does not part a run. -/
theorem scan_respaced_alike (h : ∀ c ∈ gap, CharClass.of c = .blank)
    (hjoins : gap ≠ [] → ¬Joins cs rest) :
    List.Forall₂ (Alike fun _ _ => True) (scan start (cs ++ (gap ++ rest)))
      (scan start (cs ++ rest)) := by
  by_cases hne : gap = []
  · rw [hne]
    exact scan_alike _ _ _
  · rw [scan_append_gap h hne, scan_append_of_not_joins (hjoins hne)]
    exact List.rel_append (scan_alike _ _ _) (scan_alike _ _ _)

/-- A run that goes on from one text into the next is cut between them. -/
theorem Joins.exists_cut (h : Joins cs rest) (start : ℕ) : ∃ t ∈ scan start (cs ++ rest),
    t.span.start < start + byteLength cs ∧ start + byteLength cs < t.span.stop := by
  induction cs generalizing start with
  | nil =>
    obtain ⟨c, ⟨⟩, -⟩ := h
  | cons c cs ih =>
    have hsize := c.utf8Size_pos
    rw [List.cons_append, scan, byteLength]
    cases cs with
    | nil =>
      -- The last character joins the token that the next text begins with.
      obtain ⟨d, hd, hrun, hcls⟩ : ∃ d ∈ rest.head?,
          (CharClass.of c).isRun = true ∧ CharClass.of d = CharClass.of c := by
        simpa [Joins] using h
      have hcont :=
        (continues_scan (CharClass.of c) (start + c.utf8Size) rest).2 ⟨hrun, d, hd, hcls⟩
      rcases attach_cases c start (scan (start + c.utf8Size) rest) with
        ⟨hc, -⟩ | ⟨-, hnot, -⟩ | ⟨u, us, hscan, -, -, -, heq⟩
      · rw [hc] at hrun
        cases hrun
      · rw [hcont] at hnot
        cases hnot
      · have hu : u.IsUniform := isUniform_of_mem_scan (by rw [hscan]; exact List.mem_cons_self)
        have := byteLength_pos hu.ne_nil
        rw [List.nil_append, heq]
        refine ⟨_, List.mem_cons_self, ?_⟩
        simp only [span_cons, byteLength]
        omega
    | cons c' cs =>
      have hcs : Joins (c' :: cs) rest := by simpa [Joins, List.getLast?_cons_cons] using h
      obtain ⟨t, ht, hlt, hgt⟩ := ih hcs (start + c.utf8Size)
      rw [← Nat.add_assoc]
      rcases attach_cases c start (scan (start + c.utf8Size) (c' :: cs ++ rest)) with
        ⟨-, heq⟩ | ⟨-, -, heq⟩ | ⟨u, us, hscan, -, -, hstart, heq⟩ <;> rw [heq]
      · exact ⟨t, ht, hlt, hgt⟩
      · exact ⟨t, List.mem_cons_of_mem _ ht, hlt, hgt⟩
      · rw [hscan] at ht
        rcases List.mem_cons.1 ht with rfl | ht
        · refine ⟨_, List.mem_cons_self, ?_⟩
          simp only [span, hstart] at hlt hgt
          simp only [span_cons]
          omega
        · exact ⟨t, List.mem_cons_of_mem _ ht, hlt, hgt⟩

/-- A character that is not blank ends a token. -/
theorem exists_scan_concat (start : ℕ) (cs : List Char) (hc : CharClass.of c ≠ .blank) :
    ∃ ts t, scan start (cs ++ [c]) = ts ++ [t] ∧ t.cls = CharClass.of c ∧
      t.span.stop = start + byteLength (cs ++ [c]) := by
  induction cs generalizing start with
  | nil =>
    refine ⟨[], ⟨CharClass.of c, start, [c]⟩, attach_of_not_continues hc rfl, rfl, rfl⟩
  | cons d cs ih =>
    obtain ⟨ts, t, hscan, hcls, hstop⟩ := ih (start + d.utf8Size)
    rw [List.cons_append, scan, hscan, byteLength, ← Nat.add_assoc]
    rcases attach_cases d start (ts ++ [t]) with
      ⟨-, heq⟩ | ⟨-, -, heq⟩ | ⟨u, us, hts, -, hucls, hustart, heq⟩ <;> rw [heq]
    · exact ⟨ts, t, rfl, hcls, hstop⟩
    · exact ⟨_ :: ts, t, rfl, hcls, hstop⟩
    · cases ts with
      | nil =>
        obtain ⟨rfl, rfl⟩ := List.cons.inj hts
        refine ⟨[], _, rfl, hucls.symm.trans hcls, ?_⟩
        rw [← hstop, span_cons, ← hustart]
        rfl
      | cons v ts =>
        obtain ⟨rfl, rfl⟩ := List.cons.inj hts
        exact ⟨_ :: ts, t, rfl, hcls, hstop⟩

/-- White space that is put in where no token is cut parts no run. -/
theorem not_joins_of_uncut (h : ∀ t ∈ scan 0 (cs ++ rest),
    t.span.stop ≤ byteLength cs ∨ byteLength cs ≤ t.span.start) : ¬Joins cs rest := by
  intro hjoins
  obtain ⟨t, ht, hlt, hgt⟩ := hjoins.exists_cut 0
  have := h t ht
  omega

/-- White space between tokens that are not runs of one class parts no run. -/
theorem not_joins_of_isChain (start stop next : ℕ) (hstop : start + byteLength cs ≤ stop)
    (h : (scan start cs ++ scan next rest).IsChain fun t u =>
      t.span.stop ≤ stop → next ≤ u.span.start → t.cls = u.cls → t.cls.isRun = false) :
    ¬Joins cs rest := by
  rintro ⟨c, hc, d, hd, hrun, hcls⟩
  have hblank : CharClass.of c ≠ .blank := fun hc => by simp [hc, CharClass.isRun] at hrun
  obtain ⟨cs, rfl⟩ := List.getLast?_eq_some_iff.1 hc
  obtain ⟨rest, rfl⟩ := List.head?_eq_some_iff.1 hd
  obtain ⟨ts, t, hleft, htcls, htstop⟩ := exists_scan_concat start cs hblank
  obtain ⟨u, us, hright, hucls, hustart⟩ := exists_scan_cons next rest (hcls ▸ hblank)
  rw [hleft, hright, List.append_assoc] at h
  have hpair := List.isChain_iff_forall_rel_of_append_cons_cons.1 h rfl (htstop.trans_le hstop)
    hustart.ge (by rw [htcls, hucls, hcls])
  rw [htcls, hrun] at hpair
  cases hpair

end Token

/-- Two texts have the same tokens, but for their places, and the same tree or cause of failure. -/
structure SameReading (s s' : String) : Prop where
  texts : (Token.ofText s).map Token.text = (Token.ofText s').map Token.text
  parse : (Expr.parse s).mapError SyntaxError.bareMessage =
    (Expr.parse s').mapError SyntaxError.bareMessage

namespace SameReading

variable {s s' : String} {before gap after : String}

/-- Being read the same way does not depend on which of the texts comes first. -/
theorem symm (h : SameReading s s') : SameReading s' s := ⟨h.texts.symm, h.parse.symm⟩

/-- Texts with the same tokens, but for their places, are read the same way. -/
theorem of_alike
    (h : List.Forall₂ (Token.Alike fun _ _ => True) (Token.ofText s) (Token.ofText s')) :
    SameReading s s' := by
  constructor
  · rw [← List.forall₂_eq_eq_eq, List.forall₂_map_left_iff, List.forall₂_map_right_iff]
    exact h.imp fun _ _ h => congrArg String.ofList h.chars
  · have hread := readTokens_alike h
    unfold Expr.parse
    generalize readTokens (Token.ofText s) = x at hread ⊢
    generalize readTokens (Token.ofText s') = y at hread ⊢
    cases hread with
    | ok h => rw [h]; rfl
    | error h => simp only [Except.mapError, SyntaxError.bareMessage, h.cause]

/-- White space that parts no run can be put in and taken out. -/
theorem of_not_joins (hgap : ∀ c ∈ gap.toList, Text.isBlank c = true)
    (hjoins : gap ≠ "" → ¬Token.Joins before.toList after.toList) :
    SameReading (before ++ gap ++ after) (before ++ after) := by
  refine of_alike ?_
  simp only [Token.ofText, String.toList_append, List.append_assoc]
  refine Token.scan_respaced_alike
    (fun c hc => CharClass.of_eq_blank_iff.2 (hgap c hc)) fun hne => ?_
  exact hjoins fun h => hne (by rw [h]; rfl)

end SameReading

/-- A text has exactly one cut into tokens. So white space that is put between two of them, or taken
out between two that are not runs of one class, changes no token's text, nor what is read. -/
theorem ofText_unique_respaced :
    (∀ text ts, Token.IsTokenization text ts ↔ ts = Token.ofText text) ∧
    ∀ before gap after : String, (∀ c ∈ gap.toList, Text.isBlank c = true) →
      ((∀ t ∈ Token.ofText (before ++ after),
          t.span.stop ≤ before.utf8ByteSize ∨ before.utf8ByteSize ≤ t.span.start) →
        SameReading (before ++ after) (before ++ gap ++ after)) ∧
      ((Token.ofText (before ++ gap ++ after)).IsChain (fun t u =>
          t.span.stop ≤ before.utf8ByteSize → (before ++ gap).utf8ByteSize ≤ u.span.start →
            t.cls = u.cls → t.cls.isRun = false) →
        SameReading (before ++ gap ++ after) (before ++ after)) := by
  refine ⟨fun text ts => Token.isTokenization_iff.trans Token.partitions_iff,
    fun before gap after hgap => ⟨fun huncut => ?_, fun hchain => ?_⟩⟩
  · refine (SameReading.of_not_joins hgap fun _ => Token.not_joins_of_uncut ?_).symm
    rwa [Token.ofText, String.toList_append, ← byteLength_toList] at huncut
  · refine SameReading.of_not_joins hgap fun hne => ?_
    have hclass : ∀ c ∈ gap.toList, CharClass.of c = .blank :=
      fun c hc => CharClass.of_eq_blank_iff.2 (hgap c hc)
    have hgapne : gap.toList ≠ [] := fun h => hne (String.toList_eq_nil_iff.1 h)
    refine Token.not_joins_of_isChain 0 before.utf8ByteSize (before ++ gap).utf8ByteSize ?_ ?_
    · rw [Nat.zero_add, byteLength_toList]
    · rw [Token.ofText, String.toList_append, String.toList_append, List.append_assoc,
        Token.scan_append_gap hclass hgapne] at hchain
      simpa [String.utf8ByteSize_append, byteLength_toList] using hchain

/-- `2x` has one tokenization, and is read like `2 x`: the space between two kinds of characters
changes nothing, whether it is put in or taken out. -/
theorem ofText_unique_respaced_coefficient :
    Token.IsTokenization "2x" (Token.ofText "2x") ∧
      SameReading ("2" ++ "x") ("2" ++ " " ++ "x") ∧ SameReading ("2" ++ " " ++ "x") ("2" ++ "x") :=
  have h := ofText_unique_respaced.2 "2" " " "x" (List.forall_mem_singleton.2 (by decide))
  ⟨(ofText_unique_respaced.1 _ _).2 rfl, h.1 (by decide +kernel), h.2 (by decide +kernel)⟩

end Parsing

end ComputerAlgebra
