import ComputerAlgebra.Parsing.Lexeme
import Mathlib

/-!
# Cutting text into tokens

Where a text is cut. Characters that belong to no run can be scanned by themselves
(`Token.scan_append`), and a run is one token (`Token.scan_run`). Conversely a token holds
characters of its class only (`Token.IsUniform`).
-/

namespace ComputerAlgebra

namespace Parsing

namespace Token

variable {cls : CharClass} {c : Char} {cs rest : List Char} {start next : Nat} {t : Token}
  {ts us : List Token}

/-! ### One character -/

theorem attach_blank (h : CharClass.of c = .blank) : attach c start ts = ts := by
  unfold attach
  split <;> simp_all

/-- A character that does not continue is a token. -/
theorem attach_of_not_continues (h : CharClass.of c ≠ .blank)
    (hcont : continues (CharClass.of c) (start + c.utf8Size) ts = false) :
    attach c start ts = ⟨CharClass.of c, start, [c]⟩ :: ts := by
  unfold attach
  split
  · contradiction
  · rw [hcont]
    rfl

/-- A character that continues joins the first token. -/
theorem attach_of_continues (h : CharClass.of c ≠ .blank)
    (hcont : continues (CharClass.of c) (start + c.utf8Size) (t :: ts) = true) :
    attach c start (t :: ts) = ⟨CharClass.of c, start, c :: t.chars⟩ :: ts := by
  unfold attach
  split
  · contradiction
  · rw [if_pos hcont]
    rfl

/-- A character is dropped, or it is a token, or it joins the first token of what follows. -/
theorem attach_cases (c : Char) (start : ℕ) (ts : List Token) :
    (CharClass.of c = .blank ∧ attach c start ts = ts) ∨
    (CharClass.of c ≠ .blank ∧ continues (CharClass.of c) (start + c.utf8Size) ts = false ∧
      attach c start ts = ⟨CharClass.of c, start, [c]⟩ :: ts) ∨
    ∃ t us, ts = t :: us ∧ (CharClass.of c).isRun = true ∧ t.cls = CharClass.of c ∧
      t.start = start + c.utf8Size ∧
      attach c start ts = ⟨CharClass.of c, start, c :: t.chars⟩ :: us := by
  by_cases hc : CharClass.of c = .blank
  · exact .inl ⟨hc, attach_blank hc⟩
  cases hcont : continues (CharClass.of c) (start + c.utf8Size) ts with
  | false => exact .inr (.inl ⟨hc, rfl, attach_of_not_continues hc hcont⟩)
  | true =>
    cases ts with
    | nil => cases hcont
    | cons t us =>
      have h := hcont
      simp only [continues, Bool.and_eq_true, decide_eq_true_eq] at h
      exact .inr (.inr ⟨t, us, rfl, h.1.1, h.1.2, h.2, attach_of_continues hc hcont⟩)

/-- A symbol goes on in no token. -/
theorem continues_of_not_isRun (h : cls.isRun = false) : continues cls next ts = false := by
  cases ts <;> simp [continues, h]

/-- A token does not begin where a later one does. -/
theorem continues_of_lt (h : ∀ t ∈ ts, next < t.start) : continues cls next ts = false := by
  cases ts with
  | nil => rfl
  | cons t ts =>
    have := h t List.mem_cons_self
    simp only [continues, Bool.and_eq_false_iff, decide_eq_false_iff_not]
    exact .inr (by omega)

/-- A symbol is a token of its own. -/
theorem scan_symbol (h : CharClass.of c = .symbol) :
    scan start (c :: cs) = ⟨.symbol, start, [c]⟩ :: scan (start + c.utf8Size) cs := by
  rw [scan, attach_of_not_continues (by simp [h]) (continues_of_not_isRun (by rw [h]; rfl)), h]

theorem scan_blank (h : CharClass.of c = .blank) :
    scan start (c :: cs) = scan (start + c.utf8Size) cs := attach_blank h

/-- Tokens do not begin before the place at which scanning begins, if those of the rest do not. -/
theorem start_le_of_mem_attach (h : t ∈ attach c start ts) (hts : ∀ u ∈ ts, start ≤ u.start) :
    start ≤ t.start := by
  rcases attach_cases c start ts with
    ⟨-, hattach⟩ | ⟨-, -, hattach⟩ | ⟨u, us, rfl, -, -, -, hattach⟩ <;> rw [hattach] at h
  · exact hts t h
  · rcases List.mem_cons.1 h with rfl | h
    · exact le_rfl
    · exact hts t h
  · rcases List.mem_cons.1 h with rfl | h
    · exact le_rfl
    · exact hts t (List.mem_cons_of_mem u h)

/-- No token begins in front of the text. -/
theorem start_le (h : t ∈ scan start cs) : start ≤ t.start := by
  induction cs generalizing start t with
  | nil => cases h
  | cons c cs ih =>
    exact start_le_of_mem_attach h fun u hu => (Nat.le_add_right _ _).trans (ih hu)

/-! ### Texts in a row -/

/-- The text begins with no character that could continue a run. -/
def Breaks (cs : List Char) : Prop := ∀ c ∈ cs.head?, (CharClass.of c).isRun = false

theorem Breaks.nil : Breaks [] := nofun

theorem Breaks.cons (h : (CharClass.of c).isRun = false) : Breaks (c :: cs) := by
  rintro _ ⟨⟩
  exact h

/-- A character that is not blank begins a token. -/
theorem exists_scan_cons (start : ℕ) (cs : List Char) (h : CharClass.of c ≠ .blank) :
    ∃ t ts, scan start (c :: cs) = t :: ts ∧ t.cls = CharClass.of c ∧ t.start = start := by
  rcases attach_cases c start (scan (start + c.utf8Size) cs) with
    ⟨hc, -⟩ | ⟨-, -, hattach⟩ | ⟨t, us, -, -, -, -, hattach⟩
  · contradiction
  · exact ⟨_, _, hattach, rfl, rfl⟩
  · exact ⟨_, _, hattach, rfl, rfl⟩

/-- The tokens that are scanned continue a run exactly if their first character does. -/
theorem continues_scan (cls : CharClass) (next : ℕ) (cs : List Char) :
    continues cls next (scan next cs) = true ↔
      cls.isRun = true ∧ ∃ c ∈ cs.head?, CharClass.of c = cls := by
  cases cs with
  | nil => simp [scan, continues]
  | cons c cs =>
    simp only [List.head?_cons, Option.mem_some_iff, exists_eq_left']
    by_cases hc : CharClass.of c = .blank
    · rw [scan_blank hc, hc, continues_of_lt fun t ht =>
        (Nat.lt_add_of_pos_right c.utf8Size_pos).trans_le (start_le ht)]
      cases cls <;> simp [CharClass.isRun]
    · obtain ⟨t, ts, hscan, hcls, hstart⟩ := exists_scan_cons next cs hc
      simp [hscan, continues, hcls, hstart]

/-- The last character of one text and the first one of another belong to one run. -/
def Joins (cs rest : List Char) : Prop :=
  ∃ c ∈ cs.getLast?, ∃ d ∈ rest.head?,
    (CharClass.of c).isRun = true ∧ CharClass.of d = CharClass.of c

/-- Where the next text breaks off every token, no run goes on in it. -/
theorem Breaks.not_joins (h : Breaks rest) (cs : List Char) : ¬Joins cs rest := by
  rintro ⟨c, -, d, hd, hrun, hcls⟩
  rw [← hcls, h d hd] at hrun
  cases hrun

/-- A character in front of two lists of tokens is put into the first one, unless this is empty. -/
theorem attach_append (h : ts = [] → continues (CharClass.of c) (start + c.utf8Size) us = false) :
    attach c start (ts ++ us) = attach c start ts ++ us := by
  by_cases hc : CharClass.of c = .blank
  · rw [attach_blank hc, attach_blank hc]
  cases ts with
  | nil =>
    rw [List.nil_append, attach_of_not_continues hc (h rfl), attach_of_not_continues hc rfl]
    rfl
  | cons t ts =>
    have hhead : continues (CharClass.of c) (start + c.utf8Size) (t :: (ts ++ us)) =
        continues (CharClass.of c) (start + c.utf8Size) (t :: ts) := rfl
    rw [List.cons_append]
    cases hcont : continues (CharClass.of c) (start + c.utf8Size) (t :: ts) with
    | false =>
      rw [attach_of_not_continues hc hcont, attach_of_not_continues hc (hhead.trans hcont)]
      rfl
    | true =>
      rw [attach_of_continues hc hcont, attach_of_continues hc (hhead.trans hcont)]
      rfl

theorem byteLength_pos (h : cs ≠ []) : 0 < byteLength cs := by
  cases cs with
  | nil => contradiction
  | cons c cs => exact Nat.add_pos_left c.utf8Size_pos _

/-- A text can be scanned in two parts where no run is cut. -/
theorem scan_append_of_not_joins (h : ¬Joins cs rest) :
    scan start (cs ++ rest) = scan start cs ++ scan (start + byteLength cs) rest := by
  induction cs generalizing start with
  | nil => rfl
  | cons c cs ih =>
    have hcs : ¬Joins cs rest := by
      rintro ⟨d, hd, hjoins⟩
      refine h ⟨d, ?_, hjoins⟩
      rw [List.getLast?_cons, Option.mem_def.1 hd]
      rfl
    rw [List.cons_append, scan, ih hcs, scan, byteLength, ← Nat.add_assoc]
    refine attach_append fun _ => ?_
    by_cases hnil : cs = []
    · rw [hnil, byteLength, Nat.add_zero, ← Bool.not_eq_true, continues_scan]
      rintro ⟨hrun, d, hd, hcls⟩
      exact h ⟨c, by simp [hnil], d, hd, hrun, hcls⟩
    · have := byteLength_pos hnil
      exact continues_of_lt fun t ht => (Nat.lt_add_of_pos_right this).trans_le (start_le ht)

/-- A text of two parts is scanned part by part, where the second one breaks off every token. -/
theorem scan_append (h : Breaks rest) :
    scan start (cs ++ rest) = scan start cs ++ scan (start + byteLength cs) rest :=
  scan_append_of_not_joins (h.not_joins cs)

/-- A run is one token. -/
theorem scan_run (hcls : cls.isRun = true) (hne : cs ≠ []) (h : ∀ c ∈ cs, CharClass.of c = cls) :
    scan start cs = [⟨cls, start, cs⟩] := by
  have hblank : cls ≠ .blank := by
    rintro rfl
    cases hcls
  induction cs generalizing start with
  | nil => contradiction
  | cons c cs ih =>
    rw [List.forall_mem_cons] at h
    obtain ⟨rfl, h⟩ := h
    rw [scan]
    by_cases hcs : cs = []
    · rw [hcs]
      exact attach_of_not_continues hblank rfl
    · rw [ih hcs h, attach_of_continues hblank]
      simp [continues, hcls]

/-! ### What tokens hold -/

/-- A token is not empty, and all of its characters are of its class. -/
structure IsUniform (t : Token) : Prop where
  ne_nil : t.chars ≠ []
  of_mem : ∀ c ∈ t.chars, CharClass.of c = t.cls

/-- All characters of a token are of its class. -/
theorem isUniform_of_mem_scan (h : t ∈ scan start cs) : t.IsUniform := by
  induction cs generalizing start t with
  | nil => cases h
  | cons c cs ih =>
    rw [scan] at h
    rcases attach_cases c start (scan (start + c.utf8Size) cs) with
      ⟨-, hattach⟩ | ⟨-, -, hattach⟩ | ⟨u, us, hts, -, hcls, -, hattach⟩ <;> rw [hattach] at h
    · exact ih h
    · rcases List.mem_cons.1 h with rfl | h
      · exact ⟨List.cons_ne_nil _ _, by simp⟩
      · exact ih h
    · rcases List.mem_cons.1 h with rfl | h
      · have hu : u.IsUniform := ih (by rw [hts]; exact List.mem_cons_self)
        refine ⟨List.cons_ne_nil _ _, List.forall_mem_cons.2 ⟨rfl, fun d hd => ?_⟩⟩
        rw [hu.of_mem d hd, hcls]
      · exact ih (by rw [hts]; exact List.mem_cons_of_mem u h)

end Token

end Parsing

end ComputerAlgebra
