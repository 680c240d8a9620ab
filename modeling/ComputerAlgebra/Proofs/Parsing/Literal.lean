import ComputerAlgebra.Proofs.Parsing.Grammar

/-!
# Literals

The numerals that are read are the literals of the grammar.
-/

namespace ComputerAlgebra

namespace Parsing

namespace Grammar

/-- The value of digits is that of the library. -/
theorem digitsValue_eq_ofDigits (ds : List Char) :
    digitsValue ds = Nat.ofDigits 10 (ds.map fun d => d.toNat - '0'.toNat).reverse := by
  rw [Nat.ofDigits_eq_foldr, List.foldr_reverse, List.foldl_map, digitsValue]
  simp only [add_comm, Nat.cast_id]

theorem ofInt?_natCast (n : Nat) :
    Int64.ofInt? n = if 2 ^ 63 ≤ n then none else some (.ofNat n) := by
  split
  · simp only [Int64.ofInt?, ite_eq_right_iff]
    omega
  · rw [Int64.ofInt?_eq_some_iff, Int64.toInt_ofNat_of_lt (by omega)]

variable (cs : List Char)

/-- A numeral is cut at its first point, if it has one. -/
theorem exists_point :
    '.' ∉ cs ∧ cs.span (· ≠ '.') = (cs, []) ∨
      ∃ whole fraction, '.' ∉ whole ∧ cs = whole ++ '.' :: fraction ∧
        cs.span (· ≠ '.') = (whole, '.' :: fraction) := by
  rw [List.span_eq_takeWhile_dropWhile]
  have hwhole : '.' ∉ cs.takeWhile (· ≠ '.') := fun h => by simpa using List.mem_takeWhile_imp h
  have happend := List.takeWhile_append_dropWhile (p := (· ≠ '.')) (l := cs)
  cases htail : cs.dropWhile (· ≠ '.') with
  | nil =>
    rw [htail, List.append_nil] at happend
    rw [happend] at hwhole ⊢
    exact .inl ⟨hwhole, rfl⟩
  | cons c fraction =>
    have hc : c = '.' := by
      have hne : cs.dropWhile (· ≠ '.') ≠ [] := by rw [htail]; exact List.cons_ne_nil _ _
      have hhead := List.head_dropWhile_not _ hne
      simp only [htail, List.head_cons] at hhead
      simpa using hhead
    subst hc
    exact .inr ⟨_, _, hwhole, by rw [← htail, happend], rfl⟩

/-- Without a point there is nothing to take out. -/
theorem filter_point_eq_self (h : '.' ∉ cs) : cs.filter (· ≠ '.') = cs :=
  List.filter_eq_self.2 fun c hc => by simpa using ne_of_mem_of_not_mem hc h

/-- The grammar reads literals as the program does. -/
theorem literal?_eq_readNumeral? : literal? cs = readNumeral? cs := by
  have hplaces : places cs = ((cs.span (· ≠ '.')).2.drop 1).length := by
    rw [List.span_eq_takeWhile_dropWhile, List.length_drop, places]
  rw [literal?, hplaces, digitsNumber, ← digitsValue_eq_ofDigits, readNumeral?]
  rcases exists_point cs with ⟨hpoint, hspan⟩ | ⟨whole, fraction, hwhole, hcs, hspan⟩
  · rw [hspan, filter_point_eq_self cs hpoint]
    by_cases hcs : cs = []
    · simp [hcs]
    · simp only [hcs, List.count_eq_zero_of_not_mem hpoint, ofInt?_natCast]
      split_ifs <;> simp_all
      omega
  · have hcount : cs.count '.' = fraction.count '.' + 1 := by
      rw [hcs, List.count_append, List.count_eq_zero_of_not_mem hwhole, List.count_cons_self,
        zero_add]
    rw [hspan]
    by_cases hpoint : '.' ∈ fraction
    · have : 1 < cs.count '.' := by
        have := List.count_pos_iff.2 hpoint
        omega
      simp [this, hpoint]
    · have hfilter : cs.filter (· ≠ '.') = whole ++ fraction := by
        rw [hcs, List.filter_append, List.filter_cons_of_neg (by simp),
          filter_point_eq_self whole hwhole, filter_point_eq_self fraction hpoint]
      rw [hfilter, hcount, List.count_eq_zero_of_not_mem hpoint]
      by_cases hdigits : whole ++ fraction = []
      · simp [hdigits]
      · simp only [ofInt?_natCast]
        split_ifs <;> simp_all <;> omega

end Grammar

end Parsing

end ComputerAlgebra
