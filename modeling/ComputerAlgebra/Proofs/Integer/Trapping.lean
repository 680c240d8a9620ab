import ComputerAlgebra.Proofs.Integer.LowestTerms

/-!
# Fractions on a machine

The arithmetic of fractions as a machine runs it: greatest common divisors by a loop over unsigned
integers, and divisions that trap where the machine has no result, on a divisor `0` and on the
quotient of the least integer and `-1`. None of them traps on fractions with denominators other than
`0`, so the machine computes what `Fraction.sum?` and the like say (`sumTrap_eq`).

A value of type `OptionT Option α` is the outcome of such a computation. The outer option is missing
after a trap, the inner one where a checked operation reports that its result does not fit.
-/

namespace ComputerAlgebra

namespace Fraction

variable {a b : Int64} {q : Fraction} {qs : List Fraction}

/-! ### Operations that trap -/

/-- An outcome that is no trap. -/
def untrapped {α : Type} (x : Option α) : OptionT Option α := .mk (some x)

/-- A result that may be missing because of a trap. -/
def orTrap {α : Type} (x : Option α) : OptionT Option α := .mk (x.map some)

/-- Division, which traps on a divisor `0` and where the quotient does not fit. -/
def divTrap (a b : Int64) : Option Int64 :=
  if b = 0 then none else Int64.ofInt? (a.toInt.tdiv b.toInt)

/-- The remainder of unsigned integers, which traps on a divisor `0`. -/
def remTrap (a b : UInt64) : Option UInt64 := if b = 0 then none else some (a % b)

/-- A remainder that does not trap is smaller than the divisor. -/
theorem remTrap_lt {a b r : UInt64} (h : remTrap a b = some r) : r.toNat < b.toNat := by
  unfold remTrap at h
  split at h
  · cases h
  · next hb =>
    cases h
    rw [UInt64.toNat_mod]
    have hne : b.toNat ≠ 0 := fun h0 => hb (UInt64.toNat_inj.1 h0)
    exact Nat.mod_lt _ (by omega)

/-- Euclid's algorithm. -/
def euclid (a b : UInt64) : Option UInt64 :=
  if b = 0 then some a
  else match _h : remTrap a b with
    | none => none
    | some r => euclid b r
termination_by b.toNat
decreasing_by exact remTrap_lt _h

/-- The absolute value as an unsigned integer, which always fits. -/
def unsignedAbs (a : Int64) : UInt64 := .ofNat a.toInt.natAbs

/-- `gcd` by Euclid's algorithm. -/
def gcdTrap (a b : Int64) : Option Int64 :=
  (euclid (unsignedAbs a) (unsignedAbs b)).map fun g => (Int64.ofInt? g.toNat).getD 1

/-- `lcm?` with a division that traps. -/
def lcmTrap (a b : Int64) : OptionT Option Int64 := do
  let g ← orTrap (gcdTrap a b)
  if g = 0 then return 0
  else
    let k ← orTrap (divTrap a g)
    let m ← untrapped (k.mul? b)
    untrapped m.abs?

/-- `reduce?` with divisions that trap. -/
def reduceTrap (q : Fraction) : OptionT Option Fraction := do
  let g ← orTrap (gcdTrap q.num q.den)
  let n ← orTrap (divTrap q.num g)
  let d ← orTrap (divTrap q.den g)
  if d < 0 then
    let n' ← untrapped n.neg?
    let d' ← untrapped d.neg?
    return ⟨n', d'⟩
  else return ⟨n, d⟩

/-- `commonDen?` with divisions that trap. -/
def commonDenTrap (qs : List Fraction) : OptionT Option Int64 :=
  qs.foldlM (fun m q => lcmTrap m q.den) 1

/-- `sumOver?` with divisions that trap. -/
def sumOverTrap (m : Int64) (qs : List Fraction) : OptionT Option Int64 :=
  qs.foldlM (fun s q => do
    let k ← orTrap (divTrap m q.den)
    let n ← untrapped (q.num.mul? k)
    untrapped (s.add? n)) 0

/-- `sum?` with divisions that trap. -/
def sumTrap (qs : List Fraction) : OptionT Option Fraction := do
  let m ← commonDenTrap qs
  let s ← sumOverTrap m qs
  reduceTrap ⟨s, m⟩

/-! ### None of them traps -/

theorem orTrap_some {α : Type} (x : α) : orTrap (some x) = pure x := rfl

/-- A step that cannot trap is followed by one that cannot trap. -/
theorem untrapped_bind {α β : Type} (x : Option α) (f : α → Option β) :
    (untrapped x >>= fun y => untrapped (f y)) = untrapped (x.bind f) := by
  cases x <;> rfl

/-- A fold of steps that cannot trap cannot trap. Only the elements of the list count, since a
denominator `0` would trap. -/
theorem foldlM_untrapped {α β : Type} {f : β → α → OptionT Option β} {g : β → α → Option β}
    {as : List α} (h : ∀ a ∈ as, ∀ b, f b a = untrapped (g b a)) (b : β) :
    as.foldlM f b = untrapped (as.foldlM g b) := by
  induction as generalizing b with
  | nil => rfl
  | cons a as ih =>
    rw [List.forall_mem_cons] at h
    rw [List.foldlM_cons, List.foldlM_cons, h.1, Option.bind_eq_bind, ← untrapped_bind]
    exact bind_congr fun c => ih h.2 c

/-- A division goes through unless it is by `0`, or of the least integer by `-1`. -/
theorem divTrap_eq (hb : b ≠ 0) (h : a ≠ Int64.minValue ∨ b ≠ -1) :
    divTrap a b = some (a / b) := by
  rw [divTrap, if_neg hb, Int64.ofInt?_eq_some_iff]
  rcases h with h | h
  · exact Int64.toInt_div_of_ne_left _ _ h
  · exact Int64.toInt_div_of_ne_right _ _ h

/-- Division by a positive integer goes through. -/
theorem divTrap_of_pos (hb : 0 < b.toInt) : divTrap a b = some (a / b) := by
  refine divTrap_eq (Int64.ne_zero_iff_toInt_ne_zero.2 hb.ne') (.inr ?_)
  rintro rfl
  simp at hb

/-- The loop of the algorithm of Euclid ends without a trap, with the greatest common divisor. -/
theorem euclid_eq (a b : UInt64) :
    ∃ g, euclid a b = some g ∧ g.toNat = Nat.gcd a.toNat b.toNat := by
  induction a, b using euclid.induct with
  | case1 a =>
    rw [euclid, if_pos rfl]
    exact ⟨a, rfl, by simp⟩
  | case2 a b hb h => simp [remTrap, hb] at h
  | case3 a b hb r h ih =>
    obtain ⟨g, hg, hval⟩ := ih
    refine ⟨g, ?_, ?_⟩
    · rw [euclid, if_neg hb]
      split
      · next h' => simp [h] at h'
      · next r' h' =>
        rw [h] at h'
        cases h'
        exact hg
    · have hr : r = a % b := by simpa [remTrap, hb] using h.symm
      rw [hval, hr, UInt64.toNat_mod, Nat.gcd_comm, ← Nat.gcd_rec, Nat.gcd_comm]

theorem toNat_unsignedAbs (a : Int64) : (unsignedAbs a).toNat = a.toInt.natAbs := by
  have ha := a.le_toInt
  have ha' := a.toInt_lt
  rw [unsignedAbs, UInt64.toNat_ofNat']
  exact Nat.mod_eq_of_lt (by omega)

/-- The divisor is computed without a trap, whatever the numbers are. -/
theorem gcdTrap_eq (a b : Int64) : gcdTrap a b = some (gcd a b) := by
  obtain ⟨g, hg, hval⟩ := euclid_eq (unsignedAbs a) (unsignedAbs b)
  rw [toNat_unsignedAbs, toNat_unsignedAbs] at hval
  rw [gcdTrap, hg, Option.map_some, hval, gcd]

/-- The greatest common divisor is not negative, and where it is not `0` one may divide by it. -/
theorem divTrap_gcd {c : Int64} (h : gcd a b ≠ 0) : divTrap c (gcd a b) = some (c / gcd a b) := by
  refine divTrap_of_pos ?_
  rw [Int64.ne_zero_iff_toInt_ne_zero] at h
  rcases toInt_gcd a b with hg | ⟨hg, -⟩ <;> omega

/-- The least common multiple is computed without a trap, whatever the numbers are. -/
theorem lcmTrap_eq (a b : Int64) : lcmTrap a b = untrapped (lcm? a b) := by
  rw [lcmTrap, gcdTrap_eq, orTrap_some, pure_bind]
  by_cases hg : gcd a b = 0
  · rw [if_pos hg, lcm?, if_pos hg]
    rfl
  · rw [if_neg hg, divTrap_gcd hg, orTrap_some, pure_bind, untrapped_bind, lcm?, if_neg hg]
    rfl

/-- A fraction is reduced without a trap if its denominator is not `0`. -/
theorem reduceTrap_eq (hq : q.den ≠ 0) : reduceTrap q = untrapped (reduce? q) := by
  have hg : gcd q.num q.den ≠ 0 := Int64.ne_zero_iff_toInt_ne_zero.2 (gcd_pos hq).ne'
  rw [reduceTrap, gcdTrap_eq, orTrap_some, pure_bind, divTrap_gcd hg, orTrap_some, pure_bind,
    divTrap_gcd hg, orTrap_some, pure_bind, reduce?]
  split
  · cases (q.num / gcd q.num q.den).neg? with
    | none => rfl
    | some n => cases (q.den / gcd q.num q.den).neg? <;> rfl
  · rfl

/-- The common denominator is computed without a trap. -/
theorem commonDenTrap_eq (qs : List Fraction) : commonDenTrap qs = untrapped (commonDen? qs) :=
  foldlM_untrapped (fun q _ m => lcmTrap_eq m q.den) 1

/-- A common denominator is positive, so it may be divided by `-1`, too. -/
theorem sumOverTrap_eq {m : Int64} (hm : 0 < m.toInt) (hqs : ∀ q ∈ qs, q.den ≠ 0) :
    sumOverTrap m qs = untrapped (sumOver? m qs) := by
  have hmin : m ≠ Int64.minValue := by
    rintro rfl
    exact absurd hm (by decide)
  refine foldlM_untrapped (fun q hq s => ?_) 0
  rw [divTrap_eq (hqs q hq) (.inl hmin), orTrap_some, pure_bind, untrapped_bind]
  rfl

/-- Fractions are added without a trap if no denominator is `0`. -/
theorem sumTrap_eq (hqs : ∀ q ∈ qs, q.den ≠ 0) : sumTrap qs = untrapped (sum? qs) := by
  rw [sumTrap, commonDenTrap_eq, sum?]
  cases hm : commonDen? qs with
  | none => rfl
  | some m =>
    have hpos : 0 < m.toInt := (commonDen?_eq_some hqs hm).1
    have hne : m ≠ 0 := Int64.ne_zero_iff_toInt_ne_zero.2 hpos.ne'
    show (sumOverTrap m qs >>= fun s => reduceTrap ⟨s, m⟩) = _
    rw [sumOverTrap_eq hpos hqs]
    refine (bind_congr fun s => reduceTrap_eq (q := ⟨s, m⟩) hne).trans ?_
    rw [untrapped_bind]
    rfl

end Fraction

end ComputerAlgebra
