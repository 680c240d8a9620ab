/-!
# Exact integer arithmetic

Operations on 64-bit integers that give the exact result or none at all. Each is the operation on
mathematical integers followed by `Int64.ofInt?`, which refuses what does not fit
(`Int64.ofInt?_eq_some_iff`).
-/

namespace Int64

/-- The 64-bit integer of a given value, if the value fits. -/
def ofInt? (i : Int) : Option Int64 :=
  if -0x8000000000000000 ≤ i ∧ i < 0x8000000000000000 then some (.ofInt i) else none

/-- What `ofInt?` gives has the value that was asked for, and it gives it whenever there is one. -/
theorem ofInt?_eq_some_iff {i : Int} {n : Int64} : ofInt? i = some n ↔ n.toInt = i := by
  unfold ofInt?
  constructor
  · intro h
    split at h
    · next hi =>
      cases h
      exact toInt_ofInt_of_le (by simpa using hi.1) (by simpa using hi.2)
    · cases h
  · rintro rfl
    rw [if_pos ⟨n.le_toInt, n.toInt_lt⟩, ofInt_toInt]

/-- What fits into 64 bits is its own value. -/
@[simp] theorem ofInt?_toInt (n : Int64) : ofInt? n.toInt = some n := ofInt?_eq_some_iff.2 rfl

/-- The exact sum. -/
def add? (a b : Int64) : Option Int64 := ofInt? (a.toInt + b.toInt)

/-- The exact difference. -/
def sub? (a b : Int64) : Option Int64 := ofInt? (a.toInt - b.toInt)

/-- The exact product. -/
def mul? (a b : Int64) : Option Int64 := ofInt? (a.toInt * b.toInt)

/-- The exact negative; only the least integer has none. -/
def neg? (a : Int64) : Option Int64 := ofInt? (-a.toInt)

/-- The exact absolute value; only the least integer has none. -/
def abs? (a : Int64) : Option Int64 := ofInt? a.toInt.natAbs

/-- The exact power. From exponent 64 on only the parity of the exponent matters: the powers of
`0`, `1` and `-1` repeat, and those of any other base are too large. -/
def pow? (base : Int64) (exponent : Nat) : Option Int64 :=
  ofInt? (Int.pow base.toInt (if exponent < 64 then exponent else 64 + exponent % 2))

/-- The largest number that the digits chosen so far and the remaining ones make without its square
exceeding `n`. -/
def sqrtFrom (n : Nat) : Nat → Nat → Nat
  | 0, root => root
  | digits + 1, root =>
    let next := root + Nat.pow 2 digits
    sqrtFrom n digits (if next * next ≤ n then next else root)

/-- The square root of a perfect square. A 64-bit integer has a root of at most 32 binary digits,
which are found from the first to the last. -/
def sqrt? (a : Int64) : Option Int64 :=
  let root := sqrtFrom a.toInt.toNat 32 0
  if (root * root : Int) = a.toInt then ofInt? root else none

end Int64
