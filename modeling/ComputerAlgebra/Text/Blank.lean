/-!
# Blank characters

The white space of Unicode: the property `White_Space`.
-/

namespace ComputerAlgebra

namespace Text

/-- The blank characters, as inclusive ranges of code points. -/
def blankRanges : List (Nat × Nat) := [
  (0x9, 0xD), (0x20, 0x20), (0x85, 0x85), (0xA0, 0xA0), (0x1680, 0x1680), (0x2000, 0x200A),
  (0x2028, 0x2029), (0x202F, 0x202F), (0x205F, 0x205F), (0x3000, 0x3000)]

/-- Is the character white space in the sense of Unicode? -/
def isBlank (c : Char) : Bool := blankRanges.any fun r => r.1 ≤ c.toNat && c.toNat ≤ r.2

end Text

end ComputerAlgebra
