import ComputerAlgebra.Parsing.Error
import ComputerAlgebra.Text.Alphabetic
import ComputerAlgebra.Text.Blank

/-!
# Tokens

A formula falls into tokens: runs of word characters, runs of number characters, and single
symbols. White space separates runs and belongs to no token. Cutting never fails; a symbol that
means nothing is refused later.
-/

namespace ComputerAlgebra

namespace Parsing

/-- What a character can be part of. -/
inductive CharClass where
  | word | number | blank | symbol
  deriving DecidableEq, Repr, Inhabited

/-- Letters and the apostrophe make words, ASCII digits and the point make numbers; all else that is
not blank is a symbol. -/
def CharClass.of (c : Char) : CharClass :=
  if Text.isAlphabetic c || c = '\'' then .word
  else if c.isDigit || c = '.' then .number
  else if Text.isBlank c then .blank
  else .symbol

/-- Do neighbours of this class belong to one token? -/
def CharClass.isRun : CharClass → Bool
  | word => true
  | number => true
  | _ => false

/-- A piece of a formula: the class of its characters, its first byte and the characters. -/
structure Token where
  cls : CharClass
  start : Nat
  chars : List Char
  deriving DecidableEq, Repr, Inhabited

/-- The number of bytes that characters occupy in a text. -/
def byteLength : List Char → Nat
  | [] => 0
  | c :: cs => c.utf8Size + byteLength cs

namespace Token

/-- The text of a token. -/
def text (t : Token) : String := String.ofList t.chars

/-- The bytes that a token occupies. -/
def span (t : Token) : Span := ⟨t.start, t.start + byteLength t.chars⟩

/-- Is the token an equality sign? -/
def isEquals (t : Token) : Bool := t.chars = ['=']

/-- Does a token of class `cls` continue in the tokens that begin at byte `next`? -/
def continues (cls : CharClass) (next : Nat) : List Token → Bool
  | [] => false
  | t :: _ => cls.isRun && t.cls = cls && t.start = next

/-- Put a character at byte `start` in front of the tokens that follow it: it is dropped, joins the
first of them, or is a token of its own. -/
def attach (c : Char) (start : Nat) (rest : List Token) : List Token :=
  match CharClass.of c, rest with
  | .blank, rest => rest
  | cls, rest =>
    if continues cls (start + c.utf8Size) rest then
      ⟨cls, start, c :: rest.head?.elim [] chars⟩ :: rest.tail
    else ⟨cls, start, [c]⟩ :: rest

/-- Cut characters, the first of which stands at byte `start`, into tokens. -/
def scan (start : Nat) : List Char → List Token
  | [] => []
  | c :: cs => attach c start (scan (start + c.utf8Size) cs)

/-- The tokens of a formula. -/
def ofText (text : String) : List Token := scan 0 text.toList

end Token

end Parsing

end ComputerAlgebra
