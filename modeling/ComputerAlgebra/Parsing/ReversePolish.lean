import ComputerAlgebra.Parsing.Lexeme

/-!
# From infix to reverse Polish order

An operator-precedence scan: operands go to the output at once, operators wait until one that binds
no more tightly, a closing parenthesis or the end of the formula calls for them. Three rules go
beyond the textbook.

* An operand that begins right after another one is multiplied with it.
* A sign where an operand is due is unary. A plus sign is dropped; a minus sign puts the operand
  `-1` out and leaves a multiplication waiting, on top of whatever waits already.
* A function waits like an operator that nothing can call for but a parenthesis: the one that
  closes its argument, the one that closes a group around it, or the end.

The scan does not check that every operator finds its operands; building the tree does.
-/

namespace ComputerAlgebra

namespace Parsing

namespace ReversePolish

/-- What stands in reverse Polish order: operands, and what applies to the operands before it. -/
inductive Item where
  | number (digits : List Char)
  | minusOne
  | name (text : String)
  | func (f : Func)
  | op (op : Operator)
  deriving DecidableEq, Repr, Inhabited

/-- What waits for its operands. -/
inductive Pending where
  | func (f : Func)
  | op (op : Operator)
  | paren
  deriving DecidableEq, Repr, Inhabited

/-- The state of the scan: the output so far, last item first, what waits, latest first, and
whether the last lexeme completed an operand. -/
structure State where
  output : List (Located Item)
  pending : List (Located Pending)
  afterOperand : Bool
  deriving Inhabited

/-- Nothing read yet. -/
def State.initial : State := ⟨[], [], false⟩

/-- Does a waiting operator go to the output before a new one may wait? -/
def calls (new waiting : Operator) : Bool :=
  if new.isRightAssoc then new.precedence < waiting.precedence
  else new.precedence ≤ waiting.precedence

/-- Move the waiting operators that a new operator calls for to the output. -/
def release (new : Operator) :
    List (Located Pending) → List (Located Item) → List (Located Pending) × List (Located Item)
  | ⟨.op o, span⟩ :: pending, output =>
    if calls new o then release new pending (⟨.op o, span⟩ :: output)
    else (⟨.op o, span⟩ :: pending, output)
  | pending, output => (pending, output)

/-- Read a binary operator. -/
def State.binary (s : State) (op : Operator) (span : Span) : State :=
  let (pending, output) := release op s.pending s.output
  ⟨output, ⟨.op op, span⟩ :: pending, false⟩

/-- Read an operator, which is a sign where an operand is due. -/
def State.operator (s : State) (op : Operator) (span : Span) : State :=
  if s.afterOperand then s.binary op span
  else match op with
    | .sub => { s with
        output := ⟨.minusOne, span⟩ :: s.output
        pending := ⟨.op .mul, span⟩ :: s.pending }
    | .add => s
    | _ => s.binary op span

/-- Move everything that waits inside the innermost open parenthesis to the output. Gives nothing
if no parenthesis is open. -/
def closeGroup : List (Located Pending) → List (Located Item) →
    Option (List (Located Pending) × List (Located Item))
  | [], _ => none
  | ⟨.paren, _⟩ :: pending, output => some (pending, output)
  | ⟨.func f, span⟩ :: pending, output => closeGroup pending (⟨.func f, span⟩ :: output)
  | ⟨.op o, span⟩ :: pending, output => closeGroup pending (⟨.op o, span⟩ :: output)

/-- Read a closing parenthesis. A function right before the group takes the group alone. -/
def State.close (s : State) (span : Span) : Except Fault State :=
  match closeGroup s.pending s.output with
  | none => .error (.at .mismatchedParentheses span)
  | some (⟨.func f, fspan⟩ :: pending, output) => .ok ⟨⟨.func f, fspan⟩ :: output, pending, true⟩
  | some (pending, output) => .ok ⟨output, pending, true⟩

/-- Read one lexeme, after the multiplication that its neighbourhood may imply. -/
def State.read (s : State) (l : Located Lexeme) : Except Fault State :=
  let s := if s.afterOperand && l.value.startsOperand then s.binary .mul l.span else s
  match l.value with
  | .number digits => .ok ⟨⟨.number digits, l.span⟩ :: s.output, s.pending, true⟩
  | .name text => .ok ⟨⟨.name text, l.span⟩ :: s.output, s.pending, true⟩
  | .func f => .ok ⟨s.output, ⟨.func f, l.span⟩ :: s.pending, false⟩
  | .leftParen => .ok ⟨s.output, ⟨.paren, l.span⟩ :: s.pending, false⟩
  | .rightParen => s.close l.span
  | .op op => .ok (s.operator op l.span)

/-- Move everything that still waits to the output, and give the items in order. -/
def flush : List (Located Pending) → List (Located Item) → Except Fault (List (Located Item))
  | [], output => .ok output.reverse
  | ⟨.paren, span⟩ :: _, _ => .error (.at .mismatchedParentheses span)
  | ⟨.func f, span⟩ :: pending, output => flush pending (⟨.func f, span⟩ :: output)
  | ⟨.op o, span⟩ :: pending, output => flush pending (⟨.op o, span⟩ :: output)

/-- The items of a list of tokens in reverse Polish order. Each token is classified when the scan
reaches it, so the first bad token counts, whatever is wrong with it. -/
def ofTokens (ts : List Token) : Except Fault (List (Located Item)) := do
  let s ← ts.foldlM (fun s t => do s.read (← t.lexeme)) State.initial
  flush s.pending s.output

end ReversePolish

end Parsing

end ComputerAlgebra
