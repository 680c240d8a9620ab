import ComputerAlgebra.Expr.Visit
import ComputerAlgebra.Integer.Checked
import ComputerAlgebra.Printing.Style

/-!
# Writing expressions

One template writes expressions in every style. An operation is told by its context, the operator
of the operation around it, whether it needs parentheses. Three rules concern signs.

* A negative number stands in parentheses if it has a context, except at the front of a sum or of a
  product.
* A product that starts with `-1` starts with a minus sign instead.
* A later addend that is visibly negative (`Expr.opposite?`) is subtracted: it is written as its
  opposite after a minus sign.
-/

namespace ComputerAlgebra

/-- The opposite of an expression that carries its minus sign in front: of a negative number, or of
a product that starts with one. A sign that cannot be taken off within 64 bits stays. -/
def Expr.opposite? : Expr → Option Expr
  | .num value => if value < 0 then value.neg?.map .num else none
  | .prod (.num lead :: factors) =>
    if lead = -1 then some (.prodOf factors)
    else if lead < 0 then lead.neg?.map fun n => .prod (.num n :: factors)
    else none
  | _ => none

namespace Printing

/-- Two operands in their layout. -/
def Layout.fill (l : Layout) (left right : String) : String :=
  l.before ++ left ++ l.between ++ right ++ l.after

namespace Style

/-- The digits of an integer, after a minus sign if it is negative. -/
def digits (value : Int64) : String := toString value.toInt

/-- A text in the parentheses of a style. -/
def paren (s : Style) (text : String) : String := s.openParen ++ text ++ s.closeParen

/-- The text of an operation, in parentheses if its context asks for them. -/
def wrap (s : Style) (context : Option Operator) (op : Operator) (text : String) : String :=
  if context.any fun outer => s.wraps outer op then s.paren text else text

/-- An integer in a context. -/
def number (s : Style) (context : Option Operator) (value : Int64) : String :=
  if value < 0 && context.isSome then s.paren (digits value) else digits value

/-- Write the factors of a product, given their texts as operands of a product. A negative number in
front is not put in parentheses, and a `-1` is written as a sign. -/
def product (s : Style) : List Expr → List String → String
  | .num value :: _ :: _, text :: texts =>
    if value = -1 then "-" ++ s.times.intercalate texts
    else s.times.intercalate ((if value < 0 then digits value else text) :: texts)
  | _, texts => s.times.intercalate texts

mutual

/-- Write an expression that stands in a context. -/
def render (s : Style) (context : Option Operator) : Expr → String
  | .var x => s.name x
  | .num value => s.number context value
  | .sum es => s.wrap context .add (renderSum s es)
  | .prod es => s.wrap context .mul (s.product es (renderFactors s es))
  | .quot a b =>
    s.wrap context .div <|
      s.quotient.fill (render s s.quotient.leftContext a) (render s s.quotient.rightContext b)
  | .pow a b =>
    s.wrap context .pow <|
      s.power.fill (render s s.power.leftContext a) (render s s.power.rightContext b)
  | .app f a => (s.call f).1 ++ render s none a ++ (s.call f).2
  | .eqn a b => render s none a ++ " = " ++ render s none b
termination_by structural e => e

/-- Write the opposite of a visibly negative addend, as an addend. -/
def renderOpposite? (s : Style) : Expr → Option String
  | .num value => if value < 0 then value.neg?.map (s.number (some .add)) else none
  | .prod es => renderOppositeProduct? s es
  | _ => none
termination_by structural e => e

/-- Write the opposite of a product that starts with a negative number, as an addend. -/
def renderOppositeProduct? (s : Style) : List Expr → Option String
  | .num lead :: es =>
    if lead = -1 then some (renderProdOf s es)
    else if lead < 0 then
      lead.neg?.map fun n =>
        s.wrap (some .add) .mul
          (s.product (.num n :: es) (s.number (some .mul) n :: renderFactors s es))
    else none
  | _ => none
termination_by structural es => es

/-- Write the product of any number of factors, as an addend. -/
def renderProdOf (s : Style) : List Expr → String
  | [] => s.number (some .add) 0
  | [e] => render s (some .add) e
  | e :: f :: es =>
    s.wrap (some .add) .mul
      (s.product (e :: f :: es)
        (render s (some .mul) e :: render s (some .mul) f :: renderFactors s es))
termination_by structural es => es

/-- Write the addends of a sum. -/
def renderSum (s : Style) : List Expr → String
  | [] => ""
  | .num value :: es => digits value ++ renderAddends s es
  | e :: es => render s (some .add) e ++ renderAddends s es
termination_by structural es => es

/-- Write the addends after the first one, each with its sign. -/
def renderAddends (s : Style) : List Expr → String
  | [] => ""
  | e :: es =>
    (match renderOpposite? s e with
      | some text => " - " ++ text
      | none => " + " ++ render s (some .add) e) ++ renderAddends s es
termination_by structural es => es

/-- Write each factor of a product as an operand of it. -/
def renderFactors (s : Style) : List Expr → List String
  | [] => []
  | e :: es => render s (some .mul) e :: renderFactors s es
termination_by structural es => es

end

/-- Factors are written as operands of a product. -/
theorem renderFactors_eq_map (s : Style) (es : List Expr) :
    s.renderFactors es = es.map (s.render (some .mul)) := by
  induction es with
  | nil => rfl
  | cons e es ih => simp [renderFactors, ih]

theorem renderProdOf_eq (s : Style) (es : List Expr) :
    s.renderProdOf es = s.render (some .add) (.prodOf es) := by
  match es with
  | [] | [_] | _ :: _ :: _ => rfl

/-- What is written after a minus sign is the opposite of the addend, as an addend. -/
theorem renderOpposite?_eq_map (s : Style) (e : Expr) :
    s.renderOpposite? e = e.opposite?.map (s.render (some .add)) := by
  match e with
  | .num value =>
    simp only [renderOpposite?, Expr.opposite?]
    split <;> simp [Function.comp_def, render]
  | .prod (.num lead :: es) =>
    simp only [renderOpposite?, renderOppositeProduct?, Expr.opposite?, renderProdOf_eq]
    split
    · simp
    · split <;> simp [Function.comp_def, render, renderFactors]
  | .prod [] | .prod (.var _ :: _) | .prod (.sum _ :: _) | .prod (.prod _ :: _)
  | .prod (.quot _ _ :: _) | .prod (.pow _ _ :: _) | .prod (.app _ _ :: _)
  | .prod (.eqn _ _ :: _) | .var _ | .sum _ | .quot _ _ | .pow _ _ | .app _ _ | .eqn _ _ => rfl

end Style

end Printing

namespace Expr

/-- The text of an expression in plain style, which can be read again. -/
def toPlainText (e : Expr) : String := Printing.Style.plain.render none e

/-- The text of an expression in LaTeX. -/
def toLatex (e : Expr) : String := Printing.Style.latex.render none e

end Expr

end ComputerAlgebra
