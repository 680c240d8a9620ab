import ComputerAlgebra.Expr.Visit

/-!
# Trees as text

The structure of an expression in full: a leaf is its label, and any other node is its label and its
operands in parentheses, so nothing depends on how tightly an operation binds.
-/

namespace ComputerAlgebra

namespace Expr

mutual

/-- The tree of an expression, with the label of every node in front of its operands. -/
def toTreeText : Expr → String
  | .var x => label (.var x)
  | .num n => label (.num n)
  | .sum es => "(" ++ label (.sum es) ++ operandTexts es ++ ")"
  | .prod es => "(" ++ label (.prod es) ++ operandTexts es ++ ")"
  | .quot a b => "(" ++ label (.quot a b) ++ " " ++ toTreeText a ++ " " ++ toTreeText b ++ ")"
  | .pow a b => "(" ++ label (.pow a b) ++ " " ++ toTreeText a ++ " " ++ toTreeText b ++ ")"
  | .app f a => "(" ++ label (.app f a) ++ " " ++ toTreeText a ++ ")"
  | .eqn a b => "(" ++ label (.eqn a b) ++ " " ++ toTreeText a ++ " " ++ toTreeText b ++ ")"

/-- The trees of operands, each after a space. -/
def operandTexts : List Expr → String
  | [] => ""
  | e :: es => " " ++ toTreeText e ++ operandTexts es

end

end Expr

end ComputerAlgebra
