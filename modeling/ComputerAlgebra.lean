import ComputerAlgebra.Printing.Tree
import ComputerAlgebra.Proofs.Numeric.Offence
import ComputerAlgebra.Proofs.Numeric.Quadrature
import ComputerAlgebra.Proofs.Parsing.Blame
import ComputerAlgebra.Proofs.Parsing.Respacing
import ComputerAlgebra.Proofs.Polynomial.Taylor
import ComputerAlgebra.Proofs.Printing.Equivalence
import ComputerAlgebra.Proofs.Printing.Typesetting
import ComputerAlgebra.Proofs.Rational.Arithmetic
import ComputerAlgebra.Proofs.Session
import ComputerAlgebra.Proofs.Simplification.Canonical
import ComputerAlgebra.Proofs.Simplification.Cap
import ComputerAlgebra.Proofs.Simplification.LikeTerms
import ComputerAlgebra.Proofs.Simplification.Members
import ComputerAlgebra.Proofs.Simplification.Reordering
import ComputerAlgebra.Proofs.Simplification.Traversal
