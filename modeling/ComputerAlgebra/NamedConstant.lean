/-!
# Named constants

Two real numbers have names of their own. They stay variables in a tree and get their values only
when the tree is evaluated.
-/

namespace ComputerAlgebra

/-- The named real constants. -/
inductive NamedConstant where
  | pi | e
  deriving DecidableEq, Repr, Inhabited

namespace NamedConstant

/-- Every named constant. -/
def all : List NamedConstant := [pi, e]

/-- The canonical name. -/
def name : NamedConstant → String
  | pi => "pi"
  | e => "e"

/-- Every variable name that stands for the constant, the canonical one first. -/
def spellings : NamedConstant → List String
  | pi => ["pi", "π"]
  | e => ["e"]

/-- The constant that a variable name stands for, if it stands for one. -/
def ofName? (name : String) : Option NamedConstant := all.find? fun c => name ∈ c.spellings

/-- A name stands for exactly the constant that lists it among its spellings. -/
theorem ofName?_eq_some_iff {s : String} {c : NamedConstant} :
    ofName? s = some c ↔ s ∈ c.spellings := by
  constructor
  · intro h
    simpa using List.find?_some h
  · intro h
    cases c <;> simp_all [spellings, ofName?, all]

/-- Does a variable name stand for a constant? -/
def isName (name : String) : Bool := (ofName? name).isSome

end NamedConstant

end ComputerAlgebra
