/-!
# Elementary functions

The nine functions of one argument that expressions may apply, with their canonical names and the
further spellings that a formula may use. No two functions share a spelling
(`Func.eq_of_mem_spellings`), so `Func.ofName?` is the inverse of `Func.spellings`
(`Func.ofName?_eq_some_iff`).
-/

namespace ComputerAlgebra

/-- The elementary functions, in the order in which expressions are sorted. -/
inductive Func where
  | sin | cos | tan | asin | acos | atan | ln | abs | sqrt
  deriving DecidableEq, Repr, Inhabited

namespace Func

/-- Every function, in sorting order. -/
def all : List Func := [sin, cos, tan, asin, acos, atan, ln, abs, sqrt]

/-- The list of the functions is complete. -/
theorem mem_all (f : Func) : f ∈ all := by cases f <;> decide

/-- The place of a function in the sorting order. -/
def rank : Func → Nat
  | sin => 0
  | cos => 1
  | tan => 2
  | asin => 3
  | acos => 4
  | atan => 5
  | ln => 6
  | abs => 7
  | sqrt => 8

/-- The order of the functions tells any two of them apart. -/
theorem rank_injective {f g : Func} (h : f.rank = g.rank) : f = g := by
  cases f <;> cases g <;> first | rfl | cases h

/-- The canonical name, which is also how the function is printed. -/
def name : Func → String
  | sin => "sin"
  | cos => "cos"
  | tan => "tan"
  | asin => "asin"
  | acos => "acos"
  | atan => "atan"
  | ln => "ln"
  | abs => "abs"
  | sqrt => "sqrt"

/-- Further names under which a formula may call the function. -/
def aliases : Func → List String
  | asin => ["arcsin"]
  | acos => ["arccos"]
  | atan => ["arctan"]
  | _ => []

/-- All names under which a formula may call the function, the canonical one first. -/
def spellings (f : Func) : List String := f.name :: f.aliases

/-- The function that a name calls, if it calls one. -/
def ofName? (name : String) : Option Func := all.find? fun f => name ∈ f.spellings

/-- A name that is read as a function is one of its spellings. -/
theorem mem_spellings_of_ofName? {s : String} {f : Func} (h : ofName? s = some f) :
    s ∈ f.spellings := by
  simpa using List.find?_some h

/-- A spelling belongs to one function only. -/
theorem eq_of_mem_spellings {s : String} {f g : Func} (hf : s ∈ f.spellings)
    (hg : s ∈ g.spellings) : f = g := by
  cases f <;> cases g <;> simp_all [spellings, name, aliases] <;> rcases hf with rfl | rfl <;>
    simp_all

/-- A name calls exactly the function that lists it among its spellings. -/
theorem ofName?_eq_some_iff {s : String} {f : Func} : ofName? s = some f ↔ s ∈ f.spellings := by
  refine ⟨mem_spellings_of_ofName?, fun h => ?_⟩
  cases hs : ofName? s with
  | some g => rw [eq_of_mem_spellings h (mem_spellings_of_ofName? hs)]
  | none => exact absurd h (by simpa using List.find?_eq_none.1 hs f (mem_all f))

end Func

end ComputerAlgebra
