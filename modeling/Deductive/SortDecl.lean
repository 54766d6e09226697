import Deductive.Name
import Deductive.Text.Upper

/-!
Sorts: the syntactic categories of expressions, with the rules on their use.
-/
namespace Deductive

/-- A sort is referred to by its name. -/
abbrev SortName := Name

/-- Rules on the use of a sort. No term constructor returns a `closed` sort, no bound variable
ranges over a `strict` one, statements live in the `provable` ones, and variables of a `free` one
depend on no bound variable. -/
structure SortModifiers where
  closed : Bool
  strict : Bool
  provable : Bool
  free : Bool
  deriving DecidableEq, Repr, Inhabited

namespace SortModifiers

def empty : SortModifiers := ⟨false, false, false, false⟩

def union (m n : SortModifiers) : SortModifiers :=
  ⟨m.closed || n.closed, m.strict || n.strict, m.provable || n.provable, m.free || n.free⟩

/-- Every modifier with its keyword, in the order in which they are written. -/
def table : List (String × SortModifiers) :=
  [("pure", ⟨true, false, false, false⟩),
    ("strict", ⟨false, true, false, false⟩),
    ("provable", ⟨false, false, true, false⟩),
    ("free", ⟨false, false, false, true⟩)]

def ofKeyword? (word : String) : Option SortModifiers := table.lookup word

/-- The modifier that a word names in letters of any case; the word `none` adds no modifier. -/
def ofWord? (word : String) : Option SortModifiers :=
  (("none", empty) :: table).findSome? fun (keyword, m) =>
    if Text.upper word = Text.upper keyword then some m else none

def keywords (m : SortModifiers) : List String :=
  (if m.closed then ["pure"] else []) ++ (if m.strict then ["strict"] else []) ++
    (if m.provable then ["provable"] else []) ++ (if m.free then ["free"] else [])

end SortModifiers

structure SortDecl where
  name : SortName
  modifiers : SortModifiers
  deriving DecidableEq, Repr, Inhabited

end Deductive
