/-!
Places in a text, by line and column.
-/
namespace Deductive

/-- The first character of a text is at line 1 and column 1. A line feed ends a line. -/
structure Position where
  line : Int
  column : Int
  deriving DecidableEq, Repr, Inhabited

namespace Position

def start : Position := ⟨1, 1⟩

/-- The place after a character. -/
def next (p : Position) (c : Char) : Position :=
  if c = '\n' then ⟨p.line + 1, 1⟩ else ⟨p.line, p.column + 1⟩

/-- The place after some characters. -/
def advance (p : Position) (cs : List Char) : Position := cs.foldl next p

/-- The place `n` columns to the right. -/
def right (p : Position) (n : Nat) : Position := ⟨p.line, p.column + n⟩

/-- A message with the place that it is about. -/
def located (p : Position) (message : String) : String := s!"{p.line}:{p.column}: {message}"

theorem advance_append (p : Position) (cs ds : List Char) :
    p.advance (cs ++ ds) = (p.advance cs).advance ds :=
  List.foldl_append

end Position
end Deductive
