import Deductive.Name

/-!
What is said with names in it. A code point of a name that is no character is escaped in the text.
Since not every output takes such a name, the names are kept beside the text.
-/
namespace Deductive

/-- A text, and the names that stand in it as they are. -/
structure Phrase where
  text : String
  names : List Name
  deriving DecidableEq, Repr

namespace Phrase

def ofString (s : String) : Phrase := ⟨s, []⟩

def ofName (n : Name) : Phrase := ⟨toString n, [n]⟩

instance : Coe String Phrase := ⟨ofString⟩

instance : Coe Name Phrase := ⟨ofName⟩

protected def append (p q : Phrase) : Phrase := ⟨p.text ++ q.text, p.names ++ q.names⟩

instance : Append Phrase := ⟨Phrase.append⟩

/-- The phrases one after another, with a text between them. -/
def intercalate (separator : String) (phrases : List Phrase) : Phrase :=
  ⟨separator.intercalate (phrases.map text), phrases.flatMap names⟩

/-- An output that takes characters only takes the phrase. -/
def isEncodable (p : Phrase) : Bool := p.names.all Name.isEncodable

@[simp] theorem names_ofString (s : String) : (ofString s).names = [] := rfl

@[simp] theorem names_ofName (n : Name) : (ofName n).names = [n] := rfl

@[simp] theorem names_append (p q : Phrase) : (p ++ q).names = p.names ++ q.names := rfl

@[simp] theorem names_intercalate (separator : String) (phrases : List Phrase) :
    (intercalate separator phrases).names = phrases.flatMap names := rfl

@[simp] theorem isEncodable_ofString (s : String) : (ofString s).isEncodable = true := rfl

end Phrase
end Deductive
