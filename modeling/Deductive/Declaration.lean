import Deductive.Theory

/-!
Declarations, and theories as they grow by them. A declaration adds to the end of one list of the
theory, or characters to its delimiters; it never changes what stands there.
-/
namespace Deductive

inductive Declaration where
  | sort (decl : SortDecl)
  | term (decl : TermDecl)
  | notated (n : Notation)
  | delimiters (d : Delimiters)
  | assertion (a : Assertion)
  deriving DecidableEq, Repr

/-- What has been declared so far. -/
structure Draft where
  signature : Signature
  assertions : List Assertion
  deriving DecidableEq, Repr, Inhabited

namespace Draft

def empty : Draft := ⟨.empty, []⟩

def insertSort (d : Draft) (decl : SortDecl) : Draft :=
  { d with signature := { d.signature with sorts := d.signature.sorts.insert decl.name decl } }

def insertTerm (d : Draft) (decl : TermDecl) : Draft :=
  { d with signature := { d.signature with terms := d.signature.terms.insert decl.name decl } }

def insertNotation (d : Draft) (n : Notation) : Draft :=
  { d with
    signature := { d.signature with notations := d.signature.notations.insert n.token n } }

def addLeft (d : Draft) (more : StringSet) : Draft :=
  { d with
    signature := { d.signature with
      delimiters :=
        { d.signature.delimiters with left := d.signature.delimiters.left.union more } } }

def addRight (d : Draft) (more : StringSet) : Draft :=
  { d with
    signature := { d.signature with
      delimiters :=
        { d.signature.delimiters with right := d.signature.delimiters.right.union more } } }

def append (d : Draft) (a : Assertion) : Draft := { d with assertions := d.assertions ++ [a] }

def add (d : Draft) : Declaration → Draft
  | .sort decl => d.insertSort decl
  | .term decl => d.insertTerm decl
  | .notated n => d.insertNotation n
  | .delimiters more => (d.addLeft more.left).addRight more.right
  | .assertion a => d.append a

def toTheory (d : Draft) (name : Name) : Theory := ⟨name, d.signature, d.assertions⟩

end Draft

/-- What the log says of a declaration. -/
def Declaration.announcement? : Declaration → Option String
  | .sort decl => some s!"Declared sort {decl.name}"
  | .term decl =>
    let keyword := if decl.isDef.holds then "def" else "term"
    some s!"Declared {keyword} {decl.name}/{decl.arity}"
  | .notated _ => none
  | .delimiters _ => none
  | .assertion a => some s!"Declared {a.kind.keyword} {a.label}"

end Deductive
