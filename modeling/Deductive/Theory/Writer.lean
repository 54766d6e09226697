import Deductive.Formula.Writer
import Deductive.Theory

/-!
Writing theories as declaration files: delimiters, sorts, terms, each with its notations, and
assertions.
-/
namespace Deductive

def joinWords (words : List String) : String := " ".intercalate words

def joinNames (names : List Name) : String := joinWords (names.map toString)

def mathString (text : String) : String := s!"$ {text} $"

namespace Binder

/-- Equal but for the name. -/
def sameType (a b : Binder) : Bool := a.bound.same b.bound && a.sort = b.sort && a.deps = b.deps

/-- The binders in groups of neighbours that differ in their names only, with the names of each
group beside its first binder. -/
def groups : List Binder → List (List Name × Binder)
  | [] => []
  | b :: bs =>
    match groups bs with
    | (names, first) :: rest =>
      if b.sameType first then (b.name :: names, b) :: rest
      else ([b.name], b) :: (names, first) :: rest
    | [] => [([b.name], b)]

def writeGroup (names : List Name) (b : Binder) : String :=
  let inner := joinNames names ++ ": " ++ joinNames (b.sort :: b.deps)
  if b.bound.holds then "\x7b" ++ inner ++ "\x7d" else "(" ++ inner ++ ")"

def writeAll (binders : List Binder) : List String :=
  (groups binders).map fun (names, b) => writeGroup names b

end Binder

namespace Signature

variable (sig : Signature)

def writeMath (e : Expr) : String := mathString (e.format sig)

def writeDelimiters : List String :=
  let left := sig.delimiters.leftMembers
  let right := sig.delimiters.rightMembers
  if left.isEmpty && right.isEmpty then []
  else if left = right then ["delimiter " ++ mathString (joinNames left) ++ ";"]
  else ["delimiter " ++ mathString (joinNames left) ++ " " ++ mathString (joinNames right) ++ ";"]

def writeSort (decl : SortDecl) : String :=
  joinWords (decl.modifiers.keywords ++ ["sort", toString decl.name]) ++ ";"

def writeNotation (n : Notation) : String :=
  let token := toString n.token
  s!"{n.fixity.keyword} {n.term}: {mathString token} prec {n.precKeyword};"

def writeTerm (t : TermDecl) : String :=
  let keyword := if t.isDef.holds then "def" else "term"
  let body := match t.body with
    | some e => " = " ++ sig.writeMath e
    | none => ""
  joinWords (keyword :: toString t.name :: Binder.writeAll t.binders) ++ ": " ++
    joinNames (t.resultSort :: t.resultDeps) ++ body ++ ";"

/-- Every term is followed by its notations, so that later formulas can use them. -/
def writeTerms : List String :=
  sig.terms.values.flatMap fun t =>
    sig.writeTerm t :: (sig.notations.values.filter fun n => n.term = t.name).map writeNotation

/-- The hypotheses up to the last one with a name, and those after it. -/
def splitNamed : List Hypothesis → List Hypothesis × List Hypothesis
  | [] => ([], [])
  | h :: hs =>
    let (named, rest) := splitNamed hs
    if named.isEmpty && h.name.isNone then ([], h :: rest) else (h :: named, rest)

/-- Hypotheses up to the last one with a name are written as binders under their labels, those
after it before an arrow. -/
def writeAssertion (a : Assertion) : String :=
  let (named, arrows) := splitNamed a.hypotheses
  let binders := (a.hypothesisLabels.zip named).map fun (label, h) =>
    s!"({label}: {sig.writeMath h.formula})"
  joinWords (a.kind.keyword :: toString a.label :: Binder.writeAll a.binders ++ binders) ++ ": " ++
    " > ".intercalate ((arrows.map Hypothesis.formula ++ [a.conclusion]).map sig.writeMath) ++ ";"

end Signature

/-- Lines with a blank line before them; no lines leave no trace. -/
def writeBlock (lines : List String) : String :=
  if lines.isEmpty then "" else String.join ("\n" :: lines.map (· ++ "\n"))

/-- The text of a theory, which starts with its name as a comment. -/
def Theory.write (t : Theory) : String :=
  let sig := t.signature
  "-- " ++ toString t.name ++ "\n" ++ writeBlock sig.writeDelimiters ++
    writeBlock (sig.sorts.values.map Signature.writeSort) ++ writeBlock sig.writeTerms ++
    writeBlock (t.assertions.map sig.writeAssertion)

end Deductive
