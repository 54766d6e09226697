import Deductive.Diagnostic.Checks
import Deductive.Formula.Writer
import Deductive.Proof.Verdict
import Deductive.Theory.Writer

/-!
What checking, writing and verifying ask of names. Texts meet every demand; with other values, which
a theory that is read from JSON may hold, the work cannot always be done.
-/
namespace Deductive

namespace Binder

def names (b : Binder) : List Name := b.name :: b.sort :: b.deps

end Binder

namespace TermDecl

/-- The names that checking looks up. -/
def names (t : TermDecl) : List Name :=
  t.binders.flatMap Binder.names ++ t.resultSort :: t.resultDeps ++
    ((t.body.map fun e => e.vars ++ e.terms).getD [])

/-- The names that are written of a term. -/
def written (sig : Signature) (t : TermDecl) : List Name :=
  t.name :: t.resultSort :: t.resultDeps ++ t.binders.flatMap Binder.names ++
    ((t.body.map (Expr.written sig)).getD [])

end TermDecl

namespace Assertion

def formulas (a : Assertion) : List Expr := a.hypotheses.map Hypothesis.formula ++ [a.conclusion]

/-- The names that checking and verifying look up. -/
def names (a : Assertion) : List Name :=
  a.label :: a.binders.flatMap Binder.names ++ a.hypothesisLabels ++
    a.formulas.flatMap fun e => e.vars ++ e.terms

/-- The names that are written of an assertion, but for the labels of its hypotheses. -/
def written (sig : Signature) (a : Assertion) : List Name :=
  a.label :: a.binders.flatMap Binder.names ++ a.formulas.flatMap (Expr.written sig)

end Assertion

def Delimiters.areTexts (d : Delimiters) : Bool := (d.leftMembers ++ d.rightMembers).all Name.isText

/-- The terms that bodies use and that are not declared before them can be put in order. -/
def bodiesAreOrdered (earlier : List Name) : List (Name × TermDecl) → Bool
  | [] => true
  | (key, term) :: rest =>
    Name.areOrdered ((term.body.map Expr.terms).getD [] |>.filter fun n => !earlier.contains n) &&
      bodiesAreOrdered (key :: earlier) rest

/-- Diagnostics of one check have owners that can be put in order. -/
def ownersAreOrdered (ds : List Diagnostic) : Bool :=
  ds.all fun d => Name.areOrdered <|
    (ds.filter fun e => e.severity = d.severity && e.check = d.check).map Diagnostic.ownerKey

/-- The expressions that an event shows. -/
def ProofEvent.shown : ProofEvent → List Expr
  | proves _ _ statement => [statement]
  | failed _ failure => failure.shown
  | _ => []

/-- All that is said of an event is text. -/
def ProofEvent.isWritable (sig : Signature) (e : ProofEvent) : Bool := e.shown.all (·.isWritable sig)

namespace Theory

/-- The names of a theory can be looked up, and those that are reported in order have one. -/
def isCheckable (t : Theory) : Bool :=
  let sig := t.signature
  let labels := t.assertions.map Assertion.label
  sig.terms.values.all (·.names.all Name.isKey) && sig.notations.values.all (·.term.isKey) &&
    t.assertions.all (·.names.all Name.isKey) &&
    Name.areOrdered (sig.sorts.keys ++ sig.terms.keys ++ labels) &&
    bodiesAreOrdered [] sig.terms.entries &&
    (labels.all Name.isText || ownersAreOrdered t.findings)

/-- The names that are joined where a theory is written. -/
def joined (t : Theory) : List Name :=
  let sig := t.signature
  sig.delimiters.leftMembers ++ sig.delimiters.rightMembers ++ sig.sorts.values.map SortDecl.name ++
    sig.terms.values.flatMap (TermDecl.written sig) ++ t.assertions.flatMap (Assertion.written sig)

def isWritable (t : Theory) : Bool := t.joined.all Name.isText

/-- The text of a theory. Its own name, notations and labels of hypotheses need not be texts. -/
def written (t : Theory) : Phrase :=
  let notated (term : TermDecl) := t.signature.notations.values.filter fun n => n.term = term.name
  ⟨t.write, t.name :: t.joined ++
    (t.signature.terms.values.flatMap notated).flatMap (fun n => [n.term, n.token]) ++
    t.assertions.flatMap Assertion.hypothesisLabels⟩

/-- The names that verifying with the proofs of a file looks up can be looked up. -/
def isVerifiable (t : Theory) (proofs : ProofFile) : Bool :=
  t.theorems.all (·.label.isKey) &&
    (t.theorems.all (fun claim => !proofs.contains claim.label) ||
      t.assertions.all (·.names.all Name.isKey))

end Theory
end Deductive
