import Deductive.Phrase
import Deductive.Theory

/-!
What is wrong with a theory, as the checks of well-formedness report it.
-/
namespace Deductive

inductive Severity where
  | error
  | warning
  deriving DecidableEq, Repr, Inhabited

namespace Severity

def keyword : Severity → String
  | error => "error"
  | warning => "warning"

def title : Severity → String
  | error => "ERROR"
  | warning => "WARNING"

def rank : Severity → Nat
  | error => 0
  | warning => 1

end Severity

inductive Complaint where
  -- sorts
  | binderSort (sort binder : Name)
  | resultSort (sort : Name)
  | strictSort (binder sort : Name)
  | freeSort (binder sort : Name)
  | closedSort (sort : Name)
  | unprovable (sort : Name)
  -- variables and terms
  | dependency (name : Name) (owner : Phrase)
  | unboundVariable (name : Name)
  | undeclaredTerm (name : Name)
  | termArity (term : Name) (expected found : Nat)
  | argumentSort (index : Nat) (term expected found : Name)
  | argumentNotBound (index : Nat) (term : Name)
  | unusedBinder (name : Name)
  -- definitions and notations
  | bodyOfTerm (term : Name)
  | laterTerm (used term : Name)
  | bodySort (sort term result : Name)
  | notationTerm (token term : Name)
  | notationArity (fixity : Fixity) (token term : Name) (found : Nat)
  -- names
  | sortKey (key name : Name)
  | termKey (key name : Name)
  | sharedName (name : Name) (count : Nat)
  | sharedLocalName (name : Name) (count : Nat)
  | repeatedLabel (label : Name) (count : Nat)
  -- a remark of another check
  | remark (check : String) (severity : Severity) (message : String)
  deriving DecidableEq, Repr

namespace Complaint

/-- The check that a complaint comes from. -/
def check : Complaint → String
  | binderSort .. | resultSort .. => "sort_declared"
  | strictSort .. => "sort_strict"
  | freeSort .. => "sort_free"
  | closedSort .. => "sort_pure"
  | unprovable .. => "sort_provable"
  | dependency .. => "deps_bound"
  | unboundVariable .. => "var_bound"
  | undeclaredTerm .. => "term_declared"
  | termArity .. => "term_arity"
  | argumentSort .. => "term_arg_sorts"
  | argumentNotBound .. => "bound_arg"
  | unusedBinder .. => "binder_unused"
  | bodyOfTerm .. | laterTerm .. | bodySort .. => "def_body"
  | notationTerm .. | notationArity .. => "notation_term"
  | sortKey .. | termKey .. | sharedName .. | sharedLocalName .. | repeatedLabel .. =>
    "no_name_collisions"
  | remark check _ _ => check

def severity : Complaint → Severity
  | unusedBinder .. => .warning
  | remark _ severity _ => severity
  | _ => .error

def phrase : Complaint → Phrase
  | binderSort sort binder => "Sort '" ++ sort ++ "' of binder '" ++ binder ++ "' is not declared"
  | resultSort sort => "Result sort '" ++ sort ++ "' is not declared"
  | strictSort binder sort => "Bound variable '" ++ binder ++ "' has strict sort '" ++ sort ++ "'"
  | freeSort binder sort =>
    "Variable '" ++ binder ++ "' of free sort '" ++ sort ++ "' cannot have dependencies"
  | closedSort sort => "Term returns pure sort '" ++ sort ++ "'"
  | unprovable sort => "Statement has sort '" ++ sort ++ "', which is not provable"
  | dependency name owner =>
    "Dependency '" ++ name ++ "' of " ++ owner ++ " is not an earlier bound variable"
  | unboundVariable name => "Variable '" ++ name ++ "' is not a binder of this declaration"
  | undeclaredTerm name => "Term '" ++ name ++ "' is not declared"
  | termArity term expected found =>
    "Term '" ++ term ++ s!"' expects {expected} arguments, got {found}"
  | argumentSort index term expected found =>
    s!"Argument {index} to '" ++ term ++ "' expected sort '" ++ expected ++ "', got '" ++ found ++ "'"
  | argumentNotBound index term => s!"Argument {index} to '" ++ term ++ "' must be a bound variable"
  | unusedBinder name =>
    "Binder '" ++ name ++ "' does not occur in any hypothesis or the conclusion"
  | bodyOfTerm term => "Term '" ++ term ++ "' has a body but is not a definition"
  | laterTerm used term =>
    "Body uses '" ++ used ++ "', which is not declared before '" ++ term ++ "'"
  | bodySort sort term result =>
    "Body has sort '" ++ sort ++ "', but '" ++ term ++ "' returns '" ++ result ++ "'"
  | notationTerm token term =>
    "Notation '" ++ token ++ "' refers to undeclared term '" ++ term ++ "'"
  | notationArity fixity token term found =>
    s!"{fixity.keyword} notation '" ++ token ++ s!"' needs a term of arity {fixity.arity}, '" ++
      term ++ s!"' has {found}"
  | sortKey key name => "Sort registered as '" ++ key ++ "' is named '" ++ name ++ "'"
  | termKey key name => "Term registered as '" ++ key ++ "' is named '" ++ name ++ "'"
  | sharedName name count =>
    "Name '" ++ name ++ s!"' is declared {count} times across sorts, terms and assertions"
  | sharedLocalName name count =>
    "Name '" ++ name ++ s!"' is used {count} times among binders and hypotheses"
  | repeatedLabel label count =>
    "Assertion label '" ++ label ++ s!"' is declared {count} times"
  | remark _ _ message => message

end Complaint

/-- A complaint with the place in the declaration that it is about. -/
structure Finding where
  complaint : Complaint
  path : Option String
  deriving DecidableEq, Repr

/-- A finding in a declaration, or in the theory as a whole. -/
structure Diagnostic where
  owner : Option Name
  finding : Finding
  deriving DecidableEq, Repr

namespace Diagnostic

def check (d : Diagnostic) : String := d.finding.complaint.check

def severity (d : Diagnostic) : Severity := d.finding.complaint.severity

def phrase (d : Diagnostic) : Phrase := d.finding.complaint.phrase

def message (d : Diagnostic) : String := d.phrase.text

def path (d : Diagnostic) : Option String := d.finding.path

def isError (d : Diagnostic) : Bool := d.severity = .error

/-- The owner as diagnostics are ordered by it; one that says nothing counts as none. -/
def ownerKey (d : Diagnostic) : Name := (d.owner.filter Name.holds).getD ""

/-- Errors before warnings, then by the name of the check, then by the owner. -/
def atMost (a b : Diagnostic) : Bool :=
  if a.severity.rank ≠ b.severity.rank then a.severity.rank < b.severity.rank
  else if a.check ≠ b.check then a.check < b.check
  else a.ownerKey.atMost b.ownerKey

end Diagnostic
end Deductive
