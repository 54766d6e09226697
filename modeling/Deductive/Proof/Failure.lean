import Deductive.Formula.Writer
import Deductive.Text.Quoted
import Deductive.Theory

/-!
Why a proof does not check.
-/
namespace Deductive

/-- What the conclusion or a hypothesis of an assertion is matched as. -/
abbrev MatchPart := String

inductive ProofFailure where
  | nestingLimit (limit : Int)
  | tooDeep
  | notAProof
  -- names
  | hypothesisMismatch (name : Name) (proved expected : Expr)
  | hypothesisApplied (name : Name)
  | declaredLater (label claim : Name)
  | unknownLabel (label : Name)
  -- applications
  | itemCount (assertion : Name) (hypotheses binders found : Nat)
  | proofAsArgument (assertion : Name)
  | mismatch (assertion : Name) (part : MatchPart) (pattern target : Expr) (s : Substitution)
  | unresolved (assertion binder : Name)
  | foreignVariables (assertion : Name) (number : Nat) (hypothesis : Expr)
  | conclusionMismatch (assertion : Name) (proved expected : Expr)
  -- sorts
  | unboundVariable (name claim : Name)
  | undeclaredTerm (name : Name)
  | termArity (term : Name) (expected found : Nat)
  | argumentSort (arg : Expr) (term sort : Name)
  | argumentNotBound (arg : Expr) (term : Name)
  -- substitutions
  | noImage (binder : Name)
  | imageSort (assertion binder sort : Name) (image : Expr) (found : Name)
  | imageNotBound (assertion binder : Name) (image : Expr)
  | imageShared (assertion image : Name)
  | notDisjoint (assertion name binder : Name)
  deriving DecidableEq, Repr

namespace ProofFailure

/-- An argument that could not be found may be found later, all other failures stay. -/
def isUnresolved : ProofFailure → Bool
  | unresolved _ _ => true
  | _ => false

/-- The expressions that the message of a failure shows. -/
def shown : ProofFailure → List Expr
  | hypothesisMismatch _ proved expected => [proved, expected]
  | mismatch _ _ pattern target s => pattern :: target :: s.values
  | foreignVariables _ _ hypothesis => [hypothesis]
  | conclusionMismatch _ proved expected => [proved, expected]
  | argumentSort arg _ _ => [arg]
  | argumentNotBound arg _ => [arg]
  | imageSort _ _ _ image _ => [image]
  | imageNotBound _ _ image => [image]
  | _ => []

/-- The entries of a substitution with their formulas, as a message lists them. -/
def listSubstitution (sig : Signature) (s : Substitution) : String :=
  "\x7b" ++ ", ".intercalate (s.entries.map fun (name, e) =>
    name.quoted ++ ": " ++ Text.quoted (e.format sig)) ++ "\x7d"

/-- What is said of a failure, with the formulas in the notations of the signature. -/
def phrase (sig : Signature) : ProofFailure → Phrase
  | nestingLimit limit => s!"Proof nesting exceeds the limit of {limit}"
  | tooDeep => "Proof is too deeply nested"
  | notAProof => "Expected a proof, got an expression argument"
  | hypothesisMismatch name proved expected =>
    "Hypothesis '" ++ name ++ "' proves `" ++ proved.phrase sig ++ "`, expected `" ++
      expected.phrase sig ++ "`"
  | hypothesisApplied name => "Hypothesis '" ++ name ++ "' takes no arguments"
  | declaredLater label claim => "'" ++ label ++ "' is not declared before '" ++ claim ++ "'"
  | unknownLabel label => "Unknown assertion or hypothesis '" ++ label ++ "'"
  | itemCount assertion hypotheses binders found =>
    "'" ++ assertion ++ s!"' takes {hypotheses} sub-proofs " ++
      s!"(or {binders} arguments and {hypotheses} sub-proofs), got {found} items"
  | proofAsArgument assertion =>
    "Expected an expression argument to '" ++ assertion ++ "', got a proof"
  | mismatch assertion part pattern target s =>
    "'" ++ assertion ++ s!"' {part} `" ++ pattern.phrase sig ++ "` does not match `" ++
      target.phrase sig ++ s!"` (with {listSubstitution sig s})"
  | unresolved assertion binder =>
    "Cannot infer argument '" ++ binder ++ "' of '" ++ assertion ++ "'; supply it explicitly"
  | foreignVariables assertion number hypothesis =>
    "'" ++ assertion ++ s!"' hypothesis {number} `" ++ hypothesis.phrase sig ++
      "` cannot be checked: it has variables that are not binders"
  | conclusionMismatch assertion proved expected =>
    "'" ++ assertion ++ "' proves `" ++ proved.phrase sig ++ "`, expected `" ++
      expected.phrase sig ++ "`"
  | unboundVariable name claim => "Variable '" ++ name ++ "' is not a binder of '" ++ claim ++ "'"
  | undeclaredTerm name => "Term '" ++ name ++ "' is not declared"
  | termArity term expected found =>
    "Term '" ++ term ++ s!"' expects {expected} arguments, got {found}"
  | argumentSort arg term sort =>
    "Argument `" ++ arg.phrase sig ++ "` to '" ++ term ++ "' is not of sort '" ++ sort ++ "'"
  | argumentNotBound arg term =>
    "Argument `" ++ arg.phrase sig ++ "` to '" ++ term ++ "' must be a bound variable"
  | noImage binder => binder
  | imageSort assertion binder sort image found =>
    "'" ++ assertion ++ "': '" ++ binder ++ "' has sort '" ++ sort ++ "', but `" ++
      image.phrase sig ++ "` has sort '" ++ found ++ "'"
  | imageNotBound assertion binder image =>
    "'" ++ assertion ++ "': bound variable '" ++ binder ++
      "' must be replaced by a bound variable, got `" ++ image.phrase sig ++ "`"
  | imageShared assertion image =>
    "'" ++ assertion ++ "': bound variables must be replaced by distinct variables, '" ++ image ++
      "' is used twice"
  | notDisjoint assertion name binder =>
    "'" ++ assertion ++ "': disjoint variable violation, '" ++ name ++
      "' may not occur in the substitution for '" ++ binder ++ "'"

def message (sig : Signature) (failure : ProofFailure) : String := (failure.phrase sig).text

end ProofFailure
end Deductive
