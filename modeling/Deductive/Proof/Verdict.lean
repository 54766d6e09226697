import Deductive.Formula.Reader
import Deductive.Proof.Check

/-!
Verifying the theorems of a theory with the proofs of a file.
-/
namespace Deductive

inductive Verdict where
  | verified
  | failed (failure : ProofFailure)
  | missing
  deriving DecidableEq, Repr

namespace Verdict

def keyword : Verdict → String
  | verified => "verified"
  | failed _ => "failed"
  | missing => "missing"

def isVerified : Verdict → Bool
  | verified => true
  | failed _ => false
  | missing => false

def isFailed : Verdict → Bool
  | verified => false
  | failed _ => true
  | missing => false

def isMissing : Verdict → Bool
  | verified => false
  | failed _ => false
  | missing => true

def phrase? (sig : Signature) : Verdict → Option Phrase
  | verified => none
  | failed failure => some (failure.phrase sig)
  | missing => none

def message? (sig : Signature) (v : Verdict) : Option String := (v.phrase? sig).map Phrase.text

end Verdict

structure Outcome where
  label : Name
  verdict : Verdict
  deriving DecidableEq, Repr

/-- A proof that belongs to no theorem. -/
inductive StrayProof where
  | unknown (label : Name)
  | ofAxiom (label : Name)
  deriving DecidableEq, Repr

namespace StrayProof

def phrase : StrayProof → Phrase
  | unknown label => "Proof of unknown theorem '" ++ label ++ "'"
  | ofAxiom label => "'" ++ label ++ "' is an axiom and cannot be proved"

def message (s : StrayProof) : String := s.phrase.text

end StrayProof

structure Verification where
  outcomes : List Outcome
  strays : List StrayProof
  deriving DecidableEq, Repr

namespace Verification

/-- How many theorems have a verdict of a kind. -/
def count (v : Verification) (kind : Verdict → Bool) : Nat :=
  v.outcomes.countP fun o => kind o.verdict

def allVerified (v : Verification) : Bool :=
  v.strays.isEmpty && v.outcomes.all fun o => o.verdict.isVerified

end Verification

namespace Theory

/-- The verdict on one proof of a theorem, and what happened on the way. -/
def verifyTheorem (t : Theory) (claim : Assertion) (proof : ProofTerm) (limit : Int) :
    List ProofEvent × Verdict :=
  let ctx := ProofContext.ofTheory t claim limit
  let checked := (ctx.checkClaim proof).cutOff
  match checked.result with
  | .ok _ => (checked.events ++ [.verified claim.label], .verified)
  | .error failure => (checked.events ++ [.failed claim.label failure], .failed failure)

/-- The verdict on a theorem with the proof of its label. -/
def verifyLabel (t : Theory) (proofs : ProofFile) (limit : Int) (claim : Assertion) :
    List ProofEvent × Verdict :=
  match proofs.get? claim.label with
  | some decl => t.verifyTheorem claim decl.proof limit
  | none => ([.missing claim.label], .missing)

/-- The proofs that belong to no theorem, in the order of the file. -/
def strayProofs (t : Theory) (proofs : ProofFile) : List StrayProof :=
  proofs.keys.filterMap fun label =>
    match t.getAssertion? label with
    | none => some (.unknown label)
    | some a => if a.isAxiom then some (.ofAxiom label) else none

/-- The verdicts on all theorems, in the order of their declaration, and all that happened. -/
def verify (t : Theory) (proofs : ProofFile) (limit : Int) : List ProofEvent × Verification :=
  let verdicts := t.theorems.map fun claim => (claim.label, t.verifyLabel proofs limit claim)
  (verdicts.flatMap fun (_, events, _) => events,
    ⟨verdicts.map fun (label, _, verdict) => ⟨label, verdict⟩, t.strayProofs proofs⟩)

end Theory
end Deductive
