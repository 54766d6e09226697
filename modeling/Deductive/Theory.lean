import Deductive.Signature

/-!
Theories: a signature and assertions in the order of their declaration.
-/
namespace Deductive

/-- Axioms are assumed; theorems are claimed, and proved from the assertions before them. -/
inductive AssertionKind where
  | assumed
  | claimed
  deriving DecidableEq, Repr, Inhabited

namespace AssertionKind

def keyword : AssertionKind → String
  | assumed => "axiom"
  | claimed => "theorem"

def title : AssertionKind → String
  | assumed => "Axiom"
  | claimed => "Theorem"

def ofKeyword? (word : String) : Option AssertionKind :=
  [assumed, claimed].find? fun k => k.keyword = word

end AssertionKind

/-- A premise; without a name it is referred to by its place. -/
structure Hypothesis where
  name : Option Name
  formula : Expr
  deriving DecidableEq, Repr, Inhabited

structure Assertion where
  kind : AssertionKind
  label : Name
  binders : List Binder
  hypotheses : List Hypothesis
  conclusion : Expr
  deriving DecidableEq, Repr, Inhabited

/-- The names under which proofs refer to hypotheses of which the first is the `n`-th. -/
def hypothesisLabels (n : Nat) : List Hypothesis → List Name
  | [] => []
  | h :: hs => h.name.getD (.text s!"h{n}") :: hypothesisLabels (n + 1) hs

namespace Assertion

def isAxiom (a : Assertion) : Bool := a.kind = .assumed

def isTheorem (a : Assertion) : Bool := a.kind = .claimed

def hypothesisLabels (a : Assertion) : List Name := Deductive.hypothesisLabels 1 a.hypotheses

def getBinder? (a : Assertion) (name : Name) : Option Binder :=
  a.binders.find? fun b => b.name = name

/-- Equal, where truth values and numbers in their place are compared as numbers. -/
def same (a b : Assertion) : Bool :=
  a.kind = b.kind && a.label = b.label && a.binders.isEqv b.binders Binder.same &&
    a.hypotheses = b.hypotheses && a.conclusion = b.conclusion

end Assertion

structure Theory where
  name : Name
  signature : Signature
  assertions : List Assertion
  deriving DecidableEq, Repr, Inhabited

namespace Theory

def getAssertion? (t : Theory) (label : Name) : Option Assertion :=
  t.assertions.find? fun a => a.label = label

def indexOf? (t : Theory) (label : Name) : Option Nat :=
  t.assertions.findIdx? fun a => a.label = label

def axioms (t : Theory) : List Assertion := t.assertions.filter Assertion.isAxiom

def theorems (t : Theory) : List Assertion := t.assertions.filter Assertion.isTheorem

/-- Equal, but for the order in which the signature was declared. -/
def sameContent (a b : Theory) : Bool :=
  a.name = b.name && a.signature.sameContent b.signature &&
    a.assertions.isEqv b.assertions Assertion.same

end Theory
end Deductive
