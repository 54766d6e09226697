import Deductive.Expr
import Deductive.SortDecl
import Deductive.StringSet
import Deductive.Truth

/-!
Signatures: the sorts, the term constructors and what is needed to write formulas with them.
-/
namespace Deductive

/-- A variable of a term or an assertion. A regular variable may depend on bound ones. -/
structure Binder where
  name : Name
  sort : SortName
  bound : Truth
  deps : List Name
  deriving DecidableEq, Repr, Inhabited

/-- Equal, where truth values and numbers in their place are compared as numbers. -/
def Binder.same (a b : Binder) : Bool :=
  a.name = b.name && a.sort = b.sort && a.bound.same b.bound && a.deps = b.deps

/-- A term constructor. Only a definition may have a body, which proofs never unfold. -/
structure TermDecl where
  name : Name
  binders : List Binder
  resultSort : SortName
  resultDeps : List Name
  isDef : Truth
  body : Option Expr
  deriving DecidableEq, Repr, Inhabited

namespace TermDecl

def arity (t : TermDecl) : Nat := t.binders.length

def argSorts (t : TermDecl) : List SortName := t.binders.map Binder.sort

def isConstant (t : TermDecl) : Bool := t.arity == 0

/-- Equal, where truth values and numbers in their place are compared as numbers. -/
def same (a b : TermDecl) : Bool :=
  a.name = b.name && a.binders.isEqv b.binders Binder.same && a.resultSort = b.resultSort &&
    a.resultDeps = b.resultDeps && a.isDef.same b.isDef && a.body = b.body

end TermDecl

/-- The precedence of atoms, and of the arguments of a bare application. -/
def maxPrec : Int := 65536

inductive Fixity where
  | prefixed
  | leftAssoc
  | rightAssoc
  deriving DecidableEq, Repr, Inhabited

namespace Fixity

def isInfix : Fixity → Bool
  | prefixed => false
  | leftAssoc => true
  | rightAssoc => true

def keyword : Fixity → String
  | prefixed => "prefix"
  | leftAssoc => "infixl"
  | rightAssoc => "infixr"

def ofKeyword? (word : String) : Option Fixity :=
  [prefixed, leftAssoc, rightAssoc].find? fun f => f.keyword = word

/-- The arguments that a term needs to be written in this way. -/
def arity (f : Fixity) : Nat := if f.isInfix then 2 else 1

end Fixity

/-- The token that stands for a term constructor, and how it binds. -/
structure Notation where
  term : Name
  token : Name
  fixity : Fixity
  prec : Int
  deriving DecidableEq, Repr, Inhabited

namespace Notation

def precKeyword (n : Notation) : String :=
  if n.prec = maxPrec then "max" else toString n.prec

/-- The level at which the operand before an infix token is written. -/
def leftLevel (n : Notation) : Int :=
  match n.fixity with
  | .rightAssoc => n.prec + 1
  | _ => n.prec

/-- The level at which the operand after the token is read and written. -/
def rightLevel (n : Notation) : Int :=
  match n.fixity with
  | .leftAssoc => n.prec + 1
  | _ => n.prec

end Notation

/-- Characters that are tokens on their own in math strings. The two sides differ only in the
spaces that are written around them. A member that is no text separates nothing. -/
structure Delimiters where
  left : StringSet
  right : StringSet
  strayLeft : List Name := []
  strayRight : List Name := []
  deriving DecidableEq, Repr, Inhabited

namespace Delimiters

def empty : Delimiters := { left := .empty, right := .empty }

def chars (d : Delimiters) : StringSet := d.left.union d.right

def both (d : Delimiters) : StringSet := d.left.inter d.right

/-- The members of a side in order. -/
def members (texts : StringSet) (strays : List Name) : List Name :=
  let names := texts.toList.map Name.text
  if strays.isEmpty then names else Name.sorted (names ++ strays)

def leftMembers (d : Delimiters) : List Name := members d.left d.strayLeft

def rightMembers (d : Delimiters) : List Name := members d.right d.strayRight

def separates (d : Delimiters) (c : Char) : Bool :=
  d.left.contains (String.singleton c) || d.right.contains (String.singleton c)

end Delimiters

/-- `notations` is keyed by the token, since a token settles how a formula is read. -/
structure Signature where
  sorts : Registry Name SortDecl
  terms : Registry Name TermDecl
  notations : Registry Name Notation
  delimiters : Delimiters
  deriving DecidableEq, Repr, Inhabited

namespace Signature

def empty : Signature := ⟨.empty, .empty, .empty, .empty⟩

/-- The signature of some declarations. Of those with one name the last counts, in the place of
the first. -/
def ofDecls (sorts : List SortDecl) (terms : List TermDecl) (notations : List Notation)
    (delimiters : Delimiters) : Signature :=
  { sorts := .ofList (sorts.map fun s => (s.name, s))
    terms := .ofList (terms.map fun t => (t.name, t))
    notations := .ofList (notations.map fun n => (n.token, n))
    delimiters := delimiters }

/-- The notation in which a term is written: the first one declared for it. -/
def writtenAs? (sig : Signature) (term : Name) : Option Notation :=
  sig.notations.values.find? fun n => n.term = term

/-- Equal, but for the order of declaration. -/
def sameContent (a b : Signature) : Bool :=
  a.sorts.sameValues (· == ·) b.sorts && a.terms.sameValues TermDecl.same b.terms &&
    a.notations.sameValues (· == ·) b.notations && a.delimiters = b.delimiters

end Signature
end Deductive
