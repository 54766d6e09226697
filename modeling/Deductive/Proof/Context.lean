import Deductive.Proof.Failure

/-!
What a proof of a theorem may use: the assertions declared before it, its hypotheses, and
expressions over its binders.
-/
namespace Deductive

structure ProofContext where
  signature : Signature
  claim : Assertion
  limit : Int
  available : Registry Name Assertion
  later : List Name
  binders : Registry Name Binder
  hypotheses : Registry Name Expr

/-- The assertions before the first one with the label. -/
def Theory.before (t : Theory) (label : Name) : List Assertion :=
  match t.indexOf? label with
  | some i => t.assertions.take i
  | none => []

namespace ProofContext

/-- Of equal labels, and of equal names of binders and hypotheses, the last one counts. -/
def ofTheory (t : Theory) (claim : Assertion) (limit : Int) : ProofContext :=
  let available := Registry.ofList ((t.before claim.label).map fun a => (a.label, a))
  { signature := t.signature
    claim := claim
    limit := limit
    available := available
    later := (t.assertions.map Assertion.label).filter fun label => !available.contains label
    binders := .ofList (claim.binders.map fun b => (b.name, b))
    hypotheses := .ofList (claim.hypothesisLabels.zip (claim.hypotheses.map Hypothesis.formula)) }

variable (ctx : ProofContext)

/-- The assertion that a step of a proof applies. -/
def resolve (label : Name) : Except ProofFailure Assertion :=
  match ctx.available.get? label with
  | some a => .ok a
  | none =>
    if ctx.later.contains label then .error (.declaredLater label ctx.claim.label)
    else .error (.unknownLabel label)

/-- A bound variable of the theorem. -/
def isBoundVar : Expr → Bool
  | .var x => (ctx.binders.get? x).any (·.bound.holds)
  | .app _ _ => false

mutual

/-- The sort of an expression over the binders of the theorem. -/
def sortOf : Expr → Except ProofFailure SortName
  | .var x =>
    match ctx.binders.get? x with
    | some b => .ok b.sort
    | none => .error (.unboundVariable x ctx.claim.label)
  | .app f args =>
    match ctx.signature.terms.get? f with
    | none => .error (.undeclaredTerm f)
    | some term =>
      if args.length = term.arity then
        match sortArguments f args term.binders with
        | .ok () => .ok term.resultSort
        | .error failure => .error failure
      else .error (.termArity f term.arity args.length)

/-- Every argument has the sort of its parameter, and is a bound variable for a bound one. -/
def sortArguments (term : Name) : List Expr → List Binder → Except ProofFailure Unit
  | [], _ => .ok ()
  | _ :: _, [] => .ok ()
  | arg :: args, param :: params =>
    match sortOf arg with
    | .error failure => .error failure
    | .ok sort =>
      if sort ≠ param.sort then .error (.argumentSort arg term param.sort)
      else if param.bound.holds && !ctx.isBoundVar arg then .error (.argumentNotBound arg term)
      else sortArguments term args params

end

/-- The image of a binder. -/
def image (s : Substitution) (b : Binder) : Except ProofFailure Expr :=
  match s.get? b.name with
  | some e => .ok e
  | none => .error (.noImage b.name)

/-- The name of the bound variable that a bound binder is replaced by, one that no other bound
binder is replaced by. -/
def boundImage (assertion : Name) (b : Binder) (images : Registry Name Name) (e : Expr) :
    Except ProofFailure Name :=
  match e with
  | .app _ _ => .error (.imageNotBound assertion b.name e)
  | .var x =>
    if !ctx.isBoundVar e then .error (.imageNotBound assertion b.name e)
    else if images.values.contains x then .error (.imageShared assertion x)
    else .ok x

/-- Every image has the sort of its binder. The result adds the images of the bound binders to
`images`. -/
def checkImages (assertion : Name) (s : Substitution) :
    List Binder → Registry Name Name → Except ProofFailure (Registry Name Name)
  | [], images => .ok images
  | b :: bs, images => do
    let e ← image s b
    let sort ← ctx.sortOf e
    if sort ≠ b.sort then .error (.imageSort assertion b.name b.sort e sort)
    else if b.bound.holds then
      let x ← ctx.boundImage assertion b images e
      checkImages assertion s bs (images.insert b.name x)
    else checkImages assertion s bs images

/-- The bound variables that a variable of the theorem brings with it. -/
def carried (x : Name) : List Name :=
  match ctx.binders.get? x with
  | some b => if b.bound.holds then [x] else b.deps
  | none => []

/-- The images of the bound binders that `b` depends on. -/
def allowed (images : Registry Name Name) (b : Binder) : List Name :=
  b.deps.filterMap images.get?

/-- Of the first variable that brings with it what is not allowed, the least of that. The variables
of an expression are a set without an order of its own; here they are taken from left to right. -/
def firstOffence (images : Registry Name Name) (b : Binder) (e : Expr) : Option Name :=
  e.vars.findSome? fun x =>
    Name.least? ((ctx.carried x).filter fun y => !(allowed images b).contains y)

/-- What a regular binder is replaced by holds no bound image that the binder does not depend on,
nor any other bound variable. -/
def checkDisjoint (assertion : Name) (s : Substitution) (images : Registry Name Name) :
    List Binder → Except ProofFailure Unit
  | [] => .ok ()
  | b :: bs => do
    if b.bound.holds then checkDisjoint assertion s images bs
    else
      let e ← image s b
      match ctx.firstOffence images b e with
      | some x => .error (.notDisjoint assertion x b.name)
      | none => checkDisjoint assertion s images bs

/-- Whether the binders of an assertion may be replaced as `s` says. -/
def checkSubstitution (a : Assertion) (s : Substitution) : Except ProofFailure Unit := do
  let images ← ctx.checkImages a.label s a.binders .empty
  ctx.checkDisjoint a.label s images a.binders

end ProofContext
end Deductive
