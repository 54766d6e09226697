import Deductive.Diagnostic

/-!
The checks of well-formedness. Every check goes on after a finding, so that one pass reports all
of them.
-/
namespace Deductive

/-- Binders by name; of binders with one name the last counts. -/
def Binder.scope (binders : List Binder) : Registry Name Binder :=
  .ofList (binders.map fun b => (b.name, b))

/-- The names of the bound variables among binders. -/
def Binder.boundNames (binders : List Binder) : List Name :=
  (binders.filter fun b => b.bound.holds).map Binder.name

/-- Every dependency has to be one of the bound variables. -/
def checkDeps (deps bound : List Name) (owner : Phrase) (path : String) : List Finding :=
  (deps.filter fun d => !bound.contains d).map fun d => ⟨.dependency d owner, some path⟩

/-- Binders and hypotheses of one declaration share no name. -/
def checkLocalNames (binders : List Binder) (hypotheses : List Name) : List Finding :=
  let names := binders.map Binder.name ++ hypotheses
  (names.eraseDups.filter fun n => 1 < names.count n).map fun n =>
    ⟨.sharedLocalName n (names.count n), none⟩

/-- An argument at place `i` has the sort of its parameter, and is a bound variable for a bound
one. -/
def checkArgument (scope : Registry Name Binder) (term : Name) (i : Nat) (param : Binder) (arg : Expr)
    (found : Option SortName) : List Complaint :=
  (match found with
    | some sort => if sort = param.sort then [] else [.argumentSort i term param.sort sort]
    | none => []) ++
  (if param.bound.holds then
    match arg with
    | .var x => if (scope.get? x).any (·.bound.holds) then [] else [.argumentNotBound i term]
    | .app _ _ => [.argumentNotBound i term]
  else [])

namespace Assertion

/-- The variables of the statements of an assertion. -/
def usedVars (a : Assertion) : List Name :=
  a.hypotheses.flatMap (·.formula.vars) ++ a.conclusion.vars

/-- A binder is used if it occurs in a statement, or if another one depends on it. -/
def checkUnused (a : Assertion) : List Finding :=
  (a.binders.filter fun b =>
    !(a.usedVars.contains b.name || a.binders.any fun other => other.deps.contains b.name)).map
      fun b => ⟨.unusedBinder b.name, none⟩

end Assertion

namespace Signature

variable (sig : Signature)

/-- A sort is used as its modifiers allow. -/
def checkBinderSort (b : Binder) : List Complaint :=
  match sig.sorts.get? b.sort with
  | none => [.binderSort b.sort b.name]
  | some decl =>
    if b.bound.holds then
      if decl.modifiers.strict then [.strictSort b.name b.sort] else []
    else if decl.modifiers.free && !b.deps.isEmpty then [.freeSort b.name b.sort]
    else []

/-- The binders from place `i` on, after the bound variables `seen`. -/
def checkBindersFrom (path : String) (i : Nat) (seen : List Name) : List Binder → List Finding
  | [] => []
  | b :: bs =>
    let here := s!"{path}[{i}]"
    (sig.checkBinderSort b).map (⟨·, some here⟩) ++
      checkDeps b.deps seen ("'" ++ b.name ++ "'") here ++
      checkBindersFrom path (i + 1) (if b.bound.holds then b.name :: seen else seen) bs

def checkBinders (binders : List Binder) (path : String) : List Finding :=
  sig.checkBindersFrom path 0 [] binders

mutual

/-- What is wrong with an expression over the binders in scope, and its sort as far as it has
one. -/
def checkExpr (scope : Registry Name Binder) (path : String) : Expr → List Finding × Option SortName
  | .var x =>
    match scope.get? x with
    | none => ([⟨.unboundVariable x, some path⟩], none)
    | some b => ([], some b.sort)
  | .app f args =>
    match sig.terms.get? f with
    | none => ([⟨.undeclaredTerm f, some path⟩], none)
    | some term =>
      if args.length = term.arity then
        (checkArguments scope path f 0 args term.binders, some term.resultSort)
      else
        ([⟨.termArity f term.arity args.length, some path⟩], some term.resultSort)

/-- The arguments of a term from place `i` on, with their parameters. -/
def checkArguments (scope : Registry Name Binder) (path : String) (term : Name) (i : Nat) :
    List Expr → List Binder → List Finding
  | [], _ => []
  | _ :: _, [] => []
  | arg :: args, param :: params =>
    let here := s!"{path}.args[{i}]"
    let (findings, found) := checkExpr scope here arg
    findings ++ (checkArgument scope term i param arg found).map (⟨·, some here⟩) ++
      checkArguments scope path term (i + 1) args params

end

/-- A body is that of a definition, uses earlier terms only, and has the sort of its result. -/
def checkBody (scope : Registry Name Binder) (term : TermDecl) (earlier : List Name) (body : Expr) :
    List Finding :=
  let later := (Name.sorted body.terms).filter fun used =>
    !earlier.contains used && sig.terms.contains used
  let (findings, found) := sig.checkExpr scope "body" body
  (if term.isDef.holds then [] else [⟨.bodyOfTerm term.name, some "body"⟩]) ++
    later.map (fun used => ⟨.laterTerm used term.name, some "body"⟩) ++ findings ++
    (match found with
      | some sort =>
        if sort = term.resultSort then []
        else [⟨.bodySort sort term.name term.resultSort, some "body"⟩]
      | none => [])

/-- The result sort is declared and not closed, and depends on bound variables of the term. -/
def checkResult (term : TermDecl) : List Finding :=
  (match sig.sorts.get? term.resultSort with
    | none => [⟨.resultSort term.resultSort, some "result"⟩]
    | some decl =>
      if decl.modifiers.closed then [⟨.closedSort term.resultSort, some "result"⟩] else []) ++
    checkDeps term.resultDeps (Binder.boundNames term.binders) "the result" "result"

/-- A term under its key, declared after the terms of the keys `earlier`. -/
def checkTerm (earlier : List Name) (key : Name) (term : TermDecl) : List Finding :=
  (if key = term.name then [] else [⟨.termKey key term.name, none⟩]) ++
    sig.checkBinders term.binders "binders" ++ checkLocalNames term.binders [] ++
    sig.checkResult term ++
    (match term.body with
      | some body => sig.checkBody (Binder.scope term.binders) term earlier body
      | none => [])

def checkTermsFrom (earlier : List Name) : List (Name × TermDecl) → List Diagnostic
  | [] => []
  | (key, term) :: rest =>
    (sig.checkTerm earlier key term).map (⟨some key, ·⟩) ++ checkTermsFrom (key :: earlier) rest

/-- A notation stands for a term with as many arguments as it takes. -/
def checkNotation (token : Name) (n : Notation) : List Finding :=
  let path := "notations[" ++ token.quoted ++ "]"
  match sig.terms.get? n.term with
  | none => [⟨.notationTerm token n.term, some path⟩]
  | some term =>
    if term.arity = n.fixity.arity then []
    else [⟨.notationArity n.fixity token n.term term.arity, some path⟩]

def checkSortKeys : List Finding :=
  (sig.sorts.entries.filter fun (key, decl) => key ≠ decl.name).map fun (key, decl) =>
    ⟨.sortKey key decl.name, none⟩

/-- All that the signature alone shows. -/
def check : List Diagnostic :=
  sig.checkSortKeys.map (⟨none, ·⟩) ++ sig.checkTermsFrom [] sig.terms.entries ++
    (sig.notations.entries.flatMap fun (token, n) => sig.checkNotation token n).map (⟨none, ·⟩)

/-- A statement has a provable sort, as far as it has a sort at all. -/
def checkStatement (scope : Registry Name Binder) (path : String) (e : Expr) : List Finding :=
  let (findings, found) := sig.checkExpr scope path e
  findings ++
    (match found.bind fun sort => (sig.sorts.get? sort).map (sort, ·) with
      | some (sort, decl) =>
        if decl.modifiers.provable then [] else [⟨.unprovable sort, some path⟩]
      | none => [])

def checkHypothesesFrom (scope : Registry Name Binder) (i : Nat) : List Hypothesis → List Finding
  | [] => []
  | h :: hs =>
    sig.checkStatement scope s!"hypotheses[{i}]" h.formula ++ checkHypothesesFrom scope (i + 1) hs

def checkAssertion (a : Assertion) : List Finding :=
  let scope := Binder.scope a.binders
  sig.checkBinders a.binders "binders" ++ checkLocalNames a.binders a.hypothesisLabels ++
    sig.checkHypothesesFrom scope 0 a.hypotheses ++
    sig.checkStatement scope "conclusion" a.conclusion ++ a.checkUnused

end Signature

namespace Theory

/-- Sorts, terms and assertions share no name. -/
def checkNames (t : Theory) : List Finding :=
  let labels := t.assertions.map Assertion.label
  let count (name : Name) : Nat :=
    [t.signature.sorts.keys, t.signature.terms.keys, labels].countP (·.contains name)
  let names := Name.sorted (t.signature.sorts.keys ++ t.signature.terms.keys ++ labels)
  (names.filter fun n => 1 < count n).map fun n => ⟨.sharedName n (count n), none⟩

/-- Assertions have labels of their own. -/
def checkLabels (t : Theory) : List Diagnostic :=
  let labels := t.assertions.map Assertion.label
  (labels.eraseDups.filter fun l => 1 < labels.count l).map fun l =>
    ⟨some l, .repeatedLabel l (labels.count l), none⟩

/-- All findings, in the order of the checks. -/
def findings (t : Theory) : List Diagnostic :=
  t.checkNames.map (⟨none, ·⟩) ++ t.signature.check ++ t.checkLabels ++
    t.assertions.flatMap fun a => (t.signature.checkAssertion a).map (⟨some a.label, ·⟩)

/-- All findings, the gravest first. -/
def diagnostics (t : Theory) : List Diagnostic := t.findings.mergeSort Diagnostic.atMost

def isWellFormed (t : Theory) : Bool := t.findings.all fun d => !d.isError

end Theory
end Deductive
