import Deductive.Expr.Matching
import Deductive.Proof
import Deductive.Proof.Context
import Deductive.Proof.Trace

/-!
Checking proofs. A step applies an assertion to expressions for its binders. Arguments that are
left out are found by matching the conclusion against the goal, and the hypotheses against what
their proofs prove when they are checked without a goal. A proof whose statement cannot be settled
yet waits until its hypothesis is known.
-/
namespace Deductive

/-- The proof of a hypothesis that is still to be checked. -/
structure PendingProof where
  number : Nat
  hypothesis : Expr
  proof : ProofTerm
  tried : Bool
  deriving Repr, Inhabited

namespace PendingProof

/-- The proofs of hypotheses of which the first is the `n`-th. -/
def ofItems (n : Nat) : List Hypothesis → List ProofTerm → List PendingProof
  | h :: hs, p :: ps => ⟨n, h.formula, p, false⟩ :: ofItems (n + 1) hs ps
  | _, _ => []

end PendingProof

/-- How a proof is checked, with a goal or without one. -/
abbrev ProofCheck := ProofTerm → Option Expr → Traced Expr

namespace ProofContext

variable (ctx : ProofContext)

/-- The expression that an item stands for as an argument; a hole stands for none. -/
def argument (assertion : Name) : ProofTerm → Except ProofFailure (Option Expr)
  | .expr e => .ok (some e)
  | .hole => .ok none
  | .ref name _ =>
    .ok (some (if (ctx.signature.terms.get? name).any TermDecl.isConstant then .app name []
      else .var name))
  | .app _ _ _ => .error (.proofAsArgument assertion)

/-- The arguments that are given, as a substitution for the binders. -/
def arguments (assertion : Name) :
    List Binder → List ProofTerm → Substitution → Except ProofFailure Substitution
  | b :: bs, item :: items, s => do
    match ← ctx.argument assertion item with
    | some e => arguments assertion bs items (s.insert b.name e)
    | none => arguments assertion bs items s
  | _, _, s => .ok s

/-- The items of an application as arguments and proofs of hypotheses. The arguments may be left
out together. -/
def splitItems (a : Assertion) (items : List ProofTerm) :
    Except ProofFailure (List ProofTerm × List ProofTerm) :=
  if items.length = a.binders.length + a.hypotheses.length then
    .ok (items.splitAt a.binders.length)
  else if items.length = a.hypotheses.length then .ok ([], items)
  else .error (.itemCount a.label a.hypotheses.length a.binders.length items.length)

/-- The substitution that makes the pattern equal to the target. -/
def unify (assertion : Name) (part : MatchPart) (pattern target : Expr) (s : Substitution) :
    Except ProofFailure Substitution :=
  match Expr.matchWith s pattern target with
  | some s' => .ok s'
  | none => .error (.mismatch assertion part pattern target s)

/-- The conclusion is matched if there is a goal. -/
def unifyGoal (a : Assertion) (goal : Option Expr) (s : Substitution) :
    Except ProofFailure Substitution :=
  match goal with
  | some g => unify a.label "conclusion" a.conclusion g s
  | none => .ok s

/-- One round over the pending proofs: what is still pending after it, and what is known then. A
proof is tried without a goal once; if arguments are missing in it, it waits for its goal. -/
def round (check : ProofCheck) (assertion : Name) :
    List PendingProof → Substitution → Traced (List PendingProof × Substitution)
  | [], s => pure ([], s)
  | p :: ps, s => do
    Traced.examine p.hypothesis
    if p.hypothesis.isGround s then
      let _ ← check p.proof (some (p.hypothesis.subst s))
      round check assertion ps s
    else if p.tried then
      let (rest, s') ← round check assertion ps s
      pure (p :: rest, s')
    else
      let attempt := check p.proof none
      match attempt.result with
      | .ok proved => Traced.after attempt.events do
        let s' ← Traced.ofExcept
          (unify assertion s!"hypothesis {p.number}" p.hypothesis proved s)
        round check assertion ps s'
      | .error failure =>
        if failure.isUnresolved then Traced.after attempt.events do
          let (rest, s') ← round check assertion ps s
          pure ({ p with tried := true } :: rest, s')
        else ⟨attempt.events, .error failure⟩

/-- Rounds as long as one settles a proof, at most `n` of them. -/
def rounds (check : ProofCheck) (assertion : Name) :
    Nat → List PendingProof → Substitution → Traced (List PendingProof × Substitution)
  | 0, pending, s => pure (pending, s)
  | n + 1, pending, s => do
    let (rest, s') ← round check assertion pending s
    if rest.length < pending.length then rounds check assertion n rest s'
    else pure (rest, s')

/-- Every binder has an image, and every proof is checked. -/
def settled (a : Assertion) (pending : List PendingProof) (s : Substitution) :
    Except ProofFailure Unit :=
  match a.binders.find? fun b => !s.contains b.name with
  | some b => .error (.unresolved a.label b.name)
  | none =>
    match pending with
    | p :: _ => .error (.foreignVariables a.label p.number p.hypothesis)
    | [] => .ok ()

/-- What an assertion proves under a substitution, which is the goal if there is one. -/
def conclude (a : Assertion) (s : Substitution) (goal : Option Expr) : Traced Expr :=
  let proved := a.conclusion.subst s
  match goal.filter (proved ≠ ·) with
  | some expected => Traced.fail (.conclusionMismatch a.label proved expected)
  | none => do
    Traced.note (.proves ctx.claim.label a.label proved)
    pure proved

/-- The step that applies the assertion of a label to some items. -/
def applyStep (check : ProofCheck) (label : Name) (items : List ProofTerm) (goal : Option Expr) :
    Traced Expr := do
  let a ← Traced.ofExcept (ctx.resolve label)
  let (args, proofs) ← Traced.ofExcept (splitItems a items)
  let given ← Traced.ofExcept (ctx.arguments a.label a.binders args .empty)
  if goal.isSome then Traced.examine a.conclusion
  let known ← Traced.ofExcept (unifyGoal a goal given)
  let (pending, s) ←
    rounds check a.label proofs.length (PendingProof.ofItems 1 a.hypotheses proofs) known
  Traced.ofExcept (settled a pending s)
  Traced.examineAll (a.binders.filterMap fun b => s.get? b.name)
  Traced.ofExcept (ctx.checkSubstitution a s)
  ctx.conclude a s goal

/-- What a hypothesis proves, which is the goal if there is one. -/
def useHypothesis (name : Name) (proved : Expr) : Option Expr → Traced Expr
  | none => pure proved
  | some goal =>
    if proved = goal then do
      Traced.examine proved
      pure proved
    else Traced.fail (.hypothesisMismatch name proved goal)

/-- What a proof proves, which is the goal if there is one. At most `n` proofs stand around one
another from here on. -/
def check : Nat → ProofCheck
  | 0, _, _ => Traced.fail (.nestingLimit ctx.limit)
  | n + 1, .ref name _, goal =>
    match ctx.hypotheses.get? name with
    | some proved => useHypothesis name proved goal
    | none => ctx.applyStep (check n) name [] goal
  | n + 1, .app name items _, goal =>
    if ctx.hypotheses.contains name then Traced.fail (.hypothesisApplied name)
    else ctx.applyStep (check n) name items goal
  | _ + 1, .expr _, _ => Traced.fail .notAProof
  | _ + 1, .hole, _ => Traced.fail .notAProof

/-- A proof that stands at a depth. No proof may stand deeper than the limit of the context. -/
def checkAt (depth : Int) : ProofCheck := ctx.check (ctx.limit + 1 - depth).toNat

/-- A proof of the theorem itself. -/
def checkClaim (proof : ProofTerm) : Traced Expr := ctx.checkAt 0 proof (some ctx.claim.conclusion)

end ProofContext
end Deductive
