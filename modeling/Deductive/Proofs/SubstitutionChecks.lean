import Deductive.Proof.Check

/-!
Contexts for the same claim. Arguments, sorts and substitutions are checked against the claim and
the signature; which assertions are available and how deep proofs may be nested is not looked at.
-/
namespace Deductive.ProofContext

structure SameClaim (ctx ctx' : ProofContext) : Prop where
  signature : ctx'.signature = ctx.signature
  claim : ctx'.claim = ctx.claim
  binders : ctx'.binders = ctx.binders
  hypotheses : ctx'.hypotheses = ctx.hypotheses

namespace SameClaim

variable {ctx ctx' : ProofContext}

theorem symm (h : SameClaim ctx ctx') : SameClaim ctx' ctx :=
  ⟨h.signature.symm, h.claim.symm, h.binders.symm, h.hypotheses.symm⟩

section

variable (h : SameClaim ctx ctx')
include h

theorem arguments (assertion : Name) (bs : List Binder) (items : List ProofTerm)
    (s : Substitution) :
    ctx'.arguments assertion bs items s = ctx.arguments assertion bs items s := by
  induction bs generalizing items s with
  | nil => simp only [ProofContext.arguments]
  | cons b bs ih =>
    cases items with
    | nil => simp only [ProofContext.arguments]
    | cons item items =>
      have hitem : ctx'.argument assertion item = ctx.argument assertion item := by
        cases item <;> simp only [ProofContext.argument, h.signature]
      simp only [ProofContext.arguments, hitem, ih]

theorem isBoundVar (e : Expr) : ctx'.isBoundVar e = ctx.isBoundVar e := by
  cases e <;> simp only [ProofContext.isBoundVar, h.binders]

mutual

theorem sortOf : (e : Expr) → ctx'.sortOf e = ctx.sortOf e
  | .var x => by simp only [ProofContext.sortOf, h.binders, h.claim]
  | .app f args => by
    have hargs := sortArguments f args
    simp only [ProofContext.sortOf, h.signature, hargs]

theorem sortArguments (term : Name) : (args : List Expr) → (params : List Binder) →
    ctx'.sortArguments term args params = ctx.sortArguments term args params
  | [], _ => by simp only [ProofContext.sortArguments]
  | _ :: _, [] => by simp only [ProofContext.sortArguments]
  | arg :: args, param :: params => by
    simp only [ProofContext.sortArguments, sortOf arg, sortArguments term args params,
      isBoundVar h arg]

end

theorem checkImages (assertion : Name) (s : Substitution) (bs : List Binder)
    (images : Registry Name Name) :
    ctx'.checkImages assertion s bs images = ctx.checkImages assertion s bs images := by
  induction bs generalizing images with
  | nil => simp only [ProofContext.checkImages]
  | cons b bs ih =>
    have hbound (e : Expr) : ctx'.boundImage assertion b images e =
        ctx.boundImage assertion b images e := by
      cases e <;> simp only [ProofContext.boundImage, h.isBoundVar]
    simp only [ProofContext.checkImages, h.sortOf, hbound, ih]

theorem checkDisjoint (assertion : Name) (s : Substitution) (images : Registry Name Name)
    (bs : List Binder) :
    ctx'.checkDisjoint assertion s images bs = ctx.checkDisjoint assertion s images bs := by
  have hoffence (b : Binder) (e : Expr) : ctx'.firstOffence images b e =
      ctx.firstOffence images b e := by
    simp only [firstOffence, carried, h.binders]
  induction bs with
  | nil => simp only [ProofContext.checkDisjoint]
  | cons b bs ih => simp only [ProofContext.checkDisjoint, hoffence, ih]

theorem checkSubstitution (a : Assertion) (s : Substitution) :
    ctx'.checkSubstitution a s = ctx.checkSubstitution a s := by
  simp only [ProofContext.checkSubstitution, h.checkImages, h.checkDisjoint]

theorem conclude (a : Assertion) (s : Substitution) (goal : Option Expr) :
    ctx'.conclude a s goal = ctx.conclude a s goal := by
  simp only [ProofContext.conclude, h.claim]

end
end SameClaim
end Deductive.ProofContext
