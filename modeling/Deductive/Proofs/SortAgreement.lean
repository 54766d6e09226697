import Deductive.Diagnostic.Checks
import Deductive.Proofs.Substitution
import Deductive.Proof.Context

/-!
The sort of an expression is found in two ways: proofs stop at the first thing that is wrong, and
the checks of a theory go on and report everything. What stops the one is what the other reports
first, and where nothing stops it nothing is reported.
-/
namespace Deductive

/-- The complaint says of an expression what the failure says of it. -/
inductive ProofFailure.ReportedAs : ProofFailure → Complaint → Prop
  | unboundVariable {x claim : Name} : ReportedAs (.unboundVariable x claim) (.unboundVariable x)
  | undeclaredTerm {f : Name} : ReportedAs (.undeclaredTerm f) (.undeclaredTerm f)
  | termArity {f : Name} {expected found : Nat} :
      ReportedAs (.termArity f expected found) (.termArity f expected found)
  | argumentSort {arg : Expr} {f : Name} {i : Nat} {expected found : SortName} :
      ReportedAs (.argumentSort arg f expected) (.argumentSort i f expected found)
  | argumentNotBound {arg : Expr} {f : Name} {i : Nat} :
      ReportedAs (.argumentNotBound arg f) (.argumentNotBound i f)

/-- A check that fails does so for the first of the findings, and there are none if it succeeds. -/
def StopsAt {α : Type} : Except ProofFailure α → List Finding → Prop
  | .ok _, findings => findings = []
  | .error failure, findings =>
    ∃ first rest, findings = first :: rest ∧ failure.ReportedAs first.complaint

namespace StopsAt

variable {α : Type} {failure : ProofFailure} {findings : List Finding}

theorem error {complaint : Complaint} {path : Option String} (h : failure.ReportedAs complaint) :
    StopsAt (.error failure : Except ProofFailure α) [⟨complaint, path⟩] :=
  ⟨_, [], rfl, h⟩

/-- What is found later does not matter to a check that has stopped. -/
theorem append (h : StopsAt (.error failure : Except ProofFailure α) findings)
    (more : List Finding) :
    StopsAt (.error failure : Except ProofFailure α) (findings ++ more) := by
  obtain ⟨first, rest, rfl, hfirst⟩ := h
  exact ⟨first, rest ++ more, rfl, hfirst⟩

theorem ok_iff {r : Except ProofFailure α} (h : StopsAt r findings) :
    (∃ a, r = .ok a) ↔ findings = [] := by
  cases r with
  | ok a => exact iff_of_true ⟨a, rfl⟩ h
  | error failure =>
    obtain ⟨first, rest, rfl, _⟩ := h
    exact iff_of_false nofun nofun

theorem error_iff {r : Except ProofFailure α} (h : StopsAt r findings) :
    (∃ failure, r = .error failure) ↔ findings ≠ [] := by
  cases r with
  | ok a => exact iff_of_false nofun fun hne => hne h
  | error failure =>
    obtain ⟨first, rest, rfl, _⟩ := h
    exact iff_of_true ⟨failure, rfl⟩ nofun

end StopsAt

namespace ProofContext

variable {ctx : ProofContext}

/-- The two ways to ask for a bound variable in the place of a bound parameter. -/
theorem checkArgument_eq (term : Name) (i : Nat) (param : Binder) (arg : Expr) (sort : SortName) :
    checkArgument ctx.binders term i param arg (some sort) =
      (if sort = param.sort then [] else [.argumentSort i term param.sort sort]) ++
        if param.bound.holds && !ctx.isBoundVar arg then [.argumentNotBound i term] else [] := by
  unfold checkArgument
  congr 1
  cases param.bound.holds with
  | false => rfl
  | true =>
    cases arg with
    | app f args => rfl
    | var x =>
      by_cases hx : ctx.isBoundVar (.var x) = true
      · have hfound : (ctx.binders.get? x).any (·.bound.holds) = true := hx
        simp [hx, hfound]
      · have hfound : ¬ (ctx.binders.get? x).any (·.bound.holds) = true := hx
        simp [hx, hfound]

/-- One argument after the other: the first that something is wrong with is the one at which finding
sorts stops. -/
theorem sortArguments_stopsAt (term : Name) {args : List Expr}
    (h : ∀ arg ∈ args, ∀ path,
      StopsAt (ctx.sortOf arg) (ctx.signature.checkExpr ctx.binders path arg).1 ∧
        ∀ sort, ctx.sortOf arg = .ok sort →
          (ctx.signature.checkExpr ctx.binders path arg).2 = some sort)
    (params : List Binder) (path : String) (i : Nat) :
    StopsAt (ctx.sortArguments term args params)
      (ctx.signature.checkArguments ctx.binders path term i args params) := by
  induction args generalizing params i with
  | nil => rfl
  | cons arg args ih =>
    cases params with
    | nil => rfl
    | cons param params =>
      obtain ⟨⟨harg, hsort⟩, hargs⟩ :=
        (List.forall_mem_cons.mp h).imp_left fun h => h s!"{path}.args[{i}]"
      rw [sortArguments, Signature.checkArguments]
      cases hfound : ctx.sortOf arg with
      | error failure =>
        rw [hfound] at harg
        exact (harg.append _).append _
      | ok sort =>
        rw [hfound] at harg
        have hclean : (ctx.signature.checkExpr ctx.binders s!"{path}.args[{i}]" arg).1 = [] := harg
        dsimp only
        rw [hclean, hsort sort hfound, checkArgument_eq, List.nil_append]
        by_cases hs : sort = param.sort
        · by_cases hb : (param.bound.holds && !ctx.isBoundVar arg) = true
          · simp only [hs, hb, ne_eq, not_true_eq_false, ↓reduceIte]
            exact (StopsAt.error .argumentNotBound).append _
          · simp only [hs, hb, ne_eq, not_true_eq_false, ↓reduceIte]
            exact ih hargs params (i + 1)
        · simp only [hs, ne_eq, not_false_eq_true, ↓reduceIte]
          exact (StopsAt.error .argumentSort).append _

variable (ctx) in
/-- Finding the sort of an expression stops at the first finding, at whatever place the expression
is checked; where it does not stop, both find the same sort. -/
theorem sortOf_stopsAt (e : Expr) : ∀ path,
    StopsAt (ctx.sortOf e) (ctx.signature.checkExpr ctx.binders path e).1 ∧
      ∀ sort, ctx.sortOf e = .ok sort →
        (ctx.signature.checkExpr ctx.binders path e).2 = some sort := by
  induction e with
  | var x =>
    intro path
    rw [sortOf, Signature.checkExpr]
    cases ctx.binders.get? x with
    | none => exact ⟨.error .unboundVariable, nofun⟩
    | some b => exact ⟨rfl, fun sort h => congrArg some (Except.ok.inj h)⟩
  | app f args ih =>
    intro path
    rw [sortOf, Signature.checkExpr]
    cases ctx.signature.terms.get? f with
    | none => exact ⟨.error .undeclaredTerm, nofun⟩
    | some term =>
      by_cases harity : args.length = term.arity
      · have hargs := sortArguments_stopsAt f ih term.binders path 0
        simp only [harity, ↓reduceIte]
        cases hsorts : ctx.sortArguments f args term.binders with
        | error failure =>
          rw [hsorts] at hargs
          exact ⟨hargs, nofun⟩
        | ok u =>
          rw [hsorts] at hargs
          exact ⟨hargs, fun sort h => congrArg some (Except.ok.inj h)⟩
      · simp only [harity, ↓reduceIte]
        exact ⟨.error .termArity, nofun⟩

end ProofContext

/-- Over the binders of a theorem an expression has a sort for its proofs if and only if the checks of
the theory find that sort and nothing wrong with it. A proof fails over the expression if and only if
there are findings, and it does for the first of them. -/
theorem Theory.sortOf_agrees_checkExpr (t : Theory) (claim : Assertion) (limit : Int) (e : Expr)
    (path : String) :
    (∀ sort, (ProofContext.ofTheory t claim limit).sortOf e = .ok sort ↔
      t.signature.checkExpr (Binder.scope claim.binders) path e = ([], some sort)) ∧
    ((∃ failure, (ProofContext.ofTheory t claim limit).sortOf e = .error failure) ↔
      (t.signature.checkExpr (Binder.scope claim.binders) path e).1 ≠ []) ∧
    StopsAt ((ProofContext.ofTheory t claim limit).sortOf e)
      (t.signature.checkExpr (Binder.scope claim.binders) path e).1 := by
  obtain ⟨hstops, hsort⟩ := (ProofContext.ofTheory t claim limit).sortOf_stopsAt e path
  refine ⟨fun sort => ⟨fun h => Prod.ext ?_ (hsort sort h), fun h => ?_⟩, hstops.error_iff, hstops⟩
  · exact hstops.ok_iff.mp ⟨sort, h⟩
  · obtain ⟨found, hfound⟩ := hstops.ok_iff.mpr (congrArg Prod.fst h)
    have hsome := (hsort found hfound).symm.trans (congrArg Prod.snd h)
    rw [hfound, Option.some.inj hsome]

end Deductive
