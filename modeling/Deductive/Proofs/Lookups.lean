import Deductive.Proofs.Context
import Deductive.Proofs.Failures

/-!
What a step looks up is there: the hypothesis of a proof, the image of a binder, and the binder that
a variable of an image stands for. What it compares in the end with the goal is the goal.
-/
namespace Deductive

namespace PendingProof

theorem getElem?_ofItems_iff {n i : Nat} {hs : List Hypothesis} {proofs : List ProofTerm}
    {p : PendingProof} : (ofItems n hs proofs)[i]? = some p ↔ ∃ h proof, hs[i]? = some h ∧
      proofs[i]? = some proof ∧ p = ⟨n + i, h.formula, proof, false⟩ := by
  induction hs generalizing n proofs i with
  | nil => simp [ofItems]
  | cons h hs ih =>
    cases proofs with
    | nil => simp [ofItems]
    | cons proof proofs =>
      cases i with
      | zero => simp [ofItems, eq_comm]
      | succ i =>
        rw [ofItems, List.getElem?_cons_succ, ih, Nat.add_right_comm n 1 i]
        rfl

/-- A proof that waits is for the hypothesis that its number says. -/
structure IsFor (p : PendingProof) (a : Assertion) (proofs : List ProofTerm) (i : Nat) : Prop where
  number : p.number = i + 1
  hypothesis : a.hypotheses[i]?.map Hypothesis.formula = some p.hypothesis
  proof : proofs[i]? = some p.proof

theorem isFor_of_getElem? {a : Assertion} {proofs : List ProofTerm} {p : PendingProof} {i : Nat}
    (hi : (ofItems 1 a.hypotheses proofs)[i]? = some p) : p.IsFor a proofs i := by
  obtain ⟨h, proof, hhypothesis, hproof, rfl⟩ := getElem?_ofItems_iff.mp hi
  exact ⟨Nat.add_comm 1 i, by rw [hhypothesis, Option.map_some], hproof⟩

end PendingProof

namespace ProofContext

variable {ctx : ProofContext} {check : ProofCheck} {label : Name} {items : List ProofTerm}
  {goal : Option Expr} {a : Assertion} {proofs : List ProofTerm} {given known s : Substitution}
  {pending : List PendingProof}

/-- No proof is left without a hypothesis. -/
theorem exists_isFor (h : ctx.prepare label items = .ok (a, proofs, given)) {i : Nat}
    (hi : i < proofs.length) :
    ∃ p, (PendingProof.ofItems 1 a.hypotheses proofs)[i]? = some p ∧ p.IsFor a proofs i := by
  have hi' : i < a.hypotheses.length := by
    rwa [(ctx.of_prepare h).2] at hi
  have hp : (PendingProof.ofItems 1 a.hypotheses proofs)[i]? = some _ :=
    PendingProof.getElem?_ofItems_iff.mpr ⟨_, _, List.getElem?_eq_getElem hi',
      List.getElem?_eq_getElem hi, rfl⟩
  exact ⟨_, hp, PendingProof.isFor_of_getElem? hp⟩

namespace RoundsOver

theorem waiting_isFor (h : RoundsOver ctx check label items goal a proofs given known pending s)
    {p : PendingProof} (hp : p ∈ pending) : ∃ i, p.IsFor a proofs i := by
  obtain ⟨_, q, hq, rfl⟩ := h.rounds.waiting p hp
  obtain ⟨i, hi⟩ := List.mem_iff_getElem?.mp hq
  have hi := PendingProof.isFor_of_getElem? hi
  exact ⟨i, hi.number, hi.hypothesis, hi.proof⟩

/-- The goal was matched before the rounds, which only add to what is known. -/
theorem subst_conclusion {g : Expr}
    (h : RoundsOver ctx check label items (some g) a proofs given known pending s) :
    a.conclusion.subst s = g := by
  have hmatch := Expr.matchWith_sound _ _ (unify_eq_ok_iff.mp h.matched)
  rw [Expr.subst_of_extends h.rounds.extends_start hmatch.ground, hmatch.subst_eq]

theorem conclude_eq_ok (h : RoundsOver ctx check label items goal a proofs given known pending s) :
    (ctx.conclude a s goal).result = .ok (a.conclusion.subst s) :=
  ctx.result_conclude_eq_ok_iff.mpr ⟨rfl, by
    rintro g rfl
    exact h.subst_conclusion⟩

/-- Where the hypotheses have no variables but binders, none is left when all binders are known. -/
theorem pending_eq_nil (h : RoundsOver ctx check label items goal a proofs given known pending s)
    (hclosed : a.IsClosed) (hs : ∀ b ∈ a.binders, s.contains b.name = true) : pending = [] := by
  refine h.rounds.rest_eq_nil fun p hp => ?_
  obtain ⟨_, _, hypothesis, hmem, heq⟩ := PendingProof.of_mem_ofItems hp
  rw [heq]
  exact Expr.isGround_of_binders (hclosed.hypotheses hypothesis hmem) hs

end RoundsOver

/-- The sort of every image was found, for which all its variables were looked up. -/
theorem binder_of_checkImages {t : Theory} {claim : Assertion} {limit : Int}
    {images : Registry Name Name}
    (h : (ofTheory t claim limit).checkImages label s a.binders .empty = .ok images) {b : Binder}
    (hb : b ∈ a.binders) {e : Expr} (he : image s b = .ok e) {x : Name} (hx : x ∈ e.vars) :
    ∃ c ∈ claim.binders, c.name = x ∧ (ofTheory t claim limit).binders.get? x = some c := by
  have hfit := (checkImages_iff _ (isImages_empty s)).mp ⟨images, h⟩
  obtain ⟨e', he', hsort⟩ := hfit.sorts b hb
  cases Option.some.inj ((image_eq_ok_iff.mp he).symm.trans he')
  obtain ⟨c, hc⟩ := hsort.vars_in_scope x hx
  obtain ⟨hmem, hname⟩ := Binder.of_get?_scope hc
  exact ⟨c, hmem, hname, hc⟩

/-- A failure for variables that are not binders tells of a proof that still waits although all
binders are known. -/
theorem of_settled_foreignVariables {number : Nat} {hypothesis : Expr}
    (h : settled a pending s = .error (.foreignVariables label number hypothesis)) :
    (∀ b ∈ a.binders, s.contains b.name = true) ∧ pending ≠ [] := by
  by_cases hs : ∀ b ∈ a.binders, s.contains b.name = true
  · refine ⟨hs, ?_⟩
    rintro rfl
    rw [settled_eq_ok_iff.mpr ⟨hs, rfl⟩] at h
    cases h
  · obtain ⟨failure, hf, hu⟩ := settled_unresolved pending hs
    rw [hf] at h
    cases h
    cases hu

/-- A check can come to the failure: nothing was looked up in vain, the goal was reached, and in a
theory without errors no hypothesis has variables that are not binders. -/
structure CanArise (t : Theory) (failure : ProofFailure) : Prop where
  found : failure.stage ≠ .lookup
  reached : failure.stage ≠ .conclusion
  closed : t.isWellFormed = true → ∀ label number hypothesis,
    failure ≠ .foreignVariables label number hypothesis

theorem CanArise.of_stage {t : Theory} {failure : ProofFailure}
    (h : failure.stage ∉ [CheckStage.lookup, .settling, .conclusion]) : CanArise t failure := by
  simp only [List.mem_cons, List.not_mem_nil, or_false, not_or] at h
  obtain ⟨hlookup, hsettling, hconclusion⟩ := h
  refine ⟨hlookup, hconclusion, ?_⟩
  rintro _ label number hypothesis rfl
  exact hsettling rfl

theorem StepFails.canArise {t : Theory} {claim : Assertion} {limit : Int}
    (hc : ∀ p g failure, (check p g).result = .error failure → CanArise t failure)
    {failure : ProofFailure}
    (h : StepFails (ofTheory t claim limit) check label items goal failure) :
    CanArise t failure := by
  cases h with
  | early stage =>
    rcases stage with hstage | hstage
    · exact .of_stage (by simp [hstage])
    · exact .of_stage (by simp [hstage])
  | hypothesis checked => exact hc _ _ _ checked
  | @settling a proofs given known s pending ended fails =>
    have hstage := settled_failsIn a pending s failure fails
    refine ⟨by simp [hstage], by simp [hstage], ?_⟩
    rintro ht label' number hypothesis rfl
    have hresolve := (of_prepare _ ended.prepared).1
    obtain ⟨hs, hpending⟩ := of_settled_foreignVariables fails
    exact hpending (ended.pending_eq_nil (wellFormed_of_resolve ht hresolve).isClosed hs)
  | substitution ended covered fails =>
    have hstage := checkSubstitution_failsIn _ _ covered failure fails
    exact .of_stage (by simp [hstage])
  | conclusion ended covered fails =>
    rw [ended.conclude_eq_ok] at fails
    cases fails

theorem canArise_of_check {t : Theory} {claim : Assertion} {limit : Int} {n : Nat} {p : ProofTerm}
    {failure : ProofFailure}
    (h : ((ofTheory t claim limit).check n p goal).result = .error failure) :
    CanArise t failure := by
  refine check_failure (.of_stage ?_) (fun failure hstage => .of_stage ?_)
    (fun _ _ _ _ _ hc hstep => hstep.canArise hc) n p goal failure h
  · simp [ProofFailure.stage]
  · simp [hstage]

/-- Nothing is asked of the theory: whatever assertion a step applies, every proof among its items
has its hypothesis, and a proof that still waits after the rounds too. Where a substitution is
checked, all binders have images; where the disjointness of variables is checked, these have no
variables but binders of the theorem; and what the step proves is its goal. So no check fails
because something is not found or because another statement is proved in the end, and in a theory
without errors none because a hypothesis has variables that are not binders. -/
theorem lookups_succeed (t : Theory) (claim : Assertion) (limit : Int) :
    let ctx := ofTheory t claim limit
    (∀ label items a proofs given, ctx.prepare label items = .ok (a, proofs, given) →
      ∀ i, i < proofs.length → ∃ p,
        (PendingProof.ofItems 1 a.hypotheses proofs)[i]? = some p ∧ p.IsFor a proofs i) ∧
    (∀ check label items goal a proofs given known pending s,
      RoundsOver ctx check label items goal a proofs given known pending s →
      (∀ p ∈ pending, ∃ i, p.IsFor a proofs i) ∧
      (settled a pending s = .ok () →
        (∀ b ∈ a.binders, ∃ e, image s b = .ok e) ∧
        (∀ images, ctx.checkImages a.label s a.binders .empty = .ok images →
          ∀ b ∈ a.binders, ∀ e, image s b = .ok e → ∀ x ∈ e.vars,
            ∃ c ∈ claim.binders, c.name = x ∧ ctx.binders.get? x = some c) ∧
        ∀ g, goal = some g → a.conclusion.subst s = g)) ∧
    ∀ depth p goal failure, (ctx.checkAt depth p goal).result = .error failure →
      (∀ b, failure ≠ .noImage b) ∧
      (∀ label proved expected, failure ≠ .conclusionMismatch label proved expected) ∧
      (t.isWellFormed = true →
        ∀ label number hypothesis, failure ≠ .foreignVariables label number hypothesis) := by
  refine ⟨fun label items a proofs given h i => exists_isFor h, ?_, ?_⟩
  · intro check label items goal a proofs given known pending s hover
    refine ⟨fun p => hover.waiting_isFor, fun hsettled => ⟨fun b hb => ?_, ?_, ?_⟩⟩
    · exact exists_image ((settled_eq_ok_iff.mp hsettled).1 b hb)
    · intro images himages b hb e he x hx
      exact binder_of_checkImages himages hb he hx
    · rintro g rfl
      exact hover.subst_conclusion
  · intro depth p goal failure h
    have harises := canArise_of_check h
    refine ⟨?_, ?_, harises.closed⟩
    · rintro b rfl
      exact harises.found rfl
    · rintro label proved expected rfl
      exact harises.reached rfl

/-- In a step with the rule, whose arguments the goal gives, every lookup succeeds. A theorem that
is not declared yet is not found, but that is told in another way. -/
theorem generalization_lookups :
    let ctx := ofTheory Generalization.theory Generalization.repeated 10
    let rule := Generalization.rule
    let proofs := [ProofTerm.ref "h" .start]
    let known : Substitution := .ofList [("x", .var "y"), ("p", .var "q")]
    (∃ p, (PendingProof.ofItems 1 rule.hypotheses proofs)[0]? = some p ∧ p.IsFor rule proofs 0) ∧
    RoundsOver ctx (ctx.checkAt 1) "gen" proofs (some Generalization.repeated.conclusion) rule
      proofs .empty known [] known ∧
    (∀ b ∈ rule.binders, ∃ e, image known b = .ok e) ∧
    (∃ c ∈ Generalization.repeated.binders, c.name = "q" ∧ ctx.binders.get? "q" = some c) ∧
    rule.conclusion.subst known = Generalization.repeated.conclusion ∧
    ∃ failure, (ctx.checkAt 0 Generalization.byRepeated none).result = .error failure ∧
      (∀ b, failure ≠ .noImage b) ∧
      ∀ label number hypothesis, failure ≠ .foreignVariables label number hypothesis := by
  intro ctx rule proofs known
  obtain ⟨hprepare, hrounds, hfails⟩ :=
    lookups_succeed Generalization.theory Generalization.repeated 10
  have hprepared : ctx.prepare "gen" proofs = .ok (rule, proofs, .empty) := rfl
  have hover : RoundsOver ctx (ctx.checkAt 1) "gen" proofs
      (some Generalization.repeated.conclusion) rule proofs .empty known [] known :=
    ⟨hprepared, rfl, rfl⟩
  obtain ⟨_, hsettled⟩ := hrounds _ _ _ _ _ _ _ _ _ _ hover
  obtain ⟨himages, hvars, hgoal⟩ := hsettled (eq_ok_of_toOption (by decide))
  have hfailure : (ctx.checkAt 0 Generalization.byRepeated none).result =
      .error (.declaredLater "gen_again" "gen_again") := eq_error_of_errorOf? (by decide)
  obtain ⟨hfound, _, hforeign⟩ := hfails 0 Generalization.byRepeated none _ hfailure
  refine ⟨hprepare _ _ _ _ _ hprepared 0 (by decide), hover, himages, ?_, hgoal _ rfl, _, hfailure,
    hfound, hforeign Generalization.theory_isWellFormed⟩
  exact hvars (.ofList [("x", "y")]) (eq_ok_of_toOption (by decide)) ⟨"p", "wff", false, ["x"]⟩
    (by decide) (.var "q") (eq_ok_of_toOption (by decide)) "q" (by decide)

/-- In a theory with errors a proof may wait for a variable that no binder gives. -/
example :
    let odd : Assertion := ⟨.assumed, "odd", [], [⟨none, .var "w"⟩], .var "w"⟩
    let t := { Generalization.theory with
      assertions := [Generalization.identity, odd, Generalization.repeated] }
    errorOf? ((ofTheory t Generalization.repeated 10).checkAt 0
      (.app "odd" [.ref "id" .start] .start) none).result =
        some (.foreignVariables "odd" 1 (.var "w")) := by
  decide

end ProofContext
end Deductive
