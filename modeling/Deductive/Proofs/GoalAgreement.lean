import Deductive.Proofs.Composition
import Deductive.Proofs.Context
import Deductive.Proofs.Steps

/-!
Checking a proof with a goal and without one: the goal decides when the proofs of the hypotheses are
checked, but not what is proved. Results are those of runs that nothing cuts off.
-/
namespace Deductive.ProofContext

/-- What a proof proves without a goal it proves with that as the goal, and what it proves with a
goal it proves without one, unless it waits for arguments there. -/
structure Agrees (check : ProofCheck) : Prop where
  forth : ∀ p e, (check p none).result = .ok e → (check p (some e)).result = .ok e
  back : ∀ p g r, (check p (some g)).result = .ok r →
    r = g ∧ ((check p none).result = .ok g ∨ Unresolved check p)

variable {ctx : ProofContext} {check : ProofCheck} {label : Name} {items : List ProofTerm}

theorem Settled.fits (hc : Agrees check) {s : Substitution} {p : PendingProof}
    (h : Settled check s p) : Fits check s p := by
  refine ⟨h.ground, ?_, ?_⟩
  · rcases h.checked with he | hnone
    · exact he
    · exact ⟨_, hc.forth _ _ hnone⟩
  · rcases h.checked with ⟨e, he⟩ | hnone
    · exact (hc.back _ _ _ he).2
    · exact .inl hnone

namespace StepRun

variable {goal : Option Expr} {a : Assertion} {proofs : List ProofTerm}
  {given known s : Substitution} {rest : List PendingProof}

/-- Rounds after which something is known of all binders leave nothing to be checked. -/
theorem of_rounds (ha : a.IsClosed)
    (hprep : ctx.prepare label items = .ok (a, proofs, given))
    (hmatch : unifyGoal a goal given = .ok known)
    (hrounds : Rounds check (PendingProof.ofItems 1 a.hypotheses proofs) known rest s)
    (hcovered : ∀ b ∈ a.binders, s.contains b.name = true) (hs : ctx.Admissible a s) :
    ctx.StepRun check label items goal a proofs given known s := by
  have hrest : rest = [] := by
    refine hrounds.rest_eq_nil fun p hp => ?_
    obtain ⟨_, _, i, hi, hf⟩ := PendingProof.of_mem_ofItems hp
    rw [hf]
    exact Expr.isGround_of_binders (ha.hypotheses i hi) hcovered
  subst hrest
  exact ⟨hprep, hmatch, hrounds, hcovered, ctx.checkSubstitution_eq_ok_iff.mpr hs⟩

theorem admissible (h : ctx.StepRun check label items goal a proofs given known s) :
    ctx.Admissible a s :=
  ctx.checkSubstitution_eq_ok_iff.mp h.accepted

/-- Without the goal the rounds find a part of what was found with it. Where that is enough for all
binders, the step succeeds in the same way. -/
theorem of_extends (h : ctx.StepRun check label items goal a proofs given known s)
    (ha : a.IsClosed) {goal' : Option Expr} {known' s' : Substitution}
    (hmatch : unifyGoal a goal' given = .ok known')
    (hrounds : Rounds check (PendingProof.ofItems 1 a.hypotheses proofs) known' rest s')
    (hs : s.Extends s') (hcovered : ∀ b ∈ a.binders, s'.contains b.name = true) :
    ctx.StepRun check label items goal' a proofs given known' s' :=
  of_rounds ha h.prepared hmatch hrounds hcovered
    (h.admissible.congr fun b hb => hs.get?_eq (hcovered b hb))

end StepRun

theorem applyStep_forth (hc : Agrees check)
    (hclosed : ∀ label a, ctx.resolve label = .ok a → a.IsClosed) {e : Expr}
    (h : (ctx.applyStep check label items none).result = .ok e) :
    (ctx.applyStep check label items (some e)).result = .ok e := by
  obtain ⟨a, proofs, given, known, s, hrun, rfl, _⟩ := ctx.applyStep_eq_ok_iff.mp h
  have hknown : given = known := Except.ok.inj hrun.matched
  subst hknown
  have ha := hclosed label a (ctx.of_prepare hrun.prepared).1
  have hground := Expr.isGround_of_binders ha.conclusion hrun.covered
  obtain ⟨known, hm, hs⟩ :=
    Expr.matchWith_complete a.conclusion hground hrun.rounds.extends_start
  have hknown := (Expr.matchWith_sound _ _ hm).extends_start
  obtain ⟨rest, s', hrounds, hs'⟩ :=
    Rounds.exists_of_fits (fun p hp => (hrun.settled p hp).fits hc) hs
  -- a proof that adds to what is known without the goal is settled with it
  have hcovered : ∀ b ∈ a.binders, s'.contains b.name = true := by
    intro b hb
    rcases hrun.rounds.domain (hrun.covered b hb) with hg | ⟨p, hp, ⟨r, hr⟩, hx⟩
    · exact (hrounds.extends_start.trans hknown).contains hg
    · exact Expr.isGround_iff.mp (hrounds.ground_of_proved hp hr) _ hx
  have hmatch : unifyGoal a (some (a.conclusion.subst s)) given = .ok known :=
    unify_eq_ok_iff.mpr hm
  have hrun' := hrun.of_extends ha hmatch hrounds hs' hcovered
  refine ctx.applyStep_eq_ok_iff.mpr ⟨a, proofs, given, known, s', hrun', ?_, ?_⟩
  · exact (Expr.subst_of_extends hs' (Expr.isGround_of_binders ha.conclusion hcovered)).symm
  · intro g hg
    exact Option.some.inj hg

theorem applyStep_back (hc : Agrees check)
    (hclosed : ∀ label a, ctx.resolve label = .ok a → a.IsClosed) {g r : Expr}
    (h : (ctx.applyStep check label items (some g)).result = .ok r) :
    r = g ∧ ((ctx.applyStep check label items none).result = .ok g ∨
      ∃ failure, (ctx.applyStep check label items none).result = .error failure ∧
        failure.isUnresolved = true) := by
  obtain ⟨a, proofs, given, known, s, hrun, rfl, hgoal⟩ := ctx.applyStep_eq_ok_iff.mp h
  have hg : a.conclusion.subst s = g := hgoal g rfl
  refine ⟨hg, ?_⟩
  have ha := hclosed label a (ctx.of_prepare hrun.prepared).1
  have hm := Expr.matchWith_sound _ _ (unify_eq_ok_iff.mp hrun.matched)
  obtain ⟨rest, s', hrounds, hs'⟩ :=
    Rounds.exists_of_fits (fun p hp => (hrun.settled p hp).fits hc)
      (hrun.rounds.extends_start.trans hm.extends_start)
  by_cases hcovered : ∀ b ∈ a.binders, s'.contains b.name = true
  · left
    have hmatch : unifyGoal a none given = .ok given := rfl
    have hrun' := hrun.of_extends ha hmatch hrounds hs' hcovered
    refine ctx.applyStep_eq_ok_iff.mpr ⟨a, proofs, given, given, s', hrun', ?_, nofun⟩
    rw [← hg]
    exact (Expr.subst_of_extends hs' (Expr.isGround_of_binders ha.conclusion hcovered)).symm
  · right
    exact ctx.applyStep_unresolved hrun.prepared rfl hrounds hcovered

/-- Both directions at once, by induction on the nesting of proofs that is left: a step calls for
its sub-proofs in both ways, whichever way it is checked itself. -/
theorem check_agrees_of_closed
    (hclosed : ∀ label a, ctx.resolve label = .ok a → a.IsClosed) (n : Nat) :
    Agrees (ctx.check n) := by
  induction n with
  | zero => exact ⟨nofun, nofun⟩
  | succ n ih =>
    refine ⟨fun p e h => ?_, fun p g r h => ?_⟩
    · rcases ctx.check_succ_cases n p with
        ⟨name, proved, _, hp⟩ | ⟨label, items, hp⟩ | ⟨failure, hp⟩
      · rw [hp] at h ⊢
        obtain ⟨rfl, _⟩ := useHypothesis_eq_ok_iff.mp h
        exact useHypothesis_eq_ok_iff.mpr ⟨rfl, fun g hg => Option.some.inj hg⟩
      · rw [hp] at h ⊢
        exact applyStep_forth ih hclosed h
      · rw [hp] at h
        cases h
    · rcases ctx.check_succ_cases n p with
        ⟨name, proved, _, hp⟩ | ⟨label, items, hp⟩ | ⟨failure, hp⟩
      · rw [hp] at h ⊢
        obtain ⟨rfl, hg⟩ := useHypothesis_eq_ok_iff.mp h
        have hproved := hg g rfl
        exact ⟨hproved, .inl (useHypothesis_eq_ok_iff.mpr ⟨hproved, nofun⟩)⟩
      · rw [Unresolved, hp]
        rw [hp] at h
        exact applyStep_back ih hclosed h
      · rw [hp] at h
        cases h

theorem check_agrees
    (hwf : ∀ label a, ctx.resolve label = .ok a → a.WellFormed ctx.signature) (n : Nat) :
    Agrees (ctx.check n) :=
  check_agrees_of_closed (fun label a h => (hwf label a h).isClosed) n

/-- A proof that proves `e` without a goal checks with the goal `e` and with no other goal; one that
fails without a goal, and not for want of arguments, checks with no goal. -/
theorem checkAt_goal_agrees {t : Theory} (ht : t.isWellFormed = true) (claim : Assertion)
    (limit depth : Int) (p : ProofTerm) :
    (∀ e, ((ofTheory t claim limit).checkAt depth p none).result = .ok e → ∀ g,
      (∃ r, ((ofTheory t claim limit).checkAt depth p (some g)).result = .ok r) ↔ g = e) ∧
    (∀ failure, ((ofTheory t claim limit).checkAt depth p none).result = .error failure →
      failure.isUnresolved = false → ∀ g,
      ¬ ∃ r, ((ofTheory t claim limit).checkAt depth p (some g)).result = .ok r) := by
  have hagrees : Agrees ((ofTheory t claim limit).checkAt depth) :=
    check_agrees (fun _ _ h => wellFormed_of_resolve ht h) _
  constructor
  · intro e he g
    constructor
    · intro h
      obtain ⟨r, hr⟩ := h
      obtain ⟨_, hnone | ⟨failure, hf, _⟩⟩ := hagrees.back p g r hr
      · exact Except.ok.inj (hnone.symm.trans he)
      · rw [he] at hf
        cases hf
    · intro hg
      subst hg
      exact ⟨g, hagrees.forth p g he⟩
  · intro failure hf hu g h
    obtain ⟨r, hr⟩ := h
    obtain ⟨_, hnone | ⟨failure', hf', hu'⟩⟩ := hagrees.back p g r hr
    · rw [hf] at hnone
      cases hnone
    · rw [hf] at hf'
      cases hf'
      rw [hu] at hu'
      cases hu'

/-- The identity of `r`, written with its argument, proves that and nothing else. -/
theorem identity_goal_agrees :
    Generalization.theory.isWellFormed = true ∧
      ((ofTheory Generalization.theory Generalization.ofIdentity 10).checkAt 1
        (.app "id" [.expr (.var "r")] .start) none).result =
          .ok (.app "im" [.var "r", .var "r"]) ∧
      ¬ ∃ e, ((ofTheory Generalization.theory Generalization.ofIdentity 10).checkAt 1
        (.app "id" [.expr (.var "r")] .start) (some (.var "r"))).result = .ok e := by
  have hnone : ((ofTheory Generalization.theory Generalization.ofIdentity 10).checkAt 1
      (.app "id" [.expr (.var "r")] .start) none).result =
        .ok (.app "im" [.var "r", .var "r"]) := rfl
  have hagrees := checkAt_goal_agrees Generalization.theory_isWellFormed Generalization.ofIdentity
    10 1 (.app "id" [.expr (.var "r")] .start)
  refine ⟨Generalization.theory_isWellFormed, hnone, fun h => ?_⟩
  cases (hagrees.1 _ hnone (.var "r")).mp h

end Deductive.ProofContext
