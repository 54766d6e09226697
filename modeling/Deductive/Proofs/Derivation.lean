import Deductive.Proof.Verdict
import Deductive.Proofs.Context
import Deductive.Proofs.Steps

/-!
What a checked proof proves follows from the hypotheses of the theorem, by the assertions that were
declared before it. Nothing is asked of the theory: labels and names may be repeated, and formulas
may have variables that are no binders.
-/
namespace Deductive

/-- What follows from the premises by the rules, each of which is an assertion under a
substitution. -/
inductive Derivable (rule : Assertion → Substitution → Prop) (premises : List Hypothesis) :
    Expr → Prop
  | premise {h : Hypothesis} (mem : h ∈ premises) : Derivable rule premises h.formula
  | step {a : Assertion} {s : Substitution} (applies : rule a s)
      (hypotheses : ∀ h ∈ a.hypotheses, Derivable rule premises (h.formula.subst s)) :
      Derivable rule premises (a.conclusion.subst s)

namespace ProofContext

variable {ctx : ProofContext} {rule : Assertion → Substitution → Prop} {premises : List Hypothesis}

/-- What a check returns is derivable, and is the goal if there is one. -/
def Sound (rule : Assertion → Substitution → Prop) (premises : List Hypothesis)
    (check : ProofCheck) : Prop :=
  ∀ p goal e, (check p goal).result = .ok e →
    Derivable rule premises e ∧ ∀ g, goal = some g → e = g

/-- A hypothesis that was settled early is still the same under all that is known in the end. -/
theorem Settled.derivable {check : ProofCheck} (hc : Sound rule premises check) {s : Substitution}
    {p : PendingProof} (h : Settled check s p) :
    Derivable rule premises (p.hypothesis.subst s) := by
  rcases h.checked with ⟨e, he⟩ | hnone
  · obtain ⟨hd, heq⟩ := hc _ _ _ he
    rwa [heq _ rfl] at hd
  · exact (hc _ _ _ hnone).1

theorem applyStep_sound {check : ProofCheck} (hc : Sound rule premises check)
    (hrule : ∀ label a s, ctx.resolve label = .ok a →
      (∀ b ∈ a.binders, s.contains b.name = true) → ctx.checkSubstitution a s = .ok () → rule a s)
    {label : Name} {items : List ProofTerm} {goal : Option Expr} {e : Expr}
    (h : (ctx.applyStep check label items goal).result = .ok e) :
    Derivable rule premises e ∧ ∀ g, goal = some g → e = g := by
  obtain ⟨a, proofs, given, known, s, hrun, rfl, hgoal⟩ := ctx.applyStep_eq_ok_iff.mp h
  obtain ⟨hresolve, hlength⟩ := ctx.of_prepare hrun.prepared
  refine ⟨.step (hrule label a s hresolve hrun.covered hrun.accepted) fun i hi => ?_, hgoal⟩
  obtain ⟨p, hp, hf⟩ := PendingProof.exists_ofItems (n := 1) hlength hi
  rw [← hf]
  exact (hrun.settled p hp).derivable hc

theorem check_sound
    (hrule : ∀ label a s, ctx.resolve label = .ok a →
      (∀ b ∈ a.binders, s.contains b.name = true) → ctx.checkSubstitution a s = .ok () → rule a s)
    (hpremises : ∀ name e, ctx.hypotheses.get? name = some e → ∃ h ∈ premises, h.formula = e)
    (n : Nat) : Sound rule premises (ctx.check n) := by
  induction n with
  | zero => exact fun _ _ _ => nofun
  | succ n ih =>
    intro p goal e h
    rcases ctx.check_succ_cases n p with
      ⟨name, proved, hname, hp⟩ | ⟨label, items, hp⟩ | ⟨failure, hp⟩
    · rw [hp] at h
      obtain ⟨rfl, hgoal⟩ := useHypothesis_eq_ok_iff.mp h
      obtain ⟨i, hi, rfl⟩ := hpremises name proved hname
      exact ⟨.premise hi, hgoal⟩
    · rw [hp] at h
      exact applyStep_sound ih hrule h
    · rw [hp] at h
      cases h

end ProofContext

/-- The assertion stands before the place `j`, and the check lets the substitution for its binders
pass in a proof of `claim`. -/
structure Usable (t : Theory) (claim : Assertion) (limit : Int) (j : Nat) (a : Assertion)
    (s : Substitution) : Prop where
  earlier : a ∈ t.assertions.take j
  covered : ∀ b ∈ a.binders, s.contains b.name = true
  accepted : (ProofContext.ofTheory t claim limit).checkSubstitution a s = .ok ()

namespace Theory

variable {t : Theory} {claim : Assertion} {j : Nat}

theorem checkAt_sound (hj : t.assertions[j]? = some claim) (limit depth : Int) :
    ProofContext.Sound (Usable t claim limit j) claim.hypotheses
      ((ProofContext.ofTheory t claim limit).checkAt depth) := by
  refine ProofContext.check_sound (fun label a s ha hcovered haccepted => ?_)
    (fun name e h => ProofContext.mem_hypotheses h) _
  exact ⟨mem_take_of_mem_before hj (ProofContext.mem_before_of_resolve ha), hcovered, haccepted⟩

theorem verified_iff {proof : ProofTerm} {limit : Int} :
    (t.verifyTheorem claim proof limit).2 = .verified ↔
      ∃ e, ((ProofContext.ofTheory t claim limit).checkClaim proof).cutOff.result = .ok e := by
  unfold verifyTheorem
  dsimp only
  split
  · rename_i e he
    exact iff_of_true rfl ⟨e, he⟩
  · rename_i failure hf
    refine iff_of_false nofun fun ⟨e, he⟩ => ?_
    rw [hf] at he
    cases he

theorem result_of_verified {proof : ProofTerm} {limit : Int}
    (h : (t.verifyTheorem claim proof limit).2 = .verified) :
    ∃ e, ((ProofContext.ofTheory t claim limit).checkClaim proof).result = .ok e := by
  obtain ⟨e, he⟩ := verified_iff.mp h
  exact ⟨e, Traced.result_of_cutOff he⟩

/-- A verdict does not depend on the bound on nesting unless it names that. -/
theorem verified_iff_of_ne_tooDeep {proof : ProofTerm} {limit : Int}
    (hn : (t.verifyTheorem claim proof limit).2 ≠ .failed .tooDeep) :
    (t.verifyTheorem claim proof limit).2 = .verified ↔
      ∃ e, ((ProofContext.ofTheory t claim limit).checkClaim proof).result = .ok e := by
  refine ⟨result_of_verified, fun h => ?_⟩
  obtain ⟨e, he⟩ := h
  rcases Traced.cutOff_of_result he with hok | hdeep
  · exact verified_iff.mpr ⟨e, hok⟩
  · refine absurd ?_ hn
    unfold verifyTheorem
    dsimp only
    rw [hdeep]

theorem verifyTheorem_cases (t : Theory) (claim : Assertion) (proof : ProofTerm) (limit : Int) :
    (t.verifyTheorem claim proof limit).2 = .verified ∨
      ∃ failure, (t.verifyTheorem claim proof limit).2 = .failed failure := by
  unfold verifyTheorem
  dsimp only
  split
  · exact .inl rfl
  · exact .inr ⟨_, rfl⟩

theorem keyword_verifyTheorem (t : Theory) (claim : Assertion) (proof : ProofTerm) (limit : Int) :
    (t.verifyTheorem claim proof limit).2.keyword =
      if (t.verifyTheorem claim proof limit).2 = .verified then "verified" else "failed" := by
  rcases t.verifyTheorem_cases claim proof limit with h | ⟨failure, h⟩
  · rw [h]
    rfl
  · rw [h]
    rfl

theorem derivable_of_verified (hj : t.assertions[j]? = some claim) {proof : ProofTerm} {limit : Int}
    (h : (t.verifyTheorem claim proof limit).2 = .verified) :
    Derivable (Usable t claim limit j) claim.hypotheses claim.conclusion := by
  obtain ⟨e, he⟩ := result_of_verified h
  obtain ⟨hd, hgoal⟩ := checkAt_sound hj limit 0 proof _ e he
  rwa [hgoal _ rfl] at hd

/-- The place of a theorem bounds what its proofs use, even where its label is repeated. -/
theorem verifyTheorem_sound (hj : t.assertions[j]? = some claim) (limit : Int) :
    (∀ proof, (t.verifyTheorem claim proof limit).2 = .verified →
      Derivable (Usable t claim limit j) claim.hypotheses claim.conclusion) ∧
    (∀ depth item goal e,
      ((ProofContext.ofTheory t claim limit).checkAt depth item goal).result = .ok e →
        Derivable (Usable t claim limit j) claim.hypotheses e ∧ ∀ g, goal = some g → e = g) :=
  ⟨fun _ h => derivable_of_verified hj h, fun depth => checkAt_sound hj limit depth⟩

/-- The rule is applied to the hypothesis, and the conclusion of that to the identity. -/
theorem generalization_sound :
    Generalization.theory.assertions[2]? = some Generalization.repeated ∧
      (Generalization.theory.verifyTheorem Generalization.repeated Generalization.byRule 10).2 =
        .verified ∧
      Derivable (Usable Generalization.theory Generalization.repeated 10 2)
        Generalization.repeated.hypotheses Generalization.repeated.conclusion := by
  have hv : (Generalization.theory.verifyTheorem Generalization.repeated Generalization.byRule
    10).2 = .verified := by decide
  exact ⟨rfl, hv, (verifyTheorem_sound rfl 10).1 Generalization.byRule hv⟩

end Theory
end Deductive
