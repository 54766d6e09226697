import Deductive.Proofs.Composition
import Deductive.Proofs.Derivation

/-!
Earlier theorems only shorten proofs: where every theorem of a theory is verified, each follows from
its hypotheses by axioms alone.
-/
namespace Deductive

/-- A substitution for the binders of an assertion, and for no other names, that the check lets
pass. -/
structure IsInstance (ctx : ProofContext) (a : Assertion) (s : Substitution) : Prop where
  keys : ∀ x, s.contains x = true ↔ ∃ b ∈ a.binders, b.name = x
  accepted : ctx.checkSubstitution a s = .ok ()

/-- The instances, in a proof of the assertion at place `j`, of the axioms before that place. -/
structure AxiomInstance (t : Theory) (claim : Assertion) (limit : Int) (j : Nat) (a : Assertion)
    (s : Substitution) : Prop where
  isAxiom : a.isAxiom = true
  earlier : a ∈ t.assertions.take j
  isInstance : IsInstance (ProofContext.ofTheory t claim limit) a s

namespace IsInstance

variable {inner ctx : ProofContext} {a c : Assertion} {u s : Substitution}

theorem andThen (hsig : inner.signature = ctx.signature)
    (hscope : ProofContext.IsScope inner.binders c) (hs : ctx.Admissible c s)
    (hu : IsInstance inner a u) : IsInstance ctx a (u.andThen s) := by
  refine ⟨fun x => ?_, ?_⟩
  · rw [← hu.keys, Registry.contains, Substitution.get?_andThen, Option.isSome_map]
    rfl
  · rw [ProofContext.checkSubstitution_eq_ok_iff]
    exact .andThen hsig hscope hs (inner.checkSubstitution_eq_ok_iff.mp hu.accepted)

theorem isGround (h : IsInstance ctx a s) {e : Expr}
    (he : ∀ x ∈ e.vars, ∃ b ∈ a.binders, b.name = x) : e.isGround s = true :=
  Expr.isGround_of_binders he fun b hb => (h.keys b.name).mpr ⟨b, hb, rfl⟩

end IsInstance

/-- What a substitution says of the binders of an assertion. -/
def Substitution.onBinders (s : Substitution) (a : Assertion) : Substitution :=
  s.restrict fun x => a.binders.any fun b => b.name = x

namespace Usable

variable {t : Theory} {claim a : Assertion} {limit : Int} {j : Nat} {s : Substitution}

theorem extends_onBinders (s : Substitution) (a : Assertion) : s.Extends (s.onBinders a) :=
  fun _ _ h => ((Registry.get?_restrict _ _).mp h).1

theorem contains_onBinders (h : Usable t claim limit j a s) (x : Name) :
    (s.onBinders a).contains x = true ↔ ∃ b ∈ a.binders, b.name = x := by
  rw [Registry.contains_iff]
  constructor
  · intro h
    obtain ⟨e, he⟩ := h
    simpa using ((Registry.get?_restrict _ _).mp he).2
  · intro h
    obtain ⟨b, hb, rfl⟩ := h
    obtain ⟨e, he⟩ := Registry.contains_iff.mp (h.covered b hb)
    exact ⟨e, (Registry.get?_restrict _ _).mpr ⟨he, by simpa using ⟨b, hb, rfl⟩⟩⟩

theorem isInstance (h : Usable t claim limit j a s) :
    IsInstance (ProofContext.ofTheory t claim limit) a (s.onBinders a) := by
  refine ⟨h.contains_onBinders, ?_⟩
  rw [ProofContext.checkSubstitution_eq_ok_iff]
  have hadm := (ProofContext.checkSubstitution_eq_ok_iff _).mp h.accepted
  refine hadm.congr fun b hb => ?_
  exact (extends_onBinders s a).get?_eq ((h.contains_onBinders _).mpr ⟨b, hb, rfl⟩)

theorem subst_onBinders (h : Usable t claim limit j a s) {e : Expr}
    (he : ∀ x ∈ e.vars, ∃ b ∈ a.binders, b.name = x) : e.subst (s.onBinders a) = e.subst s :=
  (Expr.subst_of_extends (extends_onBinders s a) (h.isInstance.isGround he)).symm

end Usable

theorem Assertion.isTheorem_eq (a : Assertion) : a.isTheorem = !a.isAxiom := by
  unfold isTheorem isAxiom
  cases a.kind with
  | assumed => rfl
  | claimed => rfl

namespace Theory

variable {t : Theory} {limit : Int}

/-- A derivation in the context of an earlier assertion `c` becomes one in the context of a later
one when the binders of `c` are replaced, with the hypotheses of `c` proved there. -/
theorem derivable_subst (ht : t.isWellFormed = true) {c claim : Assertion} {i j : Nat} (hij : i ≤ j)
    {s : Substitution} (hs : (ProofContext.ofTheory t claim limit).Admissible c s)
    (hhyps : ∀ h ∈ c.hypotheses,
      Derivable (AxiomInstance t claim limit j) claim.hypotheses (h.formula.subst s))
    {e : Expr} (he : Derivable (AxiomInstance t c limit i) c.hypotheses e) :
    Derivable (AxiomInstance t claim limit j) claim.hypotheses (e.subst s) := by
  induction he with
  | premise mem => exact hhyps _ mem
  | @step a u applies _ ih =>
    obtain ⟨hax, hearlier, hinst⟩ := applies
    have ha := t.wellFormed_of_mem ht (List.mem_of_mem_take hearlier)
    have hsig : (ProofContext.ofTheory t c limit).signature =
        (ProofContext.ofTheory t claim limit).signature := rfl
    have hscope : ProofContext.IsScope (ProofContext.ofTheory t c limit).binders c :=
      fun _ _ hx => Binder.of_get?_scope hx
    have hstep : AxiomInstance t claim limit j a (u.andThen s) :=
      ⟨hax, List.take_subset_take_left _ hij hearlier, hinst.andThen hsig hscope hs⟩
    rw [← Substitution.subst_andThen (hinst.isGround ha.conclusion_vars)]
    refine .step hstep fun h hh => ?_
    rw [Substitution.subst_andThen (hinst.isGround (ha.hypothesis_vars hh))]
    exact ih h hh

theorem verified_of_allVerified {proofs : ProofFile}
    (hv : (t.verify proofs limit).2.allVerified = true) {c : Assertion} (hm : c ∈ t.assertions)
    (hc : c.isTheorem = true) :
    ∃ proof, (t.verifyTheorem c proof limit).2 = .verified := by
  have hlabel : (t.verifyLabel proofs limit c).2.isVerified = true := by
    have hall := (Bool.and_eq_true_iff.mp hv).2
    refine List.all_eq_true.mp hall ⟨c.label, (t.verifyLabel proofs limit c).2⟩ ?_
    simp only [verify, List.map_map, List.mem_map]
    exact ⟨c, List.mem_filter.mpr ⟨hm, hc⟩, rfl⟩
  unfold verifyLabel at hlabel
  split at hlabel
  · rename_i decl _
    refine ⟨decl.proof, ?_⟩
    cases hverdict : (t.verifyTheorem c decl.proof limit).2 with
    | verified => rfl
    | failed failure => rw [hverdict] at hlabel; cases hlabel
    | missing => rw [hverdict] at hlabel; cases hlabel
  · cases hlabel

/-- By induction on the place: every use of an earlier theorem is replaced by what that follows
from. -/
theorem derivable_from_axioms (ht : t.isWellFormed = true) {proofs : ProofFile}
    (hv : (t.verify proofs limit).2.allVerified = true) {j : Nat} {claim : Assertion}
    (hj : t.assertions[j]? = some claim) (hc : claim.isTheorem = true) :
    Derivable (AxiomInstance t claim limit j) claim.hypotheses claim.conclusion := by
  induction j using Nat.strongRecOn generalizing claim with
  | ind j ih =>
    obtain ⟨proof, hproof⟩ := verified_of_allVerified hv (List.mem_of_getElem? hj) hc
    have hderived := derivable_of_verified hj hproof
    -- the context of the proof stays, so that only the statement varies in the inner induction
    generalize claim.conclusion = e at hderived
    induction hderived with
    | premise mem => exact .premise mem
    | @step a s applies _ ihs =>
      obtain ⟨i, hi, hget⟩ := List.mem_take_iff_getElem.mp applies.earlier
      have ha := t.wellFormed_of_mem ht (List.mem_of_mem_take applies.earlier)
      cases hkind : a.isAxiom with
      | true =>
        rw [← applies.subst_onBinders ha.conclusion_vars]
        refine .step ⟨hkind, applies.earlier, applies.isInstance⟩ fun h hh => ?_
        rw [applies.subst_onBinders (ha.hypothesis_vars hh)]
        exact ihs h hh
      | false =>
        have htheorem : a.isTheorem = true := by rw [a.isTheorem_eq, hkind, Bool.not_false]
        have hij : i < j := by omega
        have hi : t.assertions[i]? = some a := List.getElem?_eq_some_iff.mpr ⟨by omega, hget⟩
        have hadm := (ProofContext.checkSubstitution_eq_ok_iff _).mp applies.accepted
        exact derivable_subst ht (Nat.le_of_lt hij) hadm ihs (ih i hij hi htheorem)

/-- The last theorem of the theory is proved from another theorem, and follows from the axioms. -/
theorem generalization_from_axioms :
    Generalization.theory.isWellFormed = true ∧
      (Generalization.theory.verify Generalization.proofs 10).2.allVerified = true ∧
      Generalization.theory.assertions[3]? = some Generalization.ofIdentity ∧
      Generalization.ofIdentity.isTheorem = true ∧
      Derivable (AxiomInstance Generalization.theory Generalization.ofIdentity 10 3) []
        Generalization.ofIdentity.conclusion := by
  have hv : (Generalization.theory.verify Generalization.proofs 10).2.allVerified = true := by
    decide
  refine ⟨Generalization.theory_isWellFormed, hv, rfl, rfl, ?_⟩
  exact derivable_from_axioms Generalization.theory_isWellFormed hv rfl rfl

end Theory
end Deductive
