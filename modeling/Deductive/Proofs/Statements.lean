import Deductive.Proofs.Composition
import Deductive.Proofs.Derivation
import Deductive.Proofs.Lawful

/-!
What is proved is a statement: it has a sort over the binders of the theorem, the sort is provable,
and it has no other variables. No step sorts its conclusion again. The conclusion was sorted over
the binders of its own assertion, and the substitutions that are let pass carry sorts over.
-/
namespace Deductive

variable {t : Theory} {claim : Assertion} {limit : Int} {j : Nat}

/-- What was a statement over the binders of an assertion is one over those of the theorem once they
are replaced. -/
theorem ProofContext.Admissible.lawfulStatement {a : Assertion} {s : Substitution}
    (hs : (ofTheory t claim limit).Admissible a s) {e : Expr}
    (he : t.signature.LawfulStatement a.binders e) :
    t.signature.LawfulStatement claim.binders (e.subst s) := by
  obtain ⟨sort, decl, hsort, hdecl, hprovable⟩ := he
  have hsig : (ofTheory t a limit).signature = (ofTheory t claim limit).signature := rfl
  have hscope : IsScope (ofTheory t a limit).binders a := fun _ _ h => Binder.of_get?_scope h
  exact ⟨sort, decl, hasSort_subst hsig hscope hs hsort, hdecl, hprovable⟩

/-- By induction on the derivation. The proofs of the hypotheses of a step do not matter for the
sort of what it proves. -/
theorem Derivable.lawfulStatement (ht : t.Lawful) (hj : t.assertions[j]? = some claim) {e : Expr}
    (h : Derivable (Usable t claim limit j) claim.hypotheses e) :
    t.signature.LawfulStatement claim.binders e := by
  induction h with
  | premise mem => exact (ht.assertions claim (List.mem_of_getElem? hj)).hypotheses _ mem
  | @step a s applies _ _ =>
    have ha := ht.assertions a (List.mem_of_mem_take applies.earlier)
    have hs := (ProofContext.checkSubstitution_eq_ok_iff _).mp applies.accepted
    exact hs.lawfulStatement ha.conclusion

namespace ProofContext

/-- In the context of a proof a statement is found to have a sort, and the sort is provable. -/
theorem sortOf_of_lawfulStatement {e : Expr} (h : t.signature.LawfulStatement claim.binders e) :
    ∃ sort decl, (ofTheory t claim limit).sortOf e = .ok sort ∧
      t.signature.sorts.get? sort = some decl ∧ decl.modifiers.provable = true := by
  obtain ⟨sort, decl, hsort, hdecl, hprovable⟩ := h
  exact ⟨sort, decl, (sortOf_eq_ok_iff _).mpr hsort, hdecl, hprovable⟩

/-- Whatever the goal, a check that succeeds returns a statement. -/
theorem checkAt_proves_statement (ht : t.isWellFormed = true) (hclaim : claim ∈ t.assertions)
    {depth : Int} {p : ProofTerm} {goal : Option Expr} {e : Expr}
    (h : ((ofTheory t claim limit).checkAt depth p goal).result = .ok e) :
    (∃ sort decl, (ofTheory t claim limit).sortOf e = .ok sort ∧
      t.signature.sorts.get? sort = some decl ∧ decl.modifiers.provable = true) ∧
    ∀ x ∈ e.vars, ∃ b ∈ claim.binders, b.name = x := by
  obtain ⟨j, hj⟩ := List.mem_iff_getElem?.mp hclaim
  have hderived := (Theory.checkAt_sound hj limit depth p goal e h).1
  have hstatement := hderived.lawfulStatement (Theory.lawful_of_isWellFormed ht) hj
  refine ⟨sortOf_of_lawfulStatement hstatement, ?_⟩
  obtain ⟨_, _, hsort, _⟩ := hstatement
  exact hsort.vars_binders

/-- The rule puts a bound variable of the theorem under the term that binds, and `all y q` has the
sort of formulas. -/
theorem generalization_proves_statement :
    Generalization.theory.isWellFormed = true ∧
      Generalization.repeated ∈ Generalization.theory.assertions ∧
      ((ofTheory Generalization.theory Generalization.repeated 10).checkAt 0
        Generalization.byRule (some Generalization.repeated.conclusion)).result =
          .ok Generalization.repeated.conclusion ∧
      (∃ sort decl, (ofTheory Generalization.theory Generalization.repeated 10).sortOf
          Generalization.repeated.conclusion = .ok sort ∧
        Generalization.theory.signature.sorts.get? sort = some decl ∧
        decl.modifiers.provable = true) ∧
      ∀ x ∈ Generalization.repeated.conclusion.vars,
        ∃ b ∈ Generalization.repeated.binders, b.name = x := by
  have hm : Generalization.repeated ∈ Generalization.theory.assertions := by decide
  have hp : ((ofTheory Generalization.theory Generalization.repeated 10).checkAt 0
      Generalization.byRule (some Generalization.repeated.conclusion)).result =
        .ok Generalization.repeated.conclusion := rfl
  exact ⟨Generalization.theory_isWellFormed, hm, hp,
    checkAt_proves_statement Generalization.theory_isWellFormed hm hp⟩

end ProofContext
end Deductive
