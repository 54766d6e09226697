import Deductive.Proofs.Derivation
import Deductive.Proofs.Stopping

/-!
Assertions that are added at the end of a theory. A proof of a theorem cannot use them, and to name
one fails as it does where it is not declared at all, if with another message.
-/
namespace Deductive

/-- Contexts for the same claim with the same assertions before it check every proof in the same way
up to a label that is found in neither. -/
theorem ProofContext.check_begins_of_available {ctx ctx' : ProofContext} (h : SameClaim ctx ctx')
    (havailable : ctx'.available = ctx.available) (hlimit : ctx'.limit = ctx.limit) (n : Nat)
    (p : ProofTerm) (goal : Option Expr) :
    (ctx.check n p goal).Begins (·.isUnresolved = false) (ctx'.check n p goal) := by
  refine check_begins (fun n m _ => n = m) h (fun _ => id) (fun label => ?_) ?_ ?_ rfl goal
  · unfold resolve
    rw [havailable]
    cases ctx.available.get? label with
    | some a => exact .same _
    | none =>
      dsimp only
      split
      · exact .stopped rfl rfl List.nil_prefix
      · exact .stopped rfl rfl List.nil_prefix
  · intro n m p hnm q _
    exact Nat.succ_inj.mp hnm
  · rintro n m p rfl hend goal
    obtain rfl : n = 0 := or_self_iff.mp hend
    rw [check, check, hlimit]
    exact .same _

theorem ProofContext.checkClaim_of_available {ctx ctx' : ProofContext} (h : SameClaim ctx ctx')
    (havailable : ctx'.available = ctx.available) (hlimit : ctx'.limit = ctx.limit)
    {proof : ProofTerm} {e : Expr} (he : (ctx.checkClaim proof).cutOff.result = .ok e) :
    (ctx'.checkClaim proof).cutOff.result = .ok e := by
  have hbegins := check_begins_of_available h havailable hlimit (ctx.limit + 1 - 0).toNat proof
    (some ctx.claim.conclusion)
  have heq : ctx'.checkClaim proof = ctx.checkClaim proof := by
    rw [checkClaim, checkAt, h.claim, hlimit]
    exact hbegins.eq_of_ok (Traced.result_of_cutOff he)
  rw [heq]
  exact he

namespace Theory

/-- The other theory has the same signature and goes on with more assertions, under whatever labels.
-/
structure ContinuedBy (t : Theory) (more : List Assertion) (t' : Theory) : Prop where
  signature : t'.signature = t.signature
  assertions : t'.assertions = t.assertions ++ more

namespace ContinuedBy

variable {t t' : Theory} {more : List Assertion} {claim : Assertion} {proof : ProofTerm}
  {limit : Int}

/-- The first assertion with a label stays the first one. -/
theorem before_eq (h : t.ContinuedBy more t') (hclaim : claim ∈ t.assertions) :
    t'.before claim.label = t.before claim.label := by
  have hfound : (t.assertions.findIdx? fun a => a.label = claim.label).isSome := by
    rw [List.findIdx?_isSome, List.any_eq_true]
    exact ⟨claim, hclaim, by simp⟩
  obtain ⟨i, hi⟩ := Option.isSome_iff_exists.mp hfound
  obtain ⟨hlt, _⟩ := List.findIdx?_eq_some_iff_getElem.mp hi
  unfold before indexOf?
  rw [h.assertions, List.findIdx?_append, hi]
  exact List.take_append_of_le_length (Nat.le_of_lt hlt)

theorem available_eq (h : t.ContinuedBy more t') (hclaim : claim ∈ t.assertions) (limit : Int) :
    (ProofContext.ofTheory t' claim limit).available =
      (ProofContext.ofTheory t claim limit).available := by
  rw [ProofContext.ofTheory, ProofContext.ofTheory, h.before_eq hclaim]

theorem sameClaim (h : t.ContinuedBy more t') (claim : Assertion) (limit : Int) :
    (ProofContext.ofTheory t claim limit).SameClaim (ProofContext.ofTheory t' claim limit) :=
  ⟨h.signature, rfl, rfl, rfl⟩

theorem verified_iff (h : t.ContinuedBy more t') (hclaim : claim ∈ t.assertions) :
    (t'.verifyTheorem claim proof limit).2 = .verified ↔
      (t.verifyTheorem claim proof limit).2 = .verified := by
  have hsame := h.sameClaim claim limit
  have havailable := h.available_eq hclaim limit
  rw [Theory.verified_iff, Theory.verified_iff]
  constructor
  · intro ⟨e, he⟩
    exact ⟨e, ProofContext.checkClaim_of_available hsame.symm havailable.symm rfl he⟩
  · intro ⟨e, he⟩
    exact ⟨e, ProofContext.checkClaim_of_available hsame havailable rfl he⟩

theorem keyword_verifyLabel {proofs proofs' : ProofFile} (h : t.ContinuedBy more t')
    (hclaim : claim ∈ t.assertions)
    (hproofs : (proofs'.get? claim.label).map ProofDecl.proof =
      (proofs.get? claim.label).map ProofDecl.proof) :
    (t'.verifyLabel proofs' limit claim).2.keyword =
      (t.verifyLabel proofs limit claim).2.keyword := by
  unfold verifyLabel
  cases hdecl : proofs.get? claim.label with
  | none =>
    rw [hdecl, Option.map_none, Option.map_eq_none_iff] at hproofs
    rw [hproofs]
  | some decl =>
    rw [hdecl] at hproofs
    obtain ⟨decl', hdecl', hproof⟩ := Option.map_eq_some_iff.mp hproofs
    rw [hdecl']
    dsimp only
    rw [hproof, keyword_verifyTheorem, keyword_verifyTheorem]
    exact if_congr (h.verified_iff hclaim) rfl rfl

theorem theorems_eq (h : t.ContinuedBy more t') :
    t'.theorems = t.theorems ++ more.filter Assertion.isTheorem := by
  rw [theorems, h.assertions, List.filter_append]
  rfl

/-- The verdict on a theorem depends on nothing that is declared after it, and on no other proof.
Every theorem has one outcome, at its place, those of the added theorems come after them, and what
was proved, what failed and what had no proof stays so as long as the proof is the same. -/
theorem keeps_verdicts (h : t.ContinuedBy more t') (proofs proofs' : ProofFile) (limit : Int) :
    let outcomes := (t.verify proofs limit).2.outcomes
    let outcomes' := (t'.verify proofs' limit).2.outcomes
    outcomes.map Outcome.label = t.theorems.map Assertion.label ∧
    outcomes'.map Outcome.label =
      (t.theorems ++ more.filter Assertion.isTheorem).map Assertion.label ∧
    ∀ (i : Nat) (claim : Assertion), t.theorems[i]? = some claim →
      (proofs'.get? claim.label).map ProofDecl.proof =
        (proofs.get? claim.label).map ProofDecl.proof →
      ∃ o o' : Outcome, outcomes[i]? = some o ∧ outcomes'[i]? = some o' ∧
        o.label = claim.label ∧ o'.label = claim.label ∧
        o'.verdict.keyword = o.verdict.keyword := by
  simp only [verify, List.map_map, ← h.theorems_eq]
  refine ⟨rfl, rfl, fun i claim hi hproofs => ?_⟩
  have hi' : t'.theorems[i]? = some claim := by
    rw [h.theorems_eq, List.getElem?_append_left (List.getElem?_eq_some_iff.mp hi).1, hi]
  have hclaim : claim ∈ t.assertions := List.mem_of_mem_filter (List.mem_of_getElem? hi)
  refine ⟨⟨claim.label, (t.verifyLabel proofs limit claim).2⟩,
    ⟨claim.label, (t'.verifyLabel proofs' limit claim).2⟩, ?_, ?_, rfl, rfl,
    h.keyword_verifyLabel hclaim hproofs⟩
  · rw [List.getElem?_map, hi]
    rfl
  · rw [List.getElem?_map, hi']
    rfl

end ContinuedBy
end Theory

namespace Generalization

/-- The label of a theorem is declared again, with a proof that uses the added assertion. -/
theorem continued_keeps_verdicts :
    let again := { ofIdentity with label := "gen_again" }
    let t' := { theory with assertions := theory.assertions ++ [identity, again] }
    let proofs' : ProofFile := .ofList [("gen_again", ⟨"gen_again", byRule, 7⟩)]
    theory.ContinuedBy [identity, again] t' ∧
      ((t'.verify proofs' 10).2.outcomes.map Outcome.label) =
        ["gen_again", "gen_id", "gen_again"].map Name.text ∧
      ∃ o', (t'.verify proofs' 10).2.outcomes[0]? = some o' ∧ o'.verdict.keyword = "verified" := by
  intro again t' proofs'
  have hcontinued : theory.ContinuedBy [identity, again] t' := ⟨rfl, rfl⟩
  obtain ⟨_, hlabels, hverdicts⟩ := hcontinued.keeps_verdicts proofs proofs' 10
  obtain ⟨o, o', ho, ho', _, _, hkeyword⟩ := hverdicts 0 repeated rfl rfl
  refine ⟨hcontinued, hlabels, o', ho', hkeyword.trans ?_⟩
  have hverified : (theory.verify proofs 10).2.outcomes[0]? = some ⟨"gen_again", .verified⟩ := by
    decide
  cases ho.symm.trans hverified
  rfl

end Generalization
end Deductive
