import Deductive.Proof.Verdict
import Deductive.Proofs.Context
import Deductive.Proofs.SubstitutionChecks

/-!
Theories in which assertions are replaced by others of the same labels: what a proof can refer to
there is what it could refer to before, replaced.
-/
namespace Deductive

namespace Theory

def replace (t : Theory) (f : Assertion → Assertion) : Theory :=
  { t with assertions := t.assertions.map f }

variable {t : Theory} {f : Assertion → Assertion}

theorem labels_replace (hf : ∀ a, (f a).label = a.label) :
    (t.replace f).assertions.map Assertion.label = t.assertions.map Assertion.label := by
  rw [replace, List.map_map]
  exact List.map_congr_left fun a _ => hf a

theorem before_replace (hf : ∀ a, (f a).label = a.label) (label : Name) :
    (t.replace f).before label = (t.before label).map f := by
  have hindex : (t.replace f).indexOf? label = t.indexOf? label := by
    simp [indexOf?, replace, List.findIdx?_map, Function.comp_def, hf]
  rw [before, before, hindex]
  split
  · exact List.map_take.symm
  · rfl

theorem theorems_replace (hf : ∀ a, (f a).kind = a.kind) :
    (t.replace f).theorems = t.theorems.map f := by
  have hkind : Assertion.isTheorem ∘ f = Assertion.isTheorem :=
    funext fun a => by simp [Assertion.isTheorem, hf]
  rw [theorems, theorems, replace, List.filter_map, hkind]

end Theory

namespace ProofContext

variable {t : Theory} {f : Assertion → Assertion} {claim : Assertion} {limit : Int}

theorem available_replace (hf : ∀ a, (f a).label = a.label) :
    (ofTheory (t.replace f) claim limit).available =
      (ofTheory t claim limit).available.mapValues f := by
  rw [ofTheory, ofTheory, Theory.before_replace hf, ← Registry.ofList_map, List.map_map,
    List.map_map]
  simp [Function.comp_def, hf]

theorem later_replace (hf : ∀ a, (f a).label = a.label) :
    (ofTheory (t.replace f) claim limit).later = (ofTheory t claim limit).later := by
  have hcontains (l : Name) : (ofTheory (t.replace f) claim limit).available.contains l =
      (ofTheory t claim limit).available.contains l := by
    rw [available_replace hf, Registry.contains, Registry.get?_mapValues, Option.isSome_map]
    rfl
  change ((t.replace f).assertions.map Assertion.label).filter _ = _
  rw [Theory.labels_replace hf]
  exact List.filter_congr fun l _ => congrArg _ (hcontains l)

theorem resolve_replace (hf : ∀ a, (f a).label = a.label) (label : Name) :
    (ofTheory (t.replace f) claim limit).resolve label =
      ((ofTheory t claim limit).resolve label).map f := by
  rw [resolve, resolve, available_replace hf, later_replace hf, Registry.get?_mapValues]
  cases (ofTheory t claim limit).available.get? label with
  | some a => rfl
  | none =>
    dsimp only [Option.map_none]
    split <;> rfl

/-- The claim stays, and the signature. -/
theorem sameClaim_replace (t : Theory) (f : Assertion → Assertion) (claim : Assertion)
    (limit : Int) : SameClaim (ofTheory t claim limit) (ofTheory (t.replace f) claim limit) :=
  ⟨rfl, rfl, rfl, rfl⟩

end ProofContext
end Deductive
