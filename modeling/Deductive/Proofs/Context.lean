import Deductive.Proof
import Deductive.Proof.Context
import Deductive.Proofs.WellFormed

/-!
What the proofs of a theorem can refer to: assertions at earlier places, the hypotheses and the
binders of the theorem.
-/
namespace Deductive

theorem length_hypothesisLabels (n : Nat) (hs : List Hypothesis) :
    (hypothesisLabels n hs).length = hs.length := by
  induction hs generalizing n with
  | nil => rfl
  | cons h hs ih => rw [hypothesisLabels, List.length_cons, List.length_cons, ih]

@[simp] theorem Assertion.length_hypothesisLabels (a : Assertion) :
    a.hypothesisLabels.length = a.hypotheses.length :=
  Deductive.length_hypothesisLabels 1 a.hypotheses

/-- The place of the first label is not after the place of any other one. -/
theorem Theory.mem_take_of_mem_before {t : Theory} {claim a : Assertion} {j : Nat}
    (hj : t.assertions[j]? = some claim) (ha : a ∈ t.before claim.label) :
    a ∈ t.assertions.take j := by
  unfold before indexOf? at ha
  split at ha
  · rename_i i hi
    obtain ⟨_, _, hfirst⟩ := List.findIdx?_eq_some_iff_getElem.mp hi
    obtain ⟨hlt, he⟩ := List.getElem?_eq_some_iff.mp hj
    have hle : i ≤ j := by
      refine Nat.le_of_not_lt fun hji => ?_
      exact hfirst j hji (by simp [he])
    exact List.take_subset_take_left _ hle ha
  · cases ha

theorem Theory.mem_of_mem_before {t : Theory} {label : Name} {a : Assertion}
    (ha : a ∈ t.before label) : a ∈ t.assertions := by
  unfold before at ha
  split at ha
  · exact List.mem_of_mem_take ha
  · cases ha

/-- Where no label is repeated, the assertions before a label are those at the earlier places. -/
theorem Theory.before_eq_take {t : Theory} {claim : Assertion} {j : Nat}
    (hlabels : (t.assertions.map Assertion.label).Nodup) (hj : t.assertions[j]? = some claim) :
    t.before claim.label = t.assertions.take j := by
  obtain ⟨hlt, he⟩ := List.getElem?_eq_some_iff.mp hj
  have hindex : t.indexOf? claim.label = some j := by
    refine List.findIdx?_eq_some_iff_getElem.mpr ⟨hlt, by simp [he], fun i hi hsame => ?_⟩
    have hne := List.pairwise_iff_getElem.mp hlabels i j (by simp; omega) (by simpa using hlt) hi
    simp only [List.getElem_map, he] at hne
    exact hne (of_decide_eq_true hsame)
  rw [before, hindex]

namespace ProofContext

variable {t : Theory} {claim : Assertion} {limit : Int}

/-- Of repeated labels the last one is found, which still is among the earlier assertions. -/
theorem mem_before_of_resolve {label : Name} {a : Assertion}
    (h : (ofTheory t claim limit).resolve label = .ok a) : a ∈ t.before claim.label := by
  unfold resolve at h
  split at h
  · rename_i a' ha
    cases h
    obtain ⟨b, hb, he⟩ := List.mem_map.mp (Registry.mem_of_get?_ofList ha)
    cases he
    exact hb
  · split at h <;> cases h

theorem label_of_resolve {label : Name} {a : Assertion}
    (h : (ofTheory t claim limit).resolve label = .ok a) : a.label = label := by
  unfold resolve at h
  split at h
  · rename_i a' ha
    cases h
    obtain ⟨b, _, he⟩ := List.mem_map.mp (Registry.mem_of_get?_ofList ha)
    cases he
    rfl
  · split at h <;> cases h

/-- Where no label is repeated, each earlier assertion is found under its own. -/
theorem resolve_of_mem_take {j : Nat} (hlabels : (t.assertions.map Assertion.label).Nodup)
    (hj : t.assertions[j]? = some claim) {a : Assertion} (ha : a ∈ t.assertions.take j) :
    (ofTheory t claim limit).resolve a.label = .ok a := by
  have hfound : (ofTheory t claim limit).available.get? a.label = some a := by
    have hn : ((t.before claim.label).map Assertion.label).Nodup := by
      rw [Theory.before_eq_take hlabels hj, List.map_take]
      exact hlabels.sublist (List.take_sublist _ _)
    refine (Registry.get?_ofList_iff (by simpa [Function.comp_def] using hn)).mpr ?_
    rw [Theory.before_eq_take hlabels hj]
    exact List.mem_map.mpr ⟨a, ha, rfl⟩
  rw [resolve, hfound]

theorem get?_hypotheses (hn : claim.hypothesisLabels.Nodup) {label : Name} {e : Expr}
    (h : (label, e) ∈ claim.hypothesisLabels.zip (claim.hypotheses.map Hypothesis.formula)) :
    (ofTheory t claim limit).hypotheses.get? label = some e := by
  refine (Registry.get?_ofList_iff ?_).mpr h
  rw [List.map_fst_zip (by simp)]
  exact hn

theorem mem_hypotheses {name : Name} {e : Expr}
    (h : (ofTheory t claim limit).hypotheses.get? name = some e) :
    ∃ p ∈ claim.hypotheses, p.formula = e :=
  List.mem_map.mp (List.of_mem_zip (Registry.mem_of_get?_ofList h)).2

/-- Every assertion that a proof can apply has passed the checks. -/
theorem wellFormed_of_resolve (ht : t.isWellFormed = true) {label : Name} {a : Assertion}
    (h : (ofTheory t claim limit).resolve label = .ok a) : a.WellFormed t.signature :=
  t.wellFormed_of_mem ht (Theory.mem_of_mem_before (mem_before_of_resolve h))

end ProofContext

namespace Generalization

def byRule : ProofTerm := .app "gen" [.ref "h" .start] .start

def byRepeated : ProofTerm := .app "gen_again" [.ref "id" .start] .start

/-- Proofs of the theorems of the theory, in which all arguments are left out. -/
def proofs : ProofFile :=
  .ofList [("gen_again", ⟨"gen_again", byRule, 1⟩), ("gen_id", ⟨"gen_id", byRepeated, 2⟩)]

end Generalization

end Deductive
