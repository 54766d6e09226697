import Deductive.Proofs.Composition
import Deductive.Proofs.Derivation
import Deductive.Proofs.Lawful

/-!
Derivations as trees, and the proofs that spell them out: every step with all of its arguments. No
valid derivation that is spelled out is rejected, whether its statement is asked for or not.
-/
namespace Deductive

/-! Nesting of expressions. Replacing variables does not make an expression less nested. -/

namespace Expr

theorem depth_le_depthAll {e : Expr} {es : List Expr} (he : e ∈ es) : e.depth ≤ depthAll es := by
  induction es with
  | nil => cases he
  | cons e' es ih =>
    rw [depthAll]
    rcases List.mem_cons.mp he with rfl | he
    · exact Nat.le_max_left _ _
    · exact Nat.le_trans (ih he) (Nat.le_max_right _ _)

theorem depthAll_le_iff {es : List Expr} {n : Nat} :
    depthAll es ≤ n ↔ ∀ e ∈ es, e.depth ≤ n := by
  induction es with
  | nil => simp [depthAll]
  | cons e es ih => rw [depthAll, Nat.max_le, ih, List.forall_mem_cons]

theorem depth_le_subst (s : Substitution) (e : Expr) : e.depth ≤ (e.subst s).depth := by
  induction e with
  | var x => exact Nat.zero_le _
  | app f args ih =>
    rw [subst_app, depth, depth, Nat.add_le_add_iff_right, depthAll_le_iff]
    intro e he
    exact Nat.le_trans (ih e he) (depth_le_depthAll (List.mem_map_of_mem he))

end Expr

/-- A premise, or an assertion of which the binders are replaced, with a derivation of each of its
hypotheses. Both come with the name that a proof has for them. -/
inductive DerivationTree where
  | premise (label : String) (formula : Expr)
  | step (label : String) (a : Assertion) (s : Substitution) (parts : List DerivationTree)

namespace DerivationTree

def statement : DerivationTree → Expr
  | premise _ formula => formula
  | step _ a s _ => a.conclusion.subst s

/-- The item that gives a binder its image. -/
def item (s : Substitution) (b : Binder) : ProofTerm := .expr ((Expr.var b.name).subst s)

mutual

/-- The derivation as a proof with all arguments. -/
def proof : DerivationTree → ProofTerm
  | premise label _ => .ref label .start
  | step label a s parts => .app label (a.binders.map (item s) ++ proofAll parts) .start

def proofAll : List DerivationTree → List ProofTerm
  | [] => []
  | d :: ds => d.proof :: proofAll ds

end

mutual

/-- The steps from the root to the deepest one. -/
def depth : DerivationTree → Nat
  | premise _ _ => 0
  | step _ _ _ parts => depthAll parts

/-- How far the root of the deepest tree of some is from the step that they belong to. -/
def depthAll : List DerivationTree → Nat
  | [] => 0
  | d :: ds => max (d.depth + 1) (depthAll ds)

end

mutual

/-- The assertions that the steps apply. -/
def assertions : DerivationTree → List Assertion
  | premise _ _ => []
  | step _ a _ parts => a :: assertionsAll parts

def assertionsAll : List DerivationTree → List Assertion
  | [] => []
  | d :: ds => d.assertions ++ assertionsAll ds

end

mutual

/-- The nesting of the statements and of what is put in for binders. -/
def nesting : DerivationTree → Nat
  | premise _ formula => formula.depth
  | step _ a s parts =>
    max (a.conclusion.subst s).depth
      (max (Expr.depthAll (a.binders.map fun b => (Expr.var b.name).subst s)) (nestingAll parts))

def nestingAll : List DerivationTree → Nat
  | [] => 0
  | d :: ds => max d.nesting (nestingAll ds)

end

/-- The leaves are hypotheses of the theorem, and every step is allowed at its place and has a part
for each hypothesis of its assertion. -/
inductive IsValid (t : Theory) (claim : Assertion) (limit : Int) (j : Nat) : DerivationTree → Prop
  | premise {label : String} {formula : Expr}
      (named : (.text label, formula) ∈
        claim.hypothesisLabels.zip (claim.hypotheses.map Hypothesis.formula)) :
      IsValid t claim limit j (.premise label formula)
  | step {label : String} {a : Assertion} {s : Substitution} {parts : List DerivationTree}
      (named : a.label = .text label) (usable : Usable t claim limit j a s)
      (proves : parts.map statement = a.hypotheses.map fun h => h.formula.subst s)
      (valid : ∀ d ∈ parts, IsValid t claim limit j d) :
      IsValid t claim limit j (.step label a s parts)

theorem length_proofAll (ds : List DerivationTree) : (proofAll ds).length = ds.length := by
  induction ds with
  | nil => rfl
  | cons d ds ih => rw [proofAll, List.length_cons, List.length_cons, ih]

theorem depth_lt_of_mem {d : DerivationTree} {ds : List DerivationTree} (hd : d ∈ ds) :
    d.depth < depthAll ds := by
  induction ds with
  | nil => cases hd
  | cons d' ds ih =>
    rw [depthAll]
    rcases List.mem_cons.mp hd with rfl | hd
    · omega
    · have := ih hd
      omega

theorem nestingAll_le_iff {ds : List DerivationTree} {n : Nat} :
    nestingAll ds ≤ n ↔ ∀ d ∈ ds, d.nesting ≤ n := by
  induction ds with
  | nil => simp [nestingAll]
  | cons d ds ih => rw [nestingAll, Nat.max_le, ih, List.forall_mem_cons]

theorem assertions_subset {d : DerivationTree} {ds : List DerivationTree} (hd : d ∈ ds) :
    ∀ a ∈ d.assertions, a ∈ assertionsAll ds := by
  intro a ha
  induction ds with
  | nil => cases hd
  | cons d' ds ih =>
    rw [assertionsAll, List.mem_append]
    rcases List.mem_cons.mp hd with rfl | hd
    · exact .inl ha
    · exact .inr (ih hd)

theorem nesting_step_le_iff {label : String} {a : Assertion} {s : Substitution}
    {parts : List DerivationTree} {n : Nat} :
    (step label a s parts).nesting ≤ n ↔ (a.conclusion.subst s).depth ≤ n ∧
      (∀ b ∈ a.binders, ((Expr.var b.name).subst s).depth ≤ n) ∧ ∀ d ∈ parts, d.nesting ≤ n := by
  rw [nesting, Nat.max_le, Nat.max_le, Expr.depthAll_le_iff, List.forall_mem_map,
    nestingAll_le_iff]

theorem statement_depth_le (d : DerivationTree) : d.statement.depth ≤ d.nesting := by
  cases d with
  | premise label formula => exact Nat.le_refl _
  | step label a s parts =>
    rw [nesting]
    exact Nat.le_max_left _ _

end DerivationTree

/-- The nesting of the expression that an event works on. -/
def ProofEvent.nesting : ProofEvent → Nat
  | examines e => e.depth
  | proves _ _ statement => statement.depth
  | _ => 0

theorem ProofEvent.isTooDeep_eq (event : ProofEvent) :
    event.isTooDeep = decide (nestingLimit < event.nesting) := by
  cases event <;> rfl

namespace Traced

variable {α β : Type} {n : Nat}

/-- The run succeeds, and works on no expression that is nested more deeply than `n`. -/
structure Runs (n : Nat) (x : Traced α) (a : α) : Prop where
  result : x.result = .ok a
  events : ∀ event ∈ x.events, event.nesting ≤ n

theorem Runs.pure (n : Nat) (a : α) : Runs n (pure a) a := ⟨rfl, nofun⟩

theorem Runs.ofExcept (n : Nat) {x : Except ProofFailure α} {a : α} (h : x = .ok a) :
    Runs n (ofExcept x) a := ⟨h, nofun⟩

theorem Runs.note {event : ProofEvent} (h : event.nesting ≤ n) : Runs n (note event) () :=
  ⟨rfl, by simpa [Traced.note] using h⟩

theorem Runs.examineAll {es : List Expr} (h : ∀ e ∈ es, e.depth ≤ n) :
    Runs n (examineAll es) () := by
  refine ⟨rfl, fun event he => ?_⟩
  obtain ⟨e, hm, rfl⟩ := List.mem_map.mp he
  exact h e hm

theorem Runs.bind {x : Traced α} {a : α} {f : α → Traced β} {b : β} (hx : Runs n x a)
    (hf : Runs n (f a) b) : Runs n (x >>= f) b := by
  obtain ⟨events, result⟩ := x
  obtain ⟨rfl, hevents⟩ := hx
  refine ⟨hf.result, fun event he => ?_⟩
  rcases List.mem_append.mp he with he | he
  · exact hevents event he
  · exact hf.events event he

theorem Runs.optional {c : Prop} [Decidable c] {x : Traced Unit} {f : Unit → Traced β} {b : β}
    (hx : Runs n x ()) (hf : Runs n (f ()) b) : Runs n (if c then x >>= f else f ()) b := by
  split
  · exact hx.bind hf
  · exact hf

/-- A run is not cut off where nothing is nested too deeply. -/
theorem Runs.cutOff {x : Traced α} {a : α} (h : Runs n x a) (hn : n ≤ nestingLimit) :
    x.cutOff.result = .ok a := by
  have hany : x.events.any ProofEvent.isTooDeep = false := by
    refine List.any_eq_false.mpr fun event he => ?_
    rw [event.isTooDeep_eq, decide_eq_true_eq]
    have := h.events event he
    omega
  rw [Traced.cutOff, if_neg (by simp [hany])]
  obtain ⟨events, result⟩ := x
  obtain ⟨rfl, _⟩ := h
  rfl

end Traced

namespace ProofContext

open Traced DerivationTree

variable {ctx : ProofContext} {check : ProofCheck} {n : Nat}

/-- Arguments for all binders are known in the end, also where binders share a name. -/
theorem arguments_spelled_out (label : Name) (s : Substitution) (bs : List Binder)
    (known : Substitution) :
    ∃ given, ctx.arguments label bs (bs.map (item s)) known = .ok given ∧
      ∀ x, given.get? x =
        if x ∈ bs.map Binder.name then some ((Expr.var x).subst s) else known.get? x := by
  induction bs generalizing known with
  | nil => exact ⟨known, rfl, fun x => by simp⟩
  | cons b bs ih =>
    obtain ⟨given, hgiven, hget⟩ := ih (known.insert b.name ((Expr.var b.name).subst s))
    refine ⟨given, hgiven, fun x => ?_⟩
    rw [hget, Registry.get?_insert, List.map_cons]
    by_cases hx : x ∈ bs.map Binder.name
    · rw [if_pos hx, if_pos (List.mem_cons_of_mem _ hx)]
    · rw [if_neg hx]
      by_cases hb : b.name = x
      · subst hb
        rw [if_pos rfl, if_pos List.mem_cons_self]
      · rw [if_neg hb, if_neg]
        rw [List.mem_cons, not_or]
        exact ⟨fun h => hb h.symm, hx⟩

theorem splitItems_spelled_out {a : Assertion} (s : Substitution) {parts : List DerivationTree}
    (hl : parts.length = a.hypotheses.length) :
    splitItems a (a.binders.map (item s) ++ proofAll parts) =
      .ok (a.binders.map (item s), proofAll parts) := by
  rw [splitItems, if_pos, List.splitAt_eq]
  · rw [List.take_left' (by simp), List.drop_left' (by simp)]
  · rw [List.length_append, List.length_map, length_proofAll, hl]

/-- Proofs of hypotheses that are known are all settled in one round. -/
theorem runs_round {label : Name} {k : Nat} {hs : List Hypothesis} {parts : List DerivationTree}
    {s : Substitution} (hground : ∀ h ∈ hs, h.formula.isGround s = true)
    (hproves : parts.map statement = hs.map fun h => h.formula.subst s)
    (hparts : ∀ d ∈ parts, Runs n (check d.proof (some d.statement)) d.statement)
    (hn : ∀ d ∈ parts, d.statement.depth ≤ n) :
    Runs n (round check label (PendingProof.ofItems k hs (proofAll parts)) s) ([], s) := by
  induction hs generalizing k parts with
  | nil => exact .pure n _
  | cons h hs ih =>
    cases parts with
    | nil => cases hproves
    | cons d parts =>
      obtain ⟨hd, hproves⟩ := List.cons.inj hproves
      obtain ⟨hg, hground⟩ := List.forall_mem_cons.mp hground
      obtain ⟨hpart, hparts⟩ := List.forall_mem_cons.mp hparts
      obtain ⟨hdepth, hn⟩ := List.forall_mem_cons.mp hn
      dsimp only at hd
      rw [hd] at hdepth
      rw [proofAll, PendingProof.ofItems, round]
      refine .bind (.note (Nat.le_trans (Expr.depth_le_subst s h.formula) hdepth)) ?_
      rw [if_pos hg, ← hd]
      exact .bind hpart (ih hground hproves hparts hn)

theorem runs_rounds_nil (label : Name) (k : Nat) (s : Substitution) :
    Runs n (rounds check label k [] s) ([], s) := by
  cases k with
  | zero => exact .pure n _
  | succ k => exact .bind (.pure n _) (.pure n _)

theorem runs_rounds {label : Name} {k : Nat} {pending : List PendingProof} {s : Substitution}
    (hk : pending.length ≤ k) (h : Runs n (round check label pending s) ([], s)) :
    Runs n (rounds check label k pending s) ([], s) := by
  cases k with
  | zero =>
    cases List.length_eq_zero_iff.mp (Nat.le_zero.mp hk)
    exact .pure n _
  | succ k =>
    refine .bind h ?_
    dsimp only
    split
    · exact runs_rounds_nil label k s
    · exact .pure n _

theorem runs_useHypothesis {name : Name} {e : Expr} {goal : Option Expr}
    (hgoal : ∀ g, goal = some g → g = e) (hn : e.depth ≤ n) :
    Runs n (useHypothesis name e goal) e := by
  cases goal with
  | none => exact .pure n e
  | some g =>
    cases hgoal g rfl
    rw [useHypothesis, if_pos rfl]
    exact .bind (.note hn) (.pure n e)

theorem runs_conclude {a : Assertion} {s : Substitution} {goal : Option Expr} {e : Expr}
    (he : a.conclusion.subst s = e) (hgoal : ∀ g, goal = some g → g = e) (hn : e.depth ≤ n) :
    Runs n (ctx.conclude a s goal) e := by
  have hfilter : goal.filter (e ≠ ·) = none := by
    rw [Option.filter_eq_none_iff]
    intro g hg
    simp [hgoal g hg]
  rw [conclude, he, hfilter]
  exact .bind (.note hn) (.pure n e)

/-- A goal that is the conclusion adds nothing to arguments for all binders. -/
theorem unifyGoal_of_covered {a : Assertion} {given : Substitution} {goal : Option Expr}
    (hground : a.conclusion.isGround given = true)
    (hgoal : ∀ g, goal = some g → g = a.conclusion.subst given) :
    ∃ known, unifyGoal a goal given = .ok known ∧ known.Extends given := by
  cases goal with
  | none => exact ⟨given, rfl, Registry.Extends.refl given⟩
  | some g =>
    cases hgoal g rfl
    obtain ⟨known, hm, _⟩ :=
      Expr.matchWith_complete a.conclusion hground (Registry.Extends.refl given)
    exact ⟨known, unify_eq_ok_iff.mpr hm, (Expr.matchWith_sound _ _ hm).extends_start⟩

/-- Before the rounds of a step with all arguments, all is known of the binders. -/
theorem exists_known {a : Assertion} {s : Substitution} {goal : Option Expr}
    (hwf : a.WellFormed ctx.signature) (hs : ctx.Admissible a s)
    (hgoal : ∀ g, goal = some g → g = a.conclusion.subst s) :
    ∃ given known, ctx.arguments a.label a.binders (a.binders.map (item s)) .empty = .ok given ∧
      unifyGoal a goal given = .ok known ∧
      ∀ b ∈ a.binders, known.get? b.name = s.get? b.name := by
  obtain ⟨given, hgiven, hget⟩ := ctx.arguments_spelled_out a.label s a.binders .empty
  have hsame : ∀ b ∈ a.binders, given.get? b.name = s.get? b.name := by
    intro b hb
    obtain ⟨e, he, _⟩ := hs.sorts b hb
    rw [hget, if_pos (List.mem_map_of_mem hb), Expr.subst_var he, he]
  have hcovered : ∀ b ∈ a.binders, given.contains b.name = true := fun b hb => by
    rw [Registry.contains, hsame b hb]
    exact hs.contains hb
  have hconclusion : a.conclusion.subst given = a.conclusion.subst s :=
    Expr.subst_congr_binders hwf.conclusion_vars hsame
  obtain ⟨known, hunify, hknown⟩ :=
    unifyGoal_of_covered (Expr.isGround_of_binders hwf.conclusion_vars hcovered)
      fun g hg => (hgoal g hg).trans hconclusion.symm
  exact ⟨given, known, hgiven, hunify, fun b hb =>
    (hknown.get?_eq (hcovered b hb)).trans (hsame b hb)⟩

/-- A step with all arguments succeeds where its parts do. -/
theorem runs_applyStep {a : Assertion} {s : Substitution} {parts : List DerivationTree}
    {goal : Option Expr} (hresolve : ctx.resolve a.label = .ok a)
    (hwf : a.WellFormed ctx.signature) (hs : ctx.Admissible a s)
    (hproves : parts.map statement = a.hypotheses.map fun h => h.formula.subst s)
    (hgoal : ∀ g, goal = some g → g = a.conclusion.subst s)
    (hparts : ∀ d ∈ parts, Runs n (check d.proof (some d.statement)) d.statement)
    (hn : nesting (.step label a s parts) ≤ n) :
    Runs n (ctx.applyStep check a.label (a.binders.map (item s) ++ proofAll parts) goal)
      (a.conclusion.subst s) := by
  obtain ⟨hconclusion, himages, hstatements⟩ := nesting_step_le_iff.mp hn
  obtain ⟨given, known, hgiven, hunify, hknown⟩ := exists_known hwf hs hgoal
  have hcovered : ∀ b ∈ a.binders, known.contains b.name = true := fun b hb => by
    rw [Registry.contains, hknown b hb]
    exact hs.contains hb
  have hsubst : ∀ e : Expr, (∀ x ∈ e.vars, ∃ b ∈ a.binders, b.name = x) →
      e.subst known = e.subst s := fun e he => Expr.subst_congr_binders he hknown
  have hl : parts.length = a.hypotheses.length := by simpa using congrArg List.length hproves
  have hround : Runs n (round check a.label (PendingProof.ofItems 1 a.hypotheses (proofAll parts))
      known) ([], known) := by
    refine runs_round (fun h hh => Expr.isGround_of_binders (hwf.hypothesis_vars hh) hcovered)
      (hproves.trans (List.map_congr_left fun h hh => ?_)) hparts fun d hd =>
        Nat.le_trans d.statement_depth_le (hstatements d hd)
    exact (hsubst _ (hwf.hypothesis_vars hh)).symm
  have hrounds := runs_rounds (PendingProof.length_ofItems_le _ _ _) hround
  have hsettled : settled a [] known = .ok () := settled_eq_ok_iff.mpr ⟨hcovered, rfl⟩
  have haccepted : ctx.checkSubstitution a known = .ok () :=
    ctx.checkSubstitution_eq_ok_iff.mpr (hs.congr fun b hb => (hknown b hb).symm)
  have hexamined : ∀ e ∈ a.binders.filterMap (fun b => known.get? b.name), e.depth ≤ n := by
    intro e he
    obtain ⟨b, hb, hget⟩ := List.mem_filterMap.mp he
    rw [hknown b hb] at hget
    rw [← Expr.subst_var hget]
    exact himages b hb
  refine .bind (.ofExcept n hresolve) (.bind (.ofExcept n (splitItems_spelled_out s hl))
    (.bind (.ofExcept n hgiven) (.optional (.note ?_) (.bind (.ofExcept n hunify)
      (.bind hrounds (.bind (.ofExcept n hsettled) (.bind (.examineAll hexamined)
        (.bind (.ofExcept n haccepted) ?_))))))))
  · exact Nat.le_trans (Expr.depth_le_subst s a.conclusion) hconclusion
  · exact runs_conclude (hsubst _ hwf.conclusion_vars) hgoal hconclusion

end ProofContext

namespace DerivationTree.IsValid

variable {t : Theory} {claim : Assertion} {limit : Int} {j : Nat}

/-- By induction on the derivation, with whatever nesting of proofs is enough for its depth. The
parts are checked with their statements as goals, so that both ways of checking are kept. -/
theorem runs (ht : t.isWellFormed = true) (hj : t.assertions[j]? = some claim)
    {d : DerivationTree} (hd : d.IsValid t claim limit j)
    (hlabels : ∀ a ∈ d.assertions, a.label ∉ claim.hypothesisLabels) {k n : Nat}
    (hdepth : d.depth < k) (hn : d.nesting ≤ n) {goal : Option Expr}
    (hgoal : ∀ g, goal = some g → g = d.statement) :
    Traced.Runs n ((ProofContext.ofTheory t claim limit).check k d.proof goal) d.statement := by
  have hlawful := Theory.lawful_of_isWellFormed ht
  have hnames := (t.wellFormed_of_mem ht (List.mem_of_getElem? hj)).names
  induction hd generalizing k goal with
  | @premise label formula named =>
    obtain ⟨k, rfl⟩ := Nat.exists_eq_add_one_of_ne_zero (Nat.ne_zero_of_lt hdepth)
    have hget : (ProofContext.ofTheory t claim limit).hypotheses.get? label = some formula :=
      ProofContext.get?_hypotheses (List.nodup_append.mp hnames).2.1 named
    rw [proof, ProofContext.check, hget]
    exact ProofContext.runs_useHypothesis hgoal hn
  | @step label a s parts named usable proves _ ih =>
    obtain ⟨k, rfl⟩ := Nat.exists_eq_add_one_of_ne_zero (Nat.ne_zero_of_lt hdepth)
    have hlabel : ¬ (ProofContext.ofTheory t claim limit).hypotheses.contains label = true := by
      intro hc
      obtain ⟨e, he⟩ := Registry.contains_iff.mp hc
      have hmem := (List.of_mem_zip (Registry.mem_of_get?_ofList he)).1
      exact hlabels a List.mem_cons_self (named ▸ hmem)
    rw [proof, ProofContext.check, if_neg hlabel, ← named]
    have ha := t.wellFormed_of_mem ht (List.mem_of_mem_take usable.earlier)
    refine ProofContext.runs_applyStep
      (ProofContext.resolve_of_mem_take hlawful.labels hj usable.earlier) ha
      ((ProofContext.checkSubstitution_eq_ok_iff _).mp usable.accepted) proves hgoal
      (fun d hd => ?_) hn
    refine ih d hd (fun b hb => ?_) ?_ ((nesting_step_le_iff.mp hn).2.2 d hd)
      fun g hg => (Option.some.inj hg).symm
    · exact hlabels b (List.mem_cons_of_mem _ (assertions_subset hd b hb))
    · have := depth_lt_of_mem hd
      rw [depth] at hdepth
      omega

/-- A valid derivation that is spelled out is not rejected, and proves what it derives. -/
theorem checkAt_spelled_out (ht : t.isWellFormed = true) (hj : t.assertions[j]? = some claim)
    {d : DerivationTree} (hd : d.IsValid t claim limit j)
    (hlabels : ∀ a ∈ d.assertions, a.label ∉ claim.hypothesisLabels) (hdepth : d.depth ≤ limit) :
    ((ProofContext.ofTheory t claim limit).checkAt 0 d.proof none).result = .ok d.statement ∧
    ((ProofContext.ofTheory t claim limit).checkAt 0 d.proof (some d.statement)).result =
      .ok d.statement ∧
    (d.statement = claim.conclusion → d.nesting ≤ nestingLimit →
      (t.verifyTheorem claim d.proof limit).2 = .verified) := by
  have hroom : d.depth < (limit + 1 - 0).toNat := by omega
  have hasked : Traced.Runs d.nesting
      ((ProofContext.ofTheory t claim limit).checkAt 0 d.proof (some d.statement)) d.statement :=
    hd.runs ht hj hlabels hroom (Nat.le_refl _) fun g hg => (Option.some.inj hg).symm
  have hunasked : Traced.Runs d.nesting
      ((ProofContext.ofTheory t claim limit).checkAt 0 d.proof none) d.statement :=
    hd.runs ht hj hlabels hroom (Nat.le_refl _) nofun
  refine ⟨hunasked.result, hasked.result, fun hclaim hn => ?_⟩
  rw [hclaim] at hasked
  exact Theory.verified_iff.mpr ⟨_, hasked.cutOff hn⟩

end DerivationTree.IsValid

namespace Generalization

/-- The identity of `r`, and the theorem that generalizes it. -/
def derivation : DerivationTree :=
  .step "gen_again" repeated
    (.ofList [("y", .var "z"), ("q", .app "im" [.var "r", .var "r"])])
    [.step "id" identity (.ofList [("p", .var "r")]) []]

theorem derivation_isValid : derivation.IsValid theory ofIdentity 10 3 := by
  refine .step rfl ⟨by decide, by decide, rfl⟩ rfl (List.forall_mem_singleton.mpr ?_)
  exact .step rfl ⟨by decide, by decide, rfl⟩ rfl nofun

theorem derivation_spelled_out :
    theory.isWellFormed = true ∧ theory.assertions[3]? = some ofIdentity ∧
      derivation.IsValid theory ofIdentity 10 3 ∧
      (∀ a ∈ derivation.assertions, a.label ∉ ofIdentity.hypothesisLabels) ∧
      derivation.depth ≤ (10 : Int) ∧ derivation.statement = ofIdentity.conclusion ∧
      derivation.nesting ≤ nestingLimit ∧
      (theory.verifyTheorem ofIdentity derivation.proof 10).2 = .verified := by
  have hlabels : ∀ a ∈ derivation.assertions, a.label ∉ ofIdentity.hypothesisLabels := by decide
  have hdepth : derivation.depth ≤ (10 : Int) := by decide
  have hn : derivation.nesting ≤ nestingLimit := by decide
  have hchecked := DerivationTree.IsValid.checkAt_spelled_out theory_isWellFormed rfl
    derivation_isValid hlabels hdepth
  exact ⟨theory_isWellFormed, rfl, derivation_isValid, hlabels, hdepth, rfl, hn,
    hchecked.2.2 rfl hn⟩

end Generalization
end Deductive
