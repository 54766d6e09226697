import Deductive.Proofs.Derivation
import Deductive.Proofs.Lawful
import Deductive.Proofs.Lockstep
import Deductive.Proofs.Renaming
import Mathlib.Data.List.Nodup

/-!
The names of the variables of an assertion do not matter to the proofs that apply it. A check with
the names changed goes in lockstep with the check before: every registry on the way says the same
under the new names, and what comes from the theorem has no new names.
-/
namespace Deductive

namespace PendingProof

def rename (f : Name → Name) (p : PendingProof) : PendingProof :=
  { p with hypothesis := p.hypothesis.rename f }

theorem ofItems_rename (f : Name → Name) (n : Nat) (hs : List Hypothesis)
    (proofs : List ProofTerm) :
    ofItems n (hs.map (Hypothesis.rename f)) proofs = (ofItems n hs proofs).map (rename f) := by
  induction hs generalizing n proofs with
  | nil => rfl
  | cons h hs ih =>
    cases proofs with
    | nil => rfl
    | cons p ps => exact congrArg _ (ih (n + 1) ps)

end PendingProof

namespace ProofContext

variable {t : Theory} {g : Assertion → Assertion} {claim : Assertion} {limit : Int}
  {f : Name → Name} {names : List Name} {check check' : ProofCheck} {label : Name}

/-! Before the rounds. -/

theorem arguments_rename (hf : Separates f names) {bs : List Binder}
    (hbs : ∀ b ∈ bs, b.name ∈ names) (items : List ProofTerm) {s s' : Substitution}
    (hs : s.Renamed f names s') :
    SameEnd (Registry.Renamed f names) ((ofTheory t claim limit).arguments label bs items s)
      ((ofTheory (t.replace g) claim limit).arguments label (bs.map (Binder.rename f)) items s') := by
  induction bs generalizing items s s' with
  | nil => exact .ok hs
  | cons b bs ih =>
    obtain ⟨hb, hbs⟩ := List.forall_mem_cons.mp hbs
    cases items with
    | nil => exact .ok hs
    | cons item items =>
      rw [List.map_cons, arguments, arguments]
      refine (SameEnd.refl ((ofTheory t claim limit).argument label item)).bind ?_
      rintro (_ | e) _ rfl
      · exact ih hbs items hs
      · exact ih hbs items (hs.insert hf hb e)

theorem splitItems_rename (a : Assertion) (items : List ProofTerm) :
    splitItems (a.rename f) items = splitItems a items := by
  simp [splitItems, Assertion.rename]

theorem unify_rename (hf : Separates f names) {s s' : Substitution} (hs : s.Renamed f names s')
    {pattern : Expr} (hp : ∀ x ∈ pattern.vars, x ∈ names) (part : MatchPart) (target : Expr) :
    SameEnd (Registry.Renamed f names) (unify label part pattern target s)
      (unify label part (pattern.rename f) target s') := by
  have hmatch := Expr.matchWith_rename hf hs pattern target hp
  unfold unify
  generalize Expr.matchWith s pattern target = m, Expr.matchWith s' (pattern.rename f) target = m'
    at hmatch ⊢
  cases hmatch with
  | none => exact .error rfl
  | some hm => exact .ok hm

theorem unifyGoal_rename (hf : Separates f names) {a : Assertion}
    (ha : ∀ x ∈ a.conclusion.vars, x ∈ names) {s s' : Substitution} (hs : s.Renamed f names s')
    (goal : Option Expr) :
    SameEnd (Registry.Renamed f names) (unifyGoal a goal s) (unifyGoal (a.rename f) goal s') := by
  cases goal with
  | none => exact .ok hs
  | some e => exact unify_rename hf hs ha "conclusion" e

/-! The rounds. -/

/-- The same proofs are pending and the same is known, under the new names. -/
structure RoundRenamed (f : Name → Name) (names : List Name)
    (r r' : List PendingProof × Substitution) : Prop where
  pending : r'.1 = r.1.map (PendingProof.rename f)
  closed : ∀ p ∈ r.1, ∀ x ∈ p.hypothesis.vars, x ∈ names
  known : r.2.Renamed f names r'.2

theorem RoundRenamed.cons {f : Name → Name} {names : List Name}
    {r r' : List PendingProof × Substitution} (h : RoundRenamed f names r r') {p : PendingProof}
    (hp : ∀ x ∈ p.hypothesis.vars, x ∈ names) :
    RoundRenamed f names (p :: r.1, r.2) (p.rename f :: r'.1, r'.2) :=
  ⟨congrArg _ h.pending, List.forall_mem_cons.mpr ⟨hp, h.closed⟩, h.known⟩

theorem round_inStep (hc : ∀ p goal, (check p goal).InStep Eq (check' p goal))
    (hf : Separates f names) {ps : List PendingProof}
    (hps : ∀ p ∈ ps, ∀ x ∈ p.hypothesis.vars, x ∈ names) {s s' : Substitution}
    (hs : s.Renamed f names s') :
    (round check label ps s).InStep (RoundRenamed f names)
      (round check' label (ps.map (PendingProof.rename f)) s') := by
  induction ps generalizing s s' with
  | nil => exact .pure ⟨rfl, nofun, hs⟩
  | cons p ps ih =>
    obtain ⟨hp, hps⟩ := List.forall_mem_cons.mp hps
    rw [List.map_cons, round, round]
    refine (Traced.InStep.examine (Expr.isTooDeep_rename f p.hypothesis).symm).bind ?_
    intro _ _ _
    rw [show (p.rename f).hypothesis = p.hypothesis.rename f from rfl,
      Expr.isGround_rename hs hf hp]
    split
    · rename_i hg
      rw [Expr.subst_rename hs hf hp hg]
      exact (hc p.proof _).bind fun _ _ _ => ih hps hs
    · rw [show (p.rename f).tried = p.tried from rfl]
      split
      · exact (ih hps hs).bind fun _ _ h => .pure (h.cons hp)
      · have hnone := hc p.proof none
        rw [show (p.rename f).proof = p.proof from rfl]
        generalize check p.proof none = attempt, check' p.proof none = attempt' at hnone
        obtain ⟨events, result⟩ := attempt
        obtain ⟨events', result'⟩ := attempt'
        obtain ⟨hnesting, hresults⟩ := hnone
        cases hresults with
        | ok values =>
          cases values
          refine .after hnesting ((Traced.InStep.ofExcept (unify_rename hf hs hp _ _)).bind ?_)
          exact fun _ _ h => ih hps h
        | error kind =>
          dsimp only
          rw [← kind]
          split
          · refine .after hnesting ((ih hps hs).bind fun _ _ h => .pure ?_)
            exact h.cons (p := { p with tried := true }) hp
          · exact ⟨hnesting, .error kind⟩

theorem rounds_inStep (hc : ∀ p goal, (check p goal).InStep Eq (check' p goal))
    (hf : Separates f names) (n : Nat) {ps : List PendingProof}
    (hps : ∀ p ∈ ps, ∀ x ∈ p.hypothesis.vars, x ∈ names) {s s' : Substitution}
    (hs : s.Renamed f names s') :
    (rounds check label n ps s).InStep (RoundRenamed f names)
      (rounds check' label n (ps.map (PendingProof.rename f)) s') := by
  induction n generalizing ps s s' with
  | zero => exact .pure ⟨rfl, hps, hs⟩
  | succ n ih =>
    rw [rounds, rounds]
    refine (round_inStep hc hf hps hs).bind ?_
    rintro ⟨rest, m⟩ ⟨rest', m'⟩ h
    cases h.pending
    dsimp only
    rw [List.length_map, List.length_map]
    split
    · exact ih h.closed h.known
    · exact .pure h

/-! After the rounds. -/

theorem settled_rename (hf : Separates f names) {a : Assertion}
    (ha : ∀ b ∈ a.binders, b.name ∈ names) {s s' : Substitution} (hs : s.Renamed f names s')
    (ps : List PendingProof) :
    SameEnd (fun _ _ => ∀ b ∈ a.binders, s.contains b.name = true) (settled a ps s)
      (settled (a.rename f) (ps.map (PendingProof.rename f)) s') := by
  have hfind : (a.rename f).binders.find? (fun b => !s'.contains b.name) =
      (a.binders.find? fun b => !s.contains b.name).map (Binder.rename f) := by
    rw [Assertion.rename, List.find?_map, ← List.head?_filter, ← List.head?_filter,
      List.filter_congr fun b hb => ?_]
    exact congrArg not (hs.contains hf (ha b hb))
  unfold settled
  rw [hfind]
  cases hb : a.binders.find? fun b => !s.contains b.name with
  | some b => exact .error rfl
  | none =>
    cases ps with
    | cons p ps => exact .error rfl
    | nil => exact .ok (by simpa using List.find?_eq_none.mp hb)

theorem image_rename (hf : Separates f names) {s s' : Substitution} (hs : s.Renamed f names s')
    {b : Binder} (hb : b.name ∈ names) : SameEnd Eq (image s b) (image s' (b.rename f)) := by
  rw [image, image, show (b.rename f).name = f b.name from rfl, hs.get? hf hb]
  cases s.get? b.name with
  | some e => exact .ok rfl
  | none => exact .error rfl

theorem boundImage_rename {images images' : Registry Name Name}
    (hi : images.Renamed f names images') (b : Binder) (e : Expr) :
    SameEnd Eq ((ofTheory t claim limit).boundImage label b images e)
      ((ofTheory (t.replace g) claim limit).boundImage label (b.rename f) images' e) := by
  cases e with
  | app term args => exact .error rfl
  | var x =>
    rw [boundImage, boundImage, hi.values]
    rw [show (ofTheory (t.replace g) claim limit).isBoundVar (.var x) =
      (ofTheory t claim limit).isBoundVar (.var x) from rfl]
    split
    · exact .error rfl
    · split
      · exact .error rfl
      · exact .ok rfl

theorem checkImages_rename (hf : Separates f names) {s s' : Substitution}
    (hs : s.Renamed f names s') {bs : List Binder} (hbs : ∀ b ∈ bs, b.name ∈ names)
    {images images' : Registry Name Name} (hi : images.Renamed f names images') :
    SameEnd (Registry.Renamed f names) ((ofTheory t claim limit).checkImages label s bs images)
      ((ofTheory (t.replace g) claim limit).checkImages label s' (bs.map (Binder.rename f))
        images') := by
  induction bs generalizing images images' with
  | nil => exact .ok hi
  | cons b bs ih =>
    obtain ⟨hb, hbs⟩ := List.forall_mem_cons.mp hbs
    rw [List.map_cons, checkImages, checkImages]
    refine (image_rename hf hs hb).bind ?_
    rintro e _ rfl
    rw [(sameClaim_replace t g claim limit).sortOf]
    refine (SameEnd.refl _).bind ?_
    rintro sort _ rfl
    rw [show (b.rename f).sort = b.sort from rfl, show (b.rename f).bound = b.bound from rfl]
    split
    · exact .error rfl
    · split
      · refine (boundImage_rename hi b e).bind ?_
        rintro x _ rfl
        exact ih hbs (hi.insert hf hb x)
      · exact ih hbs hi

theorem allowed_rename (hf : Separates f names) {images images' : Registry Name Name}
    (hi : images.Renamed f names images') {b : Binder} (hb : ∀ d ∈ b.deps, d ∈ names) :
    allowed images' (b.rename f) = allowed images b := by
  rw [allowed, allowed, Binder.rename, List.filterMap_map]
  exact List.filterMap_congr fun d hd => hi.get? hf (hb d hd)

theorem checkDisjoint_rename (hf : Separates f names) {s s' : Substitution}
    (hs : s.Renamed f names s') {images images' : Registry Name Name}
    (hi : images.Renamed f names images') {bs : List Binder} (hbs : ∀ b ∈ bs, b.name ∈ names)
    (hdeps : ∀ b ∈ bs, ∀ d ∈ b.deps, d ∈ names) :
    SameEnd Eq ((ofTheory t claim limit).checkDisjoint label s images bs)
      ((ofTheory (t.replace g) claim limit).checkDisjoint label s' images'
        (bs.map (Binder.rename f))) := by
  induction bs with
  | nil => exact .ok rfl
  | cons b bs ih =>
    obtain ⟨hb, hbs⟩ := List.forall_mem_cons.mp hbs
    obtain ⟨hd, hdeps⟩ := List.forall_mem_cons.mp hdeps
    rw [List.map_cons, checkDisjoint, checkDisjoint, show (b.rename f).bound = b.bound from rfl]
    split
    · exact ih hbs hdeps
    · refine (image_rename hf hs hb).bind ?_
      rintro e _ rfl
      have hoffence : (ofTheory (t.replace g) claim limit).firstOffence images' (b.rename f) e =
          (ofTheory t claim limit).firstOffence images b e := by
        rw [firstOffence, firstOffence, allowed_rename hf hi hd]
        rfl
      rw [hoffence]
      split
      · exact .error rfl
      · exact ih hbs hdeps

/-- What a step relies on in the names of an assertion: they stand for its binders. -/
structure NamedBy (names : List Name) (a : Assertion) : Prop where
  binders : ∀ b ∈ a.binders, b.name ∈ names
  deps : ∀ b ∈ a.binders, ∀ d ∈ b.deps, d ∈ names
  hypotheses : ∀ h ∈ a.hypotheses, ∀ x ∈ h.formula.vars, x ∈ names
  conclusion : ∀ x ∈ a.conclusion.vars, x ∈ names

theorem namedBy_of_wellFormed {a : Assertion} (h : a.WellFormed t.signature) :
    NamedBy (a.binders.map Binder.name) a := by
  refine ⟨fun b hb => List.mem_map_of_mem hb, fun b hb d hd => ?_, fun i hi x hx => ?_,
    fun x hx => ?_⟩
  · obtain ⟨c, hc, _, rfl⟩ := Binder.mem_boundNames.mp (h.deps b hb d hd)
    exact List.mem_map_of_mem hc
  · obtain ⟨b, hb, rfl⟩ := h.hypothesis_vars hi x hx
    exact List.mem_map_of_mem hb
  · obtain ⟨b, hb, rfl⟩ := h.conclusion_vars x hx
    exact List.mem_map_of_mem hb

theorem checkSubstitution_rename (hf : Separates f names) {a : Assertion} (ha : NamedBy names a)
    {s s' : Substitution} (hs : s.Renamed f names s') :
    SameEnd Eq ((ofTheory t claim limit).checkSubstitution a s)
      ((ofTheory (t.replace g) claim limit).checkSubstitution (a.rename f) s') :=
  (checkImages_rename hf hs ha.binders .empty).bind fun _ _ hi =>
    checkDisjoint_rename hf hs hi ha.binders ha.deps

theorem conclude_rename (hf : Separates f names) {a : Assertion} (ha : NamedBy names a)
    {s s' : Substitution} (hs : s.Renamed f names s')
    (hg : a.conclusion.isGround s = true) (goal : Option Expr) :
    (ofTheory (t.replace g) claim limit).conclude (a.rename f) s' goal =
      (ofTheory t claim limit).conclude a s goal := by
  have hproved : (a.rename f).conclusion.subst s' = a.conclusion.subst s :=
    Expr.subst_rename hs hf ha.conclusion hg
  rw [conclude, conclude, hproved]
  rfl

/-! A step, and a proof. -/

theorem applyStep_inStep (hc : ∀ p goal, (check p goal).InStep Eq (check' p goal))
    (hresolve : SameEnd (fun a a' => a.WellFormed t.signature ∧ a.IsVariant a')
      ((ofTheory t claim limit).resolve label) ((ofTheory (t.replace g) claim limit).resolve label))
    (items : List ProofTerm) (goal : Option Expr) :
    ((ofTheory t claim limit).applyStep check label items goal).InStep Eq
      ((ofTheory (t.replace g) claim limit).applyStep check' label items goal) := by
  refine (Traced.InStep.ofExcept hresolve).bind ?_
  rintro a _ ⟨hwf, f, hf, rfl⟩
  have ha := namedBy_of_wellFormed hwf
  rw [splitItems_rename]
  refine (Traced.InStep.ofExcept (SameEnd.refl _)).bind ?_
  rintro ⟨args, proofs⟩ _ rfl
  refine (Traced.InStep.ofExcept (arguments_rename hf ha.binders args .empty)).bind ?_
  intro given given' hgiven
  refine .optional (.examine (Expr.isTooDeep_rename f a.conclusion).symm) ?_
  refine (Traced.InStep.ofExcept (unifyGoal_rename hf ha.conclusion hgiven goal)).bind ?_
  intro known known' hknown
  have hpending : PendingProof.ofItems 1 (a.rename f).hypotheses proofs =
      (PendingProof.ofItems 1 a.hypotheses proofs).map (PendingProof.rename f) :=
    PendingProof.ofItems_rename f 1 a.hypotheses proofs
  have hclosed : ∀ p ∈ PendingProof.ofItems 1 a.hypotheses proofs,
      ∀ x ∈ p.hypothesis.vars, x ∈ a.binders.map Binder.name := by
    intro p hp
    obtain ⟨_, _, h, hh, he⟩ := PendingProof.of_mem_ofItems hp
    exact he ▸ ha.hypotheses h hh
  rw [hpending]
  refine (rounds_inStep hc hf proofs.length hclosed hknown).bind ?_
  rintro ⟨rest, s⟩ ⟨rest', s'⟩ ⟨hrest, -, hs⟩
  dsimp only at hrest hs
  cases hrest
  refine (Traced.InStep.ofExcept (settled_rename hf ha.binders hs rest)).bind ?_
  intro _ _ hcovered
  refine (Traced.InStep.examineAll ?_).bind fun _ _ _ => ?_
  · rw [Assertion.rename, List.filterMap_map]
    exact List.filterMap_congr fun b hb => (hs.get? hf (ha.binders b hb)).symm
  · refine (Traced.InStep.ofExcept (checkSubstitution_rename hf ha hs)).bind fun _ _ _ => ?_
    rw [conclude_rename hf ha hs (Expr.isGround_of_binders hwf.conclusion_vars hcovered)]
    exact .refl _

/-- By induction on the nesting of proofs that is left. -/
theorem check_inStep
    (hresolve : ∀ label, SameEnd (fun a a' => a.WellFormed t.signature ∧ a.IsVariant a')
      ((ofTheory t claim limit).resolve label) ((ofTheory (t.replace g) claim limit).resolve label))
    (n : Nat) (p : ProofTerm) (goal : Option Expr) :
    ((ofTheory t claim limit).check n p goal).InStep Eq
      ((ofTheory (t.replace g) claim limit).check n p goal) := by
  have hhypotheses : (ofTheory (t.replace g) claim limit).hypotheses =
      (ofTheory t claim limit).hypotheses := rfl
  induction n generalizing p goal with
  | zero => exact .refl _
  | succ n ih =>
    have hstep (name : String) (items : List ProofTerm) :=
      applyStep_inStep ih (hresolve (.text name)) items goal
    cases p with
    | ref name position =>
      rw [check, check, hhypotheses]
      cases (ofTheory t claim limit).hypotheses.get? name with
      | some proved => exact .refl _
      | none => exact hstep name []
    | app name items position =>
      rw [check, check, hhypotheses]
      split
      · exact .refl _
      · exact hstep name items
    | expr e => exact .refl _
    | hole => exact .refl _

end ProofContext

/-- New names for the variables of an assertion, different ones for different variables. They may
be names that stand for something else in the theorems that apply the assertion. -/
structure Renaming where
  target : Assertion
  newName : Name → Name
  separates : Separates newName (target.binders.map Binder.name)

namespace Renaming

variable (ρ : Renaming)

def assertion (a : Assertion) : Assertion := if a = ρ.target then a.rename ρ.newName else a

def theory (t : Theory) : Theory := t.replace ρ.assertion

theorem assertion_of_ne {a : Assertion} (h : a ≠ ρ.target) : ρ.assertion a = a := if_neg h

theorem label_assertion (a : Assertion) : (ρ.assertion a).label = a.label := by
  unfold assertion
  split <;> rfl

theorem kind_assertion (a : Assertion) : (ρ.assertion a).kind = a.kind := by
  unfold assertion
  split <;> rfl

theorem isVariant_assertion (a : Assertion) : a.IsVariant (ρ.assertion a) := by
  unfold assertion
  split
  · rename_i ha
    exact ⟨ρ.newName, ha ▸ ρ.separates, rfl⟩
  · exact ⟨id, separates_id _, a.rename_id.symm⟩

variable {ρ} {t : Theory}

theorem checkAt_inStep (ht : t.isWellFormed = true) (claim : Assertion) (limit depth : Int)
    (p : ProofTerm) (goal : Option Expr) :
    ((ProofContext.ofTheory t claim limit).checkAt depth p goal).InStep Eq
      ((ProofContext.ofTheory (ρ.theory t) claim limit).checkAt depth p goal) := by
  refine ProofContext.check_inStep (fun label => ?_) _ p goal
  rw [ProofContext.resolve_replace ρ.label_assertion]
  cases h : (ProofContext.ofTheory t claim limit).resolve label with
  | error failure => exact .error rfl
  | ok a => exact .ok ⟨ProofContext.wellFormed_of_resolve ht h, ρ.isVariant_assertion a⟩

theorem keyword_verifyLabel (ht : t.isWellFormed = true) (proofs : ProofFile) (limit : Int)
    (claim : Assertion) :
    ((ρ.theory t).verifyLabel proofs limit claim).2.keyword =
      (t.verifyLabel proofs limit claim).2.keyword := by
  unfold Theory.verifyLabel
  cases proofs.get? claim.label with
  | none => rfl
  | some decl =>
    have hsame := (checkAt_inStep (ρ := ρ) ht claim limit 0 decl.proof claim.conclusion).cutOff
    have hverified := Theory.verified_iff.trans (hsame.exists_ok_iff.symm.trans
      Theory.verified_iff.symm)
    rw [Theory.keyword_verifyTheorem, Theory.keyword_verifyTheorem]
    exact if_congr hverified rfl rfl

/-- The verdicts on the theorems of other labels, in order. -/
def others (label : Name) (outcomes : List Outcome) : List (Name × String) :=
  (outcomes.filter (·.label ≠ label)).map fun o => (o.label, o.verdict.keyword)

theorem others_outcomes (ht : t.isWellFormed = true) (proofs : ProofFile) (limit : Int) :
    others ρ.target.label ((ρ.theory t).verify proofs limit).2.outcomes =
      others ρ.target.label (t.verify proofs limit).2.outcomes := by
  simp only [others, Theory.verify, theory, Theory.theorems_replace ρ.kind_assertion, List.map_map,
    List.filter_map, Function.comp_def, label_assertion]
  refine List.map_congr_left fun claim hclaim => ?_
  have hne : claim ≠ ρ.target := by
    rintro rfl
    simp at hclaim
  rw [ρ.assertion_of_ne hne]
  exact congrArg _ (keyword_verifyLabel ht proofs limit claim)

/-- Whatever names the variables of an assertion are given, every proof of every other theorem comes
to the same end, with any goal and at any depth, and so does the verification of that theorem. -/
theorem same_ends (ρ : Renaming) (ht : t.isWellFormed = true) :
    (∀ claim limit depth p goal,
      ((ProofContext.ofTheory t claim limit).checkAt depth p goal).SameEnds
        ((ProofContext.ofTheory (ρ.theory t) claim limit).checkAt depth p goal)) ∧
    ∀ proofs limit,
      others ρ.target.label ((ρ.theory t).verify proofs limit).2.outcomes =
        others ρ.target.label (t.verify proofs limit).2.outcomes :=
  ⟨fun claim limit depth p goal => (checkAt_inStep ht claim limit depth p goal).sameEnds,
    others_outcomes ht⟩

end Renaming

namespace Generalization

/-- The variables of the rule take the names that the variables of a theorem have, crosswise. -/
def crossed : Renaming :=
  ⟨rule, fun x => if x = "x" then "q" else if x = "p" then "y" else x, by decide⟩

theorem crossed_same_ends :
    theory.isWellFormed = true ∧
      ((ProofContext.ofTheory (crossed.theory theory) repeated 10).checkAt 0 byRule
        (some repeated.conclusion)).result = .ok repeated.conclusion ∧
      Renaming.others "gen" ((crossed.theory theory).verify proofs 10).2.outcomes =
        [(.text "gen_again", "verified"), (.text "gen_id", "verified")] := by
  have hsame := Renaming.same_ends crossed theory_isWellFormed
  have hverified : Renaming.others "gen" (theory.verify proofs 10).2.outcomes =
      [(.text "gen_again", "verified"), (.text "gen_id", "verified")] := by decide
  refine ⟨theory_isWellFormed, ?_, (hsame.2 proofs 10).trans hverified⟩
  exact (hsame.1 repeated 10 0 byRule (some repeated.conclusion)).unbounded.eq_ok rfl

end Generalization
end Deductive
