import Deductive.Proofs.Context
import Deductive.Proofs.Matching
import Deductive.Proofs.Steps
import Deductive.Proofs.Texts
import Deductive.Report

/-!
What is said while the proofs of a theory are checked. Where all names are of a kind, so are those of
whatever a step proves and of whatever is said of a failure.
-/
namespace Deductive

variable {P : Name → Prop}

section Kinds

variable (P : Name → Prop)

/-- All names of the expressions that are put in are of the kind. -/
def Substitution.AllNames (s : Substitution) : Prop := ∀ x e, s.get? x = some e → e.AllNames P

/-- All names of the expressions among the items are of the kind. -/
def ProofTerm.AllNames (p : ProofTerm) : Prop := ∀ e ∈ p.formulas, e.AllNames P

/-- All names that are said of a failure, and all names of the expressions that it shows. -/
structure ProofFailure.AllNames (sig : Signature) (failure : ProofFailure) : Prop where
  phrase : (failure.phrase sig).AllNames P
  shown : ∀ e ∈ failure.shown, e.AllNames P

def ProofEvent.AllNames (event : ProofEvent) : Prop := ∀ e ∈ event.shown, e.AllNames P

/-- A value of a kind, or a failure of which only names of the kind are said. -/
def EndsInNames {α : Type} (sig : Signature) (Q : α → Prop) : Except ProofFailure α → Prop
  | .ok a => Q a
  | .error failure => failure.AllNames P sig

/-- All that is said in a run has names of the kind, and its result is of a kind. -/
structure Traced.Shows {α : Type} (sig : Signature) (Q : α → Prop) (t : Traced α) : Prop where
  events : ∀ event ∈ t.events, event.AllNames P
  result : EndsInNames P sig Q t.result

end Kinds

namespace Expr

theorem AllNames.subst {s : Substitution} (hs : s.AllNames P) {e : Expr} (h : e.AllNames P) :
    (e.subst s).AllNames P := by
  induction h with
  | @var x name =>
    rw [Expr.subst]
    cases hx : s.get? x with
    | none => exact .var name
    | some image => exact hs x image hx
  | app name _ ih =>
    rw [subst_app]
    exact .app name (List.forall_mem_map.mpr ih)

/-- What is put in for a variable is a part of the result. -/
theorem AllNames.image {s : Substitution} {e : Expr} (h : (e.subst s).AllNames P) {x : Name}
    (hx : x ∈ e.vars) {image : Expr} (himage : s.get? x = some image) : image.AllNames P := by
  induction e with
  | var y =>
    obtain rfl := List.mem_singleton.mp hx
    rwa [subst_var himage] at h
  | app f args ih =>
    rw [subst_app, allNames_app, List.forall_mem_map] at h
    obtain ⟨a, ha, hx⟩ := mem_vars_app.mp hx
    exact ih a ha (h.2 a ha) hx

/-- Matching puts in parts of the target. -/
theorem IsMatch.allNames {s s' : Substitution} {pattern target : Expr}
    (h : IsMatch s pattern target s') (hs : s.AllNames P) (htarget : target.AllNames P) :
    s'.AllNames P := by
  intro x e hx
  have hcontains : s'.contains x = true := Registry.contains_iff.mpr ⟨e, hx⟩
  rcases h.domain x hcontains with hold | hnew
  · obtain ⟨e', he'⟩ := Registry.contains_iff.mp hold
    obtain rfl := Option.some.inj ((h.extends_start x e' he').symm.trans hx)
    exact hs x e' he'
  · rw [← h.subst_eq] at htarget
    exact htarget.image hnew hx

end Expr

namespace Substitution

theorem empty_allNames : AllNames P .empty := nofun

theorem AllNames.insert {s : Substitution} (h : s.AllNames P) {e : Expr} (he : e.AllNames P)
    (x : Name) : AllNames P (Registry.insert s x e) :=
  Draft.forall_insert he h

theorem AllNames.values {s : Substitution} (h : s.AllNames P) :
    ∀ e ∈ Registry.values s, e.AllNames P := by
  intro e he
  obtain ⟨x, hx⟩ := Registry.mem_values_iff.mp he
  exact h x e hx

end Substitution

theorem EndsInNames.bind {sig : Signature} {α β : Type} {Q : α → Prop} {R : β → Prop}
    {x : Except ProofFailure α} {f : α → Except ProofFailure β} (h : EndsInNames P sig Q x)
    (hf : ∀ a, Q a → EndsInNames P sig R (f a)) : EndsInNames P sig R (x >>= f) := by
  cases x with
  | ok a => exact hf a h
  | error failure => exact h

namespace Traced.Shows

variable {sig : Signature} {α β : Type} {Q : α → Prop} {R : β → Prop}

theorem pure {a : α} (h : Q a) : Shows P sig Q (pure a : Traced α) := ⟨nofun, h⟩

theorem fail {failure : ProofFailure} (h : failure.AllNames P sig) :
    Shows P sig Q (Traced.fail failure : Traced α) :=
  ⟨nofun, h⟩

theorem ofExcept {x : Except ProofFailure α} (h : EndsInNames P sig Q x) :
    Shows P sig Q (ofExcept x) :=
  ⟨nofun, h⟩

theorem note {event : ProofEvent} (h : event.AllNames P) :
    Shows P sig (fun _ => True) (note event) :=
  ⟨List.forall_mem_singleton.mpr h, trivial⟩

theorem examine (e : Expr) : Shows P sig (fun _ => True) (examine e) := note nofun

theorem examineAll (es : List Expr) : Shows P sig (fun _ => True) (examineAll es) :=
  ⟨List.forall_mem_map.mpr fun _ _ => nofun, trivial⟩

theorem after {events : List ProofEvent} {t : Traced α}
    (hevents : ∀ event ∈ events, event.AllNames P) (h : Shows P sig Q t) :
    Shows P sig Q (t.after events) :=
  ⟨List.forall_mem_append.mpr ⟨hevents, h.events⟩, h.result⟩

theorem bind {t : Traced α} {f : α → Traced β} (h : Shows P sig Q t)
    (hf : ∀ a, Q a → Shows P sig R (f a)) : Shows P sig R (t >>= f) := by
  obtain ⟨events, result⟩ := t
  obtain ⟨hevents, hresult⟩ := h
  cases result with
  | ok a => exact (hf a hresult).after hevents
  | error failure => exact ⟨hevents, hresult⟩

theorem optional {c : Prop} [Decidable c] {x : Traced Unit} {f : Unit → Traced β}
    (hx : Shows P sig (fun _ => True) x) (hf : Shows P sig R (f ())) :
    Shows P sig R (if c then x >>= f else f ()) := by
  split
  · exact hx.bind fun _ _ => hf
  · exact hf

/-- A run that is cut off ends in a failure that shows nothing. -/
theorem cutOff {t : Traced α} (h : Shows P sig Q t) : Shows P sig Q t.cutOff := by
  have hdeep : EndsInNames P sig Q (.error .tooDeep : Except ProofFailure α) :=
    ⟨List.forall_mem_nil _, List.forall_mem_nil _⟩
  unfold Traced.cutOff
  split
  · exact ⟨fun event he => h.events event ((List.takeWhile_sublist _).subset he), hdeep⟩
  · split
    · exact h
    · split
      · exact ⟨h.events, hdeep⟩
      · exact h

end Traced.Shows

/-- All names of what a proof may use are of the kind. -/
structure ProofContext.AllNames (P : Name → Prop) (ctx : ProofContext) : Prop where
  signature : ctx.signature.AllNames P
  label : P ctx.claim.label
  available : ∀ label a, ctx.available.get? label = some a → a.AllNames P
  binders : ∀ x b, ctx.binders.get? x = some b → b.AllNames P
  hypotheses : ∀ name e, ctx.hypotheses.get? name = some e → e.AllNames P

namespace ProofContext

variable {ctx : ProofContext}

section Parts

variable (hctx : ctx.AllNames P)
include hctx

/-! The parts of a step that are decided without a proof. -/

mutual

theorem sortOf_ends : (e : Expr) → e.AllNames P → EndsInNames P ctx.signature P (ctx.sortOf e)
  | .var x, h => by
    rw [sortOf]
    split
    · rename_i b hb
      exact (hctx.binders x b hb).sort
    · exact ⟨by simp [ProofFailure.phrase, Expr.allNames_var.mp h, hctx.label], List.forall_mem_nil _⟩
  | .app f args, h => by
    obtain ⟨hf, hargs⟩ := Expr.allNames_app.mp h
    rw [sortOf]
    split
    · exact ⟨by simp [ProofFailure.phrase, hf], List.forall_mem_nil _⟩
    · rename_i term hterm
      have hterm := (hctx.signature.terms f term hterm).2
      split
      · have harguments := sortArguments_ends f hf args term.binders hargs hterm.binders
        split
        · exact hterm.result _ List.mem_cons_self
        · rename_i failure hfailure
          rwa [hfailure] at harguments
      · exact ⟨by simp [ProofFailure.phrase, hf], List.forall_mem_nil _⟩

theorem sortArguments_ends (f : Name) (hf : P f) : (args : List Expr) → (params : List Binder) →
    (∀ a ∈ args, a.AllNames P) → (∀ b ∈ params, b.AllNames P) →
    EndsInNames P ctx.signature (fun _ => True) (ctx.sortArguments f args params)
  | [], _, _, _ => trivial
  | _ :: _, [], _, _ => trivial
  | arg :: args, param :: params, h, hparams => by
    obtain ⟨harg, hargs⟩ := List.forall_mem_cons.mp h
    obtain ⟨hparam, hparams⟩ := List.forall_mem_cons.mp hparams
    have hsort := sortOf_ends arg harg
    have hphrase := harg.phrase hctx.signature
    have hshown : ∀ e ∈ [arg], e.AllNames P := List.forall_mem_singleton.mpr harg
    rw [sortArguments]
    split
    · rename_i failure hfailure
      rwa [hfailure] at hsort
    · split
      · exact ⟨by simp [ProofFailure.phrase, hphrase, hf, hparam.sort], hshown⟩
      · split
        · exact ⟨by simp [ProofFailure.phrase, hphrase, hf], hshown⟩
        · exact sortArguments_ends f hf args params hargs hparams

end

omit hctx in
theorem image_ends {sig : Signature} {s : Substitution} (hs : s.AllNames P) {b : Binder}
    (hb : b.AllNames P) : EndsInNames P sig (Expr.AllNames P) (image s b) := by
  unfold image
  split
  · rename_i e he
    exact hs b.name e he
  · exact ⟨by simp [ProofFailure.phrase, hb.name], List.forall_mem_nil _⟩

theorem boundImage_ends {assertion : Name} (ha : P assertion) {b : Binder}
    (hb : b.AllNames P) (images : Registry Name Name) {e : Expr} (he : e.AllNames P) :
    EndsInNames P ctx.signature (fun _ => True) (ctx.boundImage assertion b images e) := by
  have hnotBound : (ProofFailure.imageNotBound assertion b.name e).AllNames P ctx.signature :=
    ⟨by simp [ProofFailure.phrase, he.phrase hctx.signature, ha, hb.name],
      List.forall_mem_singleton.mpr he⟩
  unfold boundImage
  split
  · exact hnotBound
  · rename_i x
    split
    · exact hnotBound
    · split
      · exact ⟨by simp [ProofFailure.phrase, ha, Expr.allNames_var.mp he], List.forall_mem_nil _⟩
      · trivial

theorem checkImages_ends {assertion : Name} (ha : P assertion) {s : Substitution}
    (hs : s.AllNames P) {bs : List Binder} (hbs : ∀ b ∈ bs, b.AllNames P)
    (images : Registry Name Name) :
    EndsInNames P ctx.signature (fun _ => True) (ctx.checkImages assertion s bs images) := by
  induction bs generalizing images with
  | nil => trivial
  | cons b bs ih =>
    obtain ⟨hb, hbs⟩ := List.forall_mem_cons.mp hbs
    apply (image_ends hs hb).bind
    intro e he
    apply (sortOf_ends hctx e he).bind
    intro sort hsort
    split
    · refine ⟨?_, List.forall_mem_singleton.mpr he⟩
      simp [ProofFailure.phrase, he.phrase hctx.signature, ha, hb.name,
        hb.sort, hsort]
    · split
      · apply (boundImage_ends hctx ha hb images he).bind
        intro x _
        exact ih hbs _
      · exact ih hbs images

/-- What a variable brings with it is its name, or what its binder depends on. -/
theorem firstOffence_name {images : Registry Name Name} {b : Binder} {e : Expr}
    (he : e.AllNames P) {x : Name} (hx : ctx.firstOffence images b e = some x) : P x := by
  obtain ⟨y, hy, hx⟩ := List.exists_of_findSome?_eq_some hx
  have hcarried := (List.mem_filter.mp (Name.mem_of_least? hx)).1
  unfold carried at hcarried
  split at hcarried
  · rename_i binder hbinder
    split at hcarried
    · obtain rfl := List.mem_singleton.mp hcarried
      exact Expr.allNames_iff.mp he x (List.mem_append_left _ hy)
    · exact (hctx.binders y binder hbinder).deps x hcarried
  · cases hcarried

theorem checkDisjoint_ends {assertion : Name} (ha : P assertion) {s : Substitution}
    (hs : s.AllNames P) (images : Registry Name Name) {bs : List Binder}
    (hbs : ∀ b ∈ bs, b.AllNames P) :
    EndsInNames P ctx.signature (fun _ => True) (ctx.checkDisjoint assertion s images bs) := by
  induction bs with
  | nil => trivial
  | cons b bs ih =>
    obtain ⟨hb, hbs⟩ := List.forall_mem_cons.mp hbs
    rw [checkDisjoint]
    split
    · exact ih hbs
    · apply (image_ends hs hb).bind
      intro e he
      split
      · rename_i x hx
        have hx := firstOffence_name hctx he hx
        exact ⟨by simp [ProofFailure.phrase, ha, hx, hb.name], List.forall_mem_nil _⟩
      · exact ih hbs

theorem checkSubstitution_ends {a : Assertion} (ha : a.AllNames P) {s : Substitution}
    (hs : s.AllNames P) :
    EndsInNames P ctx.signature (fun _ => True) (ctx.checkSubstitution a s) := by
  apply (checkImages_ends hctx ha.label hs ha.binders .empty).bind
  intro images _
  exact checkDisjoint_ends hctx ha.label hs images ha.binders

theorem resolve_ends {label : Name} (hlabel : P label) :
    EndsInNames P ctx.signature (Assertion.AllNames P) (ctx.resolve label) := by
  unfold resolve
  split
  · rename_i a ha
    exact hctx.available label a ha
  · split
    · exact ⟨by simp [ProofFailure.phrase, hlabel, hctx.label], List.forall_mem_nil _⟩
    · exact ⟨by simp [ProofFailure.phrase, hlabel], List.forall_mem_nil _⟩

omit hctx in
theorem argument_ends (texts : ∀ s : String, P s) {sig : Signature} {assertion : Name}
    (ha : P assertion) {item : ProofTerm} (h : item.AllNames P) :
    EndsInNames P sig (fun e? => ∀ e, e? = some e → e.AllNames P) (ctx.argument assertion item) := by
  cases item with
  | expr e =>
    intro e' he'
    cases he'
    exact h e List.mem_cons_self
  | hole =>
    intro e he
    cases he
  | ref name position =>
    intro e he
    cases he
    split
    · exact .app (texts name) (List.forall_mem_nil _)
    · exact .var (texts name)
  | app name items position => exact ⟨by simp [ProofFailure.phrase, ha], List.forall_mem_nil _⟩

omit hctx in
theorem arguments_ends (texts : ∀ s : String, P s) {sig : Signature} {assertion : Name}
    (ha : P assertion) (bs : List Binder) {items : List ProofTerm}
    (hitems : ∀ p ∈ items, p.AllNames P) {s : Substitution} (hs : s.AllNames P) :
    EndsInNames P sig (Substitution.AllNames P) (ctx.arguments assertion bs items s) := by
  induction bs generalizing items s with
  | nil => exact hs
  | cons b bs ih =>
    cases items with
    | nil => exact hs
    | cons item items =>
      obtain ⟨hitem, hitems⟩ := List.forall_mem_cons.mp hitems
      apply (argument_ends texts ha hitem).bind
      intro e? he?
      cases e? with
      | some e => exact ih hitems (hs.insert (he? e rfl) b.name)
      | none => exact ih hitems hs

omit hctx in
theorem splitItems_ends {sig : Signature} {a : Assertion} (ha : a.AllNames P)
    {items : List ProofTerm} (h : ∀ p ∈ items, p.AllNames P) :
    EndsInNames P sig
      (fun parts => (∀ p ∈ parts.1, p.AllNames P) ∧ ∀ p ∈ parts.2, p.AllNames P)
      (splitItems a items) := by
  unfold splitItems
  split
  · rw [List.splitAt_eq]
    exact ⟨fun p hp => h p (List.mem_of_mem_take hp), fun p hp => h p (List.mem_of_mem_drop hp)⟩
  · split
    · exact ⟨nofun, h⟩
    · exact ⟨by simp [ProofFailure.phrase, ha.label], List.forall_mem_nil _⟩

omit hctx in
theorem unify_ends {sig : Signature} (hsig : sig.AllNames P) {assertion : Name} (ha : P assertion)
    (part : MatchPart) {pattern target : Expr} (hpattern : pattern.AllNames P)
    (htarget : target.AllNames P) {s : Substitution} (hs : s.AllNames P) :
    EndsInNames P sig (Substitution.AllNames P) (unify assertion part pattern target s) := by
  unfold unify
  split
  · rename_i s' hmatch
    exact (Expr.matchWith_sound pattern target hmatch).allNames hs htarget
  · refine ⟨?_, List.forall_mem_cons.mpr ⟨hpattern, List.forall_mem_cons.mpr ⟨htarget, hs.values⟩⟩⟩
    simp [ProofFailure.phrase, ha, hpattern.phrase hsig, htarget.phrase hsig]

/-- The names of the goal of a proof, if it has one, are of the kind. -/
def GoalAllNames (P : Name → Prop) (goal : Option Expr) : Prop := ∀ g, goal = some g → g.AllNames P

omit hctx in
theorem goalAllNames_none : GoalAllNames P none := nofun

omit hctx in
theorem goalAllNames_some {g : Expr} (h : g.AllNames P) : GoalAllNames P (some g) := by
  intro g' hg
  cases hg
  exact h

omit hctx in
theorem unifyGoal_ends {sig : Signature} (hsig : sig.AllNames P) {a : Assertion}
    (ha : a.AllNames P) {goal : Option Expr} (hgoal : GoalAllNames P goal) {s : Substitution}
    (hs : s.AllNames P) :
    EndsInNames P sig (Substitution.AllNames P) (unifyGoal a goal s) := by
  cases goal with
  | none => exact hs
  | some g => exact unify_ends hsig ha.label _ ha.conclusion (hgoal g rfl) hs

end Parts

/-! Whole steps. -/

/-- Proofs with names of the kind are checked with such names only. -/
def ShowsNames (P : Name → Prop) (sig : Signature) (check : ProofCheck) : Prop :=
  ∀ p goal, p.AllNames P → GoalAllNames P goal → (check p goal).Shows P sig (Expr.AllNames P)

/-- The names of the hypothesis and of the proof are of the kind. -/
structure PendingAllNames (P : Name → Prop) (p : PendingProof) : Prop where
  hypothesis : p.hypothesis.AllNames P
  proof : p.proof.AllNames P

theorem pendingAllNames_ofItems {n : Nat} {hs : List Hypothesis} {proofs : List ProofTerm}
    (hhs : ∀ h ∈ hs, h.formula.AllNames P) (hproofs : ∀ p ∈ proofs, p.AllNames P) :
    ∀ p ∈ PendingProof.ofItems n hs proofs, PendingAllNames P p := by
  induction hs generalizing n proofs with
  | nil => nofun
  | cons h hs ih =>
    cases proofs with
    | nil => nofun
    | cons p ps =>
      obtain ⟨hh, hhs⟩ := List.forall_mem_cons.mp hhs
      obtain ⟨hp, hps⟩ := List.forall_mem_cons.mp hproofs
      exact List.forall_mem_cons.mpr ⟨⟨hh, hp⟩, ih hhs hps⟩

/-- What a round leaves. -/
structure RoundAllNames (P : Name → Prop) (r : List PendingProof × Substitution) : Prop where
  pending : ∀ p ∈ r.1, PendingAllNames P p
  substitution : r.2.AllNames P

theorem RoundAllNames.cons {p : PendingProof} (hp : PendingAllNames P p)
    {r : List PendingProof × Substitution} (h : RoundAllNames P r) :
    RoundAllNames P (p :: r.1, r.2) :=
  ⟨List.forall_mem_cons.mpr ⟨hp, h.pending⟩, h.substitution⟩

section Rounds

variable {sig : Signature} (hsig : sig.AllNames P) {check : ProofCheck}
  (hcheck : ShowsNames P sig check) {label : Name} (hlabel : P label)
include hsig hcheck hlabel

theorem round_shows {ps : List PendingProof} (hps : ∀ p ∈ ps, PendingAllNames P p)
    {s : Substitution} (hs : s.AllNames P) :
    (round check label ps s).Shows P sig (RoundAllNames P) := by
  induction ps generalizing s with
  | nil => exact .pure ⟨List.forall_mem_nil _, hs⟩
  | cons p ps ih =>
    obtain ⟨hp, hps⟩ := List.forall_mem_cons.mp hps
    rw [round]
    apply (Traced.Shows.examine p.hypothesis).bind
    intro _ _
    split
    · apply (hcheck p.proof _ hp.proof (goalAllNames_some (hp.hypothesis.subst hs))).bind
      intro _ _
      exact ih hps hs
    · split
      · apply (ih hps hs).bind
        intro r hr
        exact .pure (hr.cons hp)
      · obtain ⟨hevents, hresult⟩ := hcheck p.proof none hp.proof goalAllNames_none
        dsimp only
        split
        · rename_i proved hproved
          rw [hproved] at hresult
          apply Traced.Shows.after hevents
          have hunify := unify_ends hsig hlabel s!"hypothesis {p.number}" hp.hypothesis hresult hs
          apply (Traced.Shows.ofExcept hunify).bind
          intro s' hs'
          exact ih hps hs'
        · rename_i failure hfailure
          rw [hfailure] at hresult
          split
          · apply Traced.Shows.after hevents
            apply (ih hps hs).bind
            intro r hr
            have hwaits : PendingAllNames P { p with tried := true } := ⟨hp.hypothesis, hp.proof⟩
            exact .pure (hr.cons hwaits)
          · exact ⟨hevents, hresult⟩

theorem rounds_shows (n : Nat) {ps : List PendingProof} (hps : ∀ p ∈ ps, PendingAllNames P p)
    {s : Substitution} (hs : s.AllNames P) :
    (rounds check label n ps s).Shows P sig (RoundAllNames P) := by
  induction n generalizing ps s with
  | zero => exact .pure ⟨hps, hs⟩
  | succ n ih =>
    rw [rounds]
    apply (round_shows hsig hcheck hlabel hps hs).bind
    intro r hr
    dsimp only
    split
    · exact ih hr.pending hr.substitution
    · exact .pure hr

end Rounds

theorem settled_ends {sig : Signature} (hsig : sig.AllNames P) {a : Assertion} (ha : a.AllNames P)
    {pending : List PendingProof} (hpending : ∀ p ∈ pending, PendingAllNames P p)
    (s : Substitution) : EndsInNames P sig (fun _ => True) (settled a pending s) := by
  unfold settled
  split
  · rename_i b hb
    have hb := (ha.binders b (List.mem_of_find?_eq_some hb)).name
    exact ⟨by simp [ProofFailure.phrase, ha.label, hb], List.forall_mem_nil _⟩
  · split
    · have hhypothesis := (hpending _ List.mem_cons_self).hypothesis
      refine ⟨?_, List.forall_mem_singleton.mpr hhypothesis⟩
      simp [ProofFailure.phrase, ha.label, hhypothesis.phrase hsig]
    · trivial

section Steps

variable (texts : ∀ s : String, P s) (hctx : ctx.AllNames P)
include hctx

theorem conclude_shows {a : Assertion} (ha : a.AllNames P) {s : Substitution} (hs : s.AllNames P)
    {goal : Option Expr} (hgoal : GoalAllNames P goal) :
    (ctx.conclude a s goal).Shows P ctx.signature (Expr.AllNames P) := by
  have hproved := ha.conclusion.subst hs
  unfold conclude
  dsimp only
  split
  · rename_i expected hexpected
    have hexpected := hgoal expected (Option.filter_eq_some_iff.mp hexpected).1
    refine .fail ⟨?_, List.forall_mem_cons.mpr ⟨hproved, List.forall_mem_singleton.mpr hexpected⟩⟩
    simp [ProofFailure.phrase, ha.label, hproved.phrase hctx.signature,
      hexpected.phrase hctx.signature]
  · have hevent :
        (ProofEvent.proves ctx.claim.label a.label (a.conclusion.subst s)).AllNames P :=
      List.forall_mem_singleton.mpr hproved
    apply (Traced.Shows.note hevent).bind
    intro _ _
    exact .pure hproved

theorem useHypothesis_shows {name : Name} (hname : P name) {proved : Expr}
    (hproved : proved.AllNames P) {goal : Option Expr} (hgoal : GoalAllNames P goal) :
    (useHypothesis name proved goal).Shows P ctx.signature (Expr.AllNames P) := by
  cases goal with
  | none => exact .pure hproved
  | some g =>
    rw [useHypothesis]
    split
    · apply (Traced.Shows.examine proved).bind
      intro _ _
      exact .pure hproved
    · have hg := hgoal g rfl
      refine .fail ⟨?_, List.forall_mem_cons.mpr ⟨hproved, List.forall_mem_singleton.mpr hg⟩⟩
      simp [ProofFailure.phrase, hname, hproved.phrase hctx.signature, hg.phrase hctx.signature]

include texts

theorem applyStep_shows {check : ProofCheck} (hcheck : ShowsNames P ctx.signature check)
    {label : Name} (hlabel : P label) {items : List ProofTerm}
    (hitems : ∀ p ∈ items, p.AllNames P) {goal : Option Expr} (hgoal : GoalAllNames P goal) :
    (ctx.applyStep check label items goal).Shows P ctx.signature (Expr.AllNames P) := by
  apply (Traced.Shows.ofExcept (resolve_ends hctx hlabel)).bind
  intro a ha
  apply (Traced.Shows.ofExcept (splitItems_ends ha hitems)).bind
  intro ⟨args, proofs⟩ ⟨hargs, hproofs⟩
  have harguments : EndsInNames P ctx.signature (Substitution.AllNames P)
      (ctx.arguments a.label a.binders args .empty) :=
    arguments_ends texts ha.label a.binders hargs Substitution.empty_allNames
  apply (Traced.Shows.ofExcept harguments).bind
  intro given hgiven
  apply Traced.Shows.optional (.examine _)
  apply (Traced.Shows.ofExcept (unifyGoal_ends hctx.signature ha hgoal hgiven)).bind
  intro known hknown
  have hpending := pendingAllNames_ofItems (n := 1) ha.hypothesis hproofs
  apply (rounds_shows hctx.signature hcheck ha.label _ hpending hknown).bind
  intro ⟨pending, s⟩ ⟨hpending, hs⟩
  apply (Traced.Shows.ofExcept (settled_ends hctx.signature ha hpending s)).bind
  intro _ _
  apply (Traced.Shows.examineAll _).bind
  intro _ _
  apply (Traced.Shows.ofExcept (checkSubstitution_ends hctx ha hs)).bind
  intro _ _
  exact conclude_shows hctx ha hs hgoal

/-- By induction on the nesting of proofs that is left. -/
theorem check_shows (n : Nat) : ShowsNames P ctx.signature (ctx.check n) := by
  induction n with
  | zero =>
    intro p goal _ _
    exact .fail ⟨List.forall_mem_nil _, List.forall_mem_nil _⟩
  | succ n ih =>
    intro p goal hp hgoal
    cases p with
    | ref name position =>
      rw [check]
      split
      · rename_i proved hproved
        exact useHypothesis_shows hctx (texts name) (hctx.hypotheses name proved hproved) hgoal
      · exact applyStep_shows texts hctx ih (texts name) (List.forall_mem_nil _) hgoal
    | app name items position =>
      rw [check]
      split
      · exact .fail ⟨by simp [ProofFailure.phrase, texts name], List.forall_mem_nil _⟩
      · have hitems : ∀ p ∈ items, p.AllNames P := by
          intro p hmem e he
          exact hp e (ProofTerm.mem_formulasAll.mpr ⟨p, hmem, he⟩)
        exact applyStep_shows texts hctx ih (texts name) hitems hgoal
    | expr e => exact .fail ⟨List.forall_mem_nil _, List.forall_mem_nil _⟩
    | hole => exact .fail ⟨List.forall_mem_nil _, List.forall_mem_nil _⟩

end Steps

end ProofContext

/-- What a verdict says. -/
def Verdict.AllNames (P : Name → Prop) (sig : Signature) (v : Verdict) : Prop :=
  ∀ p, v.phrase? sig = some p → p.AllNames P

namespace Theory

variable {t : Theory} (h : t.AllNames P)
include h

theorem AllNames.context {claim : Assertion} (hclaim : claim ∈ t.assertions) (limit : Int) :
    (ProofContext.ofTheory t claim limit).AllNames P where
  signature := h.signature
  label := (h.assertions claim hclaim).label
  available := by
    intro label a ha
    obtain ⟨a', ha', he⟩ := List.mem_map.mp (Registry.mem_of_get?_ofList ha)
    obtain ⟨_, rfl⟩ := Prod.mk.inj he
    exact h.assertions a' (mem_of_mem_before ha')
  binders := by
    intro x b hb
    obtain ⟨b', hb', he⟩ := List.mem_map.mp (Registry.mem_of_get?_ofList hb)
    obtain ⟨_, rfl⟩ := Prod.mk.inj he
    exact (h.assertions claim hclaim).binders b' hb'
  hypotheses := by
    intro name e he
    have hmem := (List.of_mem_zip (Registry.mem_of_get?_ofList he)).2
    obtain ⟨x, hx, rfl⟩ := List.mem_map.mp hmem
    exact (h.assertions claim hclaim).hypothesis x hx

variable (hP : Name.IsTextual P)
include hP

/-- One proof of a theorem. -/
theorem AllNames.verifyTheorem {claim : Assertion} (hclaim : claim ∈ t.assertions)
    {proof : ProofTerm} (hproof : proof.AllNames P) (limit : Int) :
    (∀ event ∈ (t.verifyTheorem claim proof limit).1, event.AllNames P) ∧
      (t.verifyTheorem claim proof limit).2.AllNames P t.signature := by
  have hgoal := ProofContext.goalAllNames_some (h.assertions claim hclaim).conclusion
  have hchecked : Traced.Shows P t.signature (Expr.AllNames P)
      ((ProofContext.ofTheory t claim limit).checkClaim proof).cutOff :=
    (ProofContext.check_shows hP.text (h.context hclaim limit) (limit + 1 - 0).toNat proof _
      hproof hgoal).cutOff
  unfold Theory.verifyTheorem
  dsimp only
  split
  · exact ⟨List.forall_mem_append.mpr ⟨hchecked.events, List.forall_mem_singleton.mpr nofun⟩, nofun⟩
  · rename_i failure hfailure
    have hresult := hchecked.result
    rw [hfailure] at hresult
    refine ⟨List.forall_mem_append.mpr
      ⟨hchecked.events, List.forall_mem_singleton.mpr hresult.shown⟩, fun p hp => ?_⟩
    cases hp
    exact hresult.phrase

theorem AllNames.verifyLabel {proofs : ProofFile} (hproofs : proofs.IsRead t.signature)
    {claim : Assertion} (hclaim : claim ∈ t.assertions) (limit : Int) :
    (∀ event ∈ (t.verifyLabel proofs limit claim).1, event.AllNames P) ∧
      (t.verifyLabel proofs limit claim).2.AllNames P t.signature := by
  unfold Theory.verifyLabel
  split
  · rename_i decl hdecl
    have hproof : decl.proof.AllNames P :=
      fun e he => ((hproofs claim.label decl hdecl).2 e he).allNames hP.text h.signature
    exact h.verifyTheorem hP hclaim hproof limit
  · exact ⟨List.forall_mem_singleton.mpr nofun, nofun⟩

/-- Where the names of a theory can be joined, whatever is said of the proofs of a file can be
written. -/
theorem AllNames.verify_isWritable {proofs : ProofFile} (hproofs : proofs.IsRead t.signature)
    (limit : Int) :
    ∀ event ∈ (t.verify proofs limit).1, event.isWritable t.signature = true := by
  intro event hevent
  obtain ⟨_, hverdict, hevent⟩ := List.mem_flatMap.mp hevent
  obtain ⟨claim, hclaim, rfl⟩ := List.mem_map.mp hverdict
  have hclaim : claim ∈ t.assertions := (List.mem_filter.mp hclaim).1
  have hnames := (h.verifyLabel hP hproofs hclaim limit).1 event hevent
  exact List.all_eq_true.mpr fun e he => (hnames e he).isWritable hP h.signature

/-- The names in the report on the proofs of a file. -/
theorem AllNames.verify_report {proofs : ProofFile} (hproofs : proofs.IsRead t.signature)
    (limit : Int) : ∀ n ∈ ((t.verify proofs limit).2.report t).names, n = t.name ∨ P n := by
  intro n hn
  simp only [Verification.report, Phrase.names_intercalate, List.mem_flatMap, List.cons_append,
    List.mem_cons, List.mem_append] at hn
  obtain ⟨line, rfl | hline | hline, hn⟩ := hn
  · exact .inl (by simpa using hn)
  · right
    obtain ⟨outcome, houtcome, rfl⟩ := List.mem_map.mp hline
    obtain ⟨_, hverdict, rfl⟩ := List.mem_map.mp houtcome
    obtain ⟨claim, hclaim, rfl⟩ := List.mem_map.mp hverdict
    have hclaim : claim ∈ t.assertions := (List.mem_filter.mp hclaim).1
    have hlabel : P claim.label := (h.assertions claim hclaim).label
    have hverdict := (h.verifyLabel hP hproofs hclaim limit).2
    have hline : (Outcome.line t.signature
        ⟨claim.label, (t.verifyLabel proofs limit claim).2⟩).AllNames P := by
      simp only [Outcome.line, Phrase.allNames_append, Phrase.allNames_ofString,
        Phrase.allNames_ofName, hlabel, true_and]
      split
      · rename_i p hp
        split
        · exact Phrase.allNames_ofString _
        · exact Phrase.allNames_append.mpr ⟨Phrase.allNames_ofString _, hverdict p hp⟩
      · exact Phrase.allNames_ofString _
    exact hline n hn
  · right
    obtain ⟨stray, hstray, rfl⟩ := List.mem_map.mp hline
    obtain ⟨label, hlabel, hstray⟩ := List.mem_filterMap.mp hstray
    obtain ⟨decl, hdecl⟩ := Registry.exists_of_mem_keys hlabel
    have hlabel : P label := (hproofs label decl hdecl).1 ▸ hP.text _
    have hphrase : stray.phrase.AllNames P := by
      split at hstray
      · cases hstray
        simp [StrayProof.phrase, hlabel]
      · split at hstray
        · cases hstray
          simp [StrayProof.phrase, hlabel]
        · cases hstray
    exact hphrase n (by simpa using hn)

end Theory

end Deductive
