import Deductive.Proofs.Admissible
import Deductive.Proofs.Steps

/-!
Where checks fail. Each part of a step fails in its own ways, and a check fails with the failure of
a part of a step: its own or one for a hypothesis, however deep.
-/
namespace Deductive

/-- What was to be found out when a check failed. -/
inductive CheckStage where
  | nesting
  | reference
  | preparation
  | matching
  | settling
  | lookup
  | substitution
  | conclusion
  deriving DecidableEq

def ProofFailure.stage : ProofFailure → CheckStage
  | nestingLimit _ | tooDeep => .nesting
  | notAProof | hypothesisMismatch _ _ _ | hypothesisApplied _ => .reference
  | declaredLater _ _ | unknownLabel _ | itemCount _ _ _ _ | proofAsArgument _ => .preparation
  | mismatch _ _ _ _ _ => .matching
  | unresolved _ _ | foreignVariables _ _ _ => .settling
  | noImage _ => .lookup
  | unboundVariable _ _ | undeclaredTerm _ | termArity _ _ _ | argumentSort _ _ _
  | argumentNotBound _ _ | imageSort _ _ _ _ _ | imageNotBound _ _ _ | imageShared _ _
  | notDisjoint _ _ _ => .substitution
  | conclusionMismatch _ _ _ => .conclusion

/-- Whatever the failure is, it is of the stage. -/
def FailsIn {α : Type} (stage : CheckStage) (x : Except ProofFailure α) : Prop :=
  ∀ failure, x = .error failure → failure.stage = stage

namespace FailsIn

variable {α β : Type} {stage : CheckStage} {x : Except ProofFailure α}

theorem ok (a : α) : FailsIn stage (.ok a) := nofun

theorem error {failure : ProofFailure} (h : failure.stage = stage) :
    FailsIn stage (.error failure : Except ProofFailure α) := by
  intro failure' he
  cases he
  exact h

theorem bind {f : α → Except ProofFailure β} (h : FailsIn stage x)
    (hf : ∀ a, x = .ok a → FailsIn stage (f a)) : FailsIn stage (x >>= f) := by
  cases x with
  | ok a => exact hf a rfl
  | error failure => exact .error (h failure rfl)

end FailsIn

namespace ProofContext

variable (ctx : ProofContext)

theorem resolve_failsIn (label : Name) : FailsIn .preparation (ctx.resolve label) := by
  unfold resolve
  split
  · exact .ok _
  · split <;> exact .error rfl

theorem splitItems_failsIn (a : Assertion) (items : List ProofTerm) :
    FailsIn .preparation (splitItems a items) := by
  unfold splitItems
  split
  · exact .ok _
  · split
    · exact .ok _
    · exact .error rfl

theorem arguments_failsIn (assertion : Name) (bs : List Binder) (items : List ProofTerm)
    (s : Substitution) : FailsIn .preparation (ctx.arguments assertion bs items s) := by
  induction bs generalizing items s with
  | nil => exact .ok s
  | cons b bs ih =>
    cases items with
    | nil => exact .ok s
    | cons item items =>
      rw [arguments]
      refine .bind ?_ fun e? _ => ?_
      · cases item with
        | app => exact .error rfl
        | _ => exact .ok _
      · cases e? <;> exact ih items _

theorem prepare_failsIn (label : Name) (items : List ProofTerm) :
    FailsIn .preparation (ctx.prepare label items) :=
  (ctx.resolve_failsIn label).bind fun a _ => (splitItems_failsIn a items).bind
    fun _ _ => (ctx.arguments_failsIn a.label a.binders _ _).bind fun _ _ => .ok _

theorem unify_failsIn (assertion : Name) (part : MatchPart) (pattern target : Expr)
    (s : Substitution) : FailsIn .matching (unify assertion part pattern target s) := by
  unfold unify
  split
  · exact .ok _
  · exact .error rfl

theorem unifyGoal_failsIn (a : Assertion) (goal : Option Expr) (s : Substitution) :
    FailsIn .matching (unifyGoal a goal s) := by
  cases goal with
  | none => exact .ok s
  | some g => exact unify_failsIn _ _ _ g s

theorem settled_failsIn (a : Assertion) (pending : List PendingProof) (s : Substitution) :
    FailsIn .settling (settled a pending s) := by
  unfold settled
  split
  · exact .error rfl
  · split
    · exact .error rfl
    · exact .ok ()

mutual

theorem sortOf_failsIn : (e : Expr) → FailsIn .substitution (ctx.sortOf e)
  | .var x => by
    rw [sortOf]
    split
    · exact .ok _
    · exact .error rfl
  | .app f args => by
    rw [sortOf]
    split
    · exact .error rfl
    · rename_i term _
      have hargs := sortArguments_failsIn f args term.binders
      split
      · split
        · exact .ok _
        · rename_i failure hfailure
          exact .error (hargs failure hfailure)
      · exact .error rfl

theorem sortArguments_failsIn (term : Name) : (args : List Expr) → (params : List Binder) →
    FailsIn .substitution (ctx.sortArguments term args params)
  | [], _ => by
    rw [sortArguments]
    exact .ok ()
  | _ :: _, [] => by
    rw [sortArguments]
    exact .ok ()
  | arg :: args, param :: params => by
    have harg := sortOf_failsIn arg
    have hargs := sortArguments_failsIn term args params
    rw [sortArguments]
    split
    · rename_i failure hfailure
      exact .error (harg failure hfailure)
    · split
      · exact .error rfl
      · split
        · exact .error rfl
        · exact hargs

end

theorem exists_image {s : Substitution} {b : Binder} (h : s.contains b.name = true) :
    ∃ e, image s b = .ok e := by
  obtain ⟨e, he⟩ := Registry.contains_iff.mp h
  exact ⟨e, image_eq_ok_iff.mpr he⟩

theorem boundImage_failsIn (assertion : Name) (b : Binder) (images : Registry Name Name)
    (e : Expr) : FailsIn .substitution (ctx.boundImage assertion b images e) := by
  cases e with
  | app f args => exact .error rfl
  | var x =>
    rw [boundImage]
    split
    · exact .error rfl
    · split
      · exact .error rfl
      · exact .ok x

/-- Where every binder has an image, none is looked up in vain. -/
theorem checkImages_failsIn (assertion : Name) {s : Substitution} {bs : List Binder}
    (hs : ∀ b ∈ bs, s.contains b.name = true) (images : Registry Name Name) :
    FailsIn .substitution (ctx.checkImages assertion s bs images) := by
  induction bs generalizing images with
  | nil => exact .ok images
  | cons b bs ih =>
    obtain ⟨hb, hs⟩ := List.forall_mem_cons.mp hs
    obtain ⟨e, he⟩ := exists_image hb
    rw [checkImages, he, ok_bind]
    refine (ctx.sortOf_failsIn e).bind fun sort _ => ?_
    split
    · exact .error rfl
    · split
      · exact (ctx.boundImage_failsIn assertion b images e).bind fun x _ => ih hs _
      · exact ih hs images

theorem checkDisjoint_failsIn (assertion : Name) {s : Substitution} (images : Registry Name Name)
    {bs : List Binder} (hs : ∀ b ∈ bs, s.contains b.name = true) :
    FailsIn .substitution (ctx.checkDisjoint assertion s images bs) := by
  induction bs with
  | nil => exact .ok ()
  | cons b bs ih =>
    obtain ⟨hb, hs⟩ := List.forall_mem_cons.mp hs
    obtain ⟨e, he⟩ := exists_image hb
    rw [checkDisjoint]
    split
    · exact ih hs
    · rw [he, ok_bind]
      split
      · exact .error rfl
      · exact ih hs

theorem checkSubstitution_failsIn (a : Assertion) {s : Substitution}
    (hs : ∀ b ∈ a.binders, s.contains b.name = true) :
    FailsIn .substitution (ctx.checkSubstitution a s) :=
  (ctx.checkImages_failsIn a.label hs .empty).bind fun images _ =>
    ctx.checkDisjoint_failsIn a.label images hs

theorem conclude_failsIn (a : Assertion) (s : Substitution) (goal : Option Expr) :
    FailsIn .conclusion (ctx.conclude a s goal).result := by
  unfold conclude
  dsimp only
  split
  · exact .error rfl
  · exact .ok _

/-! Failures of a whole step. -/

variable {ctx} {check : ProofCheck} {label : Name} {items : List ProofTerm} {goal : Option Expr}

/-- What a step knows when its rounds are over: `pending` are the proofs that still wait. -/
structure RoundsOver (ctx : ProofContext) (check : ProofCheck) (label : Name)
    (items : List ProofTerm) (goal : Option Expr) (a : Assertion) (proofs : List ProofTerm)
    (given known : Substitution) (pending : List PendingProof) (s : Substitution) : Prop where
  prepared : ctx.prepare label items = .ok (a, proofs, given)
  matched : unifyGoal a goal given = .ok known
  finished : (rounds check a.label proofs.length (PendingProof.ofItems 1 a.hypotheses proofs)
    known).result = .ok (pending, s)

theorem RoundsOver.rounds {a : Assertion} {proofs : List ProofTerm} {given known s : Substitution}
    {pending : List PendingProof}
    (h : RoundsOver ctx check label items goal a proofs given known pending s) :
    Rounds check (PendingProof.ofItems 1 a.hypotheses proofs) known pending s :=
  .of_rounds (PendingProof.length_ofItems_le _ _ _) (markedTried_ofItems _ _ _ _) h.finished

/-- Where the failure of a step comes from. -/
inductive StepFails (ctx : ProofContext) (check : ProofCheck) (label : Name)
    (items : List ProofTerm) (goal : Option Expr) (failure : ProofFailure) : Prop
  | early (stage : failure.stage = .preparation ∨ failure.stage = .matching)
  | hypothesis {p : ProofTerm} {g : Option Expr} (checked : (check p g).result = .error failure)
  | settling {a : Assertion} {proofs : List ProofTerm} {given known s : Substitution}
      {pending : List PendingProof}
      (ended : RoundsOver ctx check label items goal a proofs given known pending s)
      (fails : settled a pending s = .error failure)
  | substitution {a : Assertion} {proofs : List ProofTerm} {given known s : Substitution}
      {pending : List PendingProof}
      (ended : RoundsOver ctx check label items goal a proofs given known pending s)
      (covered : ∀ b ∈ a.binders, s.contains b.name = true)
      (fails : ctx.checkSubstitution a s = .error failure)
  | conclusion {a : Assertion} {proofs : List ProofTerm} {given known s : Substitution}
      {pending : List PendingProof}
      (ended : RoundsOver ctx check label items goal a proofs given known pending s)
      (covered : ∀ b ∈ a.binders, s.contains b.name = true)
      (fails : (ctx.conclude a s goal).result = .error failure)

/-- No limit is looked at but in the checks of the hypotheses. -/
theorem StepFails.stage {failure : ProofFailure}
    (h : StepFails ctx check label items goal failure) :
    (∃ p g, (check p g).result = .error failure) ∨ failure.stage ≠ .nesting := by
  cases h with
  | early stage => rcases stage with hstage | hstage <;> exact .inr (by simp [hstage])
  | hypothesis checked => exact .inl ⟨_, _, checked⟩
  | settling _ fails => exact .inr (by simp [settled_failsIn _ _ _ failure fails])
  | substitution _ covered fails =>
    exact .inr (by simp [ctx.checkSubstitution_failsIn _ covered failure fails])
  | conclusion _ _ fails => exact .inr (by simp [ctx.conclude_failsIn _ _ _ failure fails])

theorem round_eq_error {ps : List PendingProof} {s : Substitution} {failure : ProofFailure}
    (h : (round check label ps s).result = .error failure) :
    (∃ p g, (check p g).result = .error failure) ∨ failure.stage = .matching := by
  induction ps generalizing s with
  | nil => cases h
  | cons p ps ih =>
    rw [round, Traced.result_examine_then] at h
    split at h
    · rcases Traced.result_bind_eq_error_iff.mp h with hp | ⟨_, _, h⟩
      · exact .inl ⟨_, _, hp⟩
      · exact ih h
    split at h
    · rcases Traced.result_bind_eq_error_iff.mp h with h | ⟨_, _, h⟩
      · exact ih h
      · cases h
    dsimp only at h
    split at h
    · rcases Traced.result_bind_eq_error_iff.mp h with hm | ⟨_, _, h⟩
      · exact .inr (unify_failsIn _ _ _ _ _ failure hm)
      · exact ih h
    · rename_i failure' hp
      split at h
      · rcases Traced.result_bind_eq_error_iff.mp h with h | ⟨_, _, h⟩
        · exact ih h
        · cases h
      · cases h
        exact .inl ⟨_, _, hp⟩

theorem rounds_eq_error {n : Nat} {ps : List PendingProof} {s : Substitution}
    {failure : ProofFailure} (h : (rounds check label n ps s).result = .error failure) :
    (∃ p g, (check p g).result = .error failure) ∨ failure.stage = .matching := by
  induction n generalizing ps s with
  | zero => cases h
  | succ n ih =>
    rw [rounds] at h
    rcases Traced.result_bind_eq_error_iff.mp h with h | ⟨r, _, h⟩
    · exact round_eq_error h
    · dsimp only at h
      split at h
      · exact ih h
      · cases h

theorem stepFails_of_result {failure : ProofFailure}
    (h : (ctx.applyStep check label items goal).result = .error failure) :
    StepFails ctx check label items goal failure := by
  rw [result_applyStep] at h
  rcases bind_eq_error_iff.mp h with hprepare | ⟨⟨a, proofs, given⟩, hprepared, h⟩
  · exact .early (.inl (ctx.prepare_failsIn label items failure hprepare))
  rcases bind_eq_error_iff.mp h with hgoal | ⟨known, hmatched, h⟩
  · exact .early (.inr (unifyGoal_failsIn a goal given failure hgoal))
  rcases bind_eq_error_iff.mp h with hrounds | ⟨⟨pending, s⟩, hrounds, h⟩
  · rcases rounds_eq_error hrounds with ⟨p, g, hp⟩ | hstage
    · exact .hypothesis hp
    · exact .early (.inr hstage)
  have hover : RoundsOver ctx check label items goal a proofs given known pending s :=
    ⟨hprepared, hmatched, hrounds⟩
  rcases bind_eq_error_iff.mp h with hsettled | ⟨_, hsettled, h⟩
  · exact .settling hover hsettled
  have hcovered := (settled_eq_ok_iff.mp hsettled).1
  rcases bind_eq_error_iff.mp h with hcheck | ⟨_, _, h⟩
  · exact .substitution hover hcovered hcheck
  · exact .conclusion hover hcovered h

/-- By induction on the nesting of proofs that is left: what is known of the failures of all steps,
and of those before a step begins, is known of every failure. -/
theorem check_failure {P : ProofFailure → Prop} (hnesting : P (.nestingLimit ctx.limit))
    (hreference : ∀ failure, failure.stage = .reference → P failure)
    (hstep : ∀ n label items goal failure,
      (∀ p g failure, (ctx.check n p g).result = .error failure → P failure) →
      StepFails ctx (ctx.check n) label items goal failure → P failure)
    (n : Nat) (p : ProofTerm) (goal : Option Expr) (failure : ProofFailure)
    (h : (ctx.check n p goal).result = .error failure) : P failure := by
  induction n generalizing p goal failure with
  | zero =>
    cases h
    exact hnesting
  | succ n ih =>
    have happly {label : Name} {items : List ProofTerm}
        (h : (ctx.applyStep (ctx.check n) label items goal).result = .error failure) : P failure :=
      hstep n label items goal failure ih (stepFails_of_result h)
    cases p with
    | ref name position =>
      rw [check] at h
      split at h
      · cases goal with
        | none => cases h
        | some g =>
          rw [useHypothesis] at h
          split at h
          · cases h
          · cases h
            exact hreference _ rfl
      · exact happly h
    | app name items position =>
      rw [check] at h
      split at h
      · cases h
        exact hreference _ rfl
      · exact happly h
    | expr e =>
      cases h
      exact hreference _ rfl
    | hole =>
      cases h
      exact hreference _ rfl

end ProofContext
end Deductive
