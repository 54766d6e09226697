import Deductive.Proofs.Steps
import Deductive.Proofs.SubstitutionChecks
import Mathlib.Data.List.Infix

/-!
Two checks of which one may stop early. Where the checks of the hypotheses are the same, or stop at
failures that no round waits out, so is the check of a step: what was done up to there is the
beginning of what the other check does.
-/
namespace Deductive

/-- Those of an application. -/
def ProofTerm.items : ProofTerm → List ProofTerm
  | .app _ items _ => items
  | _ => []

namespace Traced

variable {α β : Type} {stops : ProofFailure → Prop} {t t' : Traced α}

/-- The first run is the second one, or a beginning of it that ends in a failure at which it may
stop. -/
inductive Begins (stops : ProofFailure → Prop) : Traced α → Traced α → Prop
  | same (t : Traced α) : Begins stops t t
  | stopped {t t' : Traced α} {failure : ProofFailure} (result : t.result = .error failure)
      (stop : stops failure) (begun : t.events <+: t'.events) : Begins stops t t'

namespace Begins

/-- Where the first run may not stop, it is the second one. -/
theorem eq_of_never (h : Begins (fun _ => False) t t') : t' = t := by
  cases h with
  | same => rfl
  | stopped _ stop _ => cases stop

theorem after (events : List ProofEvent) (h : Begins stops t t') :
    Begins stops (t.after events) (t'.after events) := by
  cases h with
  | same => exact .same _
  | stopped result stop begun =>
    exact .stopped result stop ((List.prefix_append_right_inj _).mpr begun)

theorem events_bind (t : Traced α) (f : α → Traced β) : t.events <+: (t >>= f).events := by
  obtain ⟨events, result⟩ := t
  cases result with
  | ok a => exact List.prefix_append _ _
  | error failure => exact List.prefix_rfl

theorem bind {f f' : α → Traced β} (h : Begins stops t t')
    (hf : ∀ a, t.result = .ok a → Begins stops (f a) (f' a)) :
    Begins stops (t >>= f) (t' >>= f') := by
  cases h with
  | same =>
    obtain ⟨events, result⟩ := t
    cases result with
    | ok a => exact (hf a rfl).after events
    | error failure => exact .same _
  | stopped result stop begun =>
    obtain ⟨events, _⟩ := t
    cases result
    exact .stopped rfl stop (begun.trans (events_bind t' f'))

theorem optional {c : Prop} [Decidable c] {x : Traced Unit} {f f' : Unit → Traced β}
    (hf : Begins stops (f ()) (f' ())) :
    Begins stops (if c then x >>= f else f ()) (if c then x >>= f' else f' ()) := by
  split
  · exact (Begins.same x).bind fun _ _ => hf
  · exact hf

/-- A result is that of the other run too. -/
theorem eq_of_ok (h : Begins stops t t') {a : α} (ha : t.result = .ok a) : t' = t := by
  cases h with
  | same => rfl
  | stopped result _ _ => cases ha.symm.trans result

/-- Of two runs that each begin the other one both stop, after the same events, or none does. -/
theorem antisymm {stops' : ProofFailure → Prop} (h : Begins stops t t') (h' : Begins stops' t' t) :
    t' = t ∨ t'.events = t.events ∧ (∃ failure, t.result = .error failure ∧ stops failure) ∧
      ∃ failure, t'.result = .error failure ∧ stops' failure := by
  cases h with
  | same => exact .inl rfl
  | stopped result stop begun =>
    cases h' with
    | same => exact .inl rfl
    | stopped result' stop' begun' =>
      have hevents := begun'.eq_of_length_le begun.length_le
      exact .inr ⟨hevents, ⟨_, result, stop⟩, ⟨_, result', stop'⟩⟩

end Begins
end Traced

namespace ProofContext

variable {stops : ProofFailure → Prop} {ctx ctx' : ProofContext} {check check' : ProofCheck}
  {good : ProofTerm → Prop} {label : Name}

/-- A round waits for no failure at which a run may stop. -/
theorem round_begins (hstops : ∀ failure, stops failure → failure.isUnresolved = false)
    (hc : ∀ p, good p → ∀ goal, (check p goal).Begins stops (check' p goal))
    {ps : List PendingProof} (hps : ∀ p ∈ ps, good p.proof) (s : Substitution) :
    (round check label ps s).Begins stops (round check' label ps s) := by
  induction ps generalizing s with
  | nil => exact .same _
  | cons p ps ih =>
    obtain ⟨hp, hps⟩ := List.forall_mem_cons.mp hps
    have ih := ih hps
    rw [round, round]
    refine (Traced.Begins.same _).bind fun _ _ => ?_
    split
    · exact (hc p.proof hp _).bind fun _ _ => ih s
    split
    · exact (ih s).bind fun _ _ => .same _
    dsimp only
    have hattempt := hc p.proof hp none
    generalize check p.proof none = attempt, check' p.proof none = attempt' at hattempt ⊢
    cases hattempt with
    | same =>
      split
      · exact .after _ ((Traced.Begins.same _).bind fun s' _ => ih s')
      · split
        · exact .after _ ((ih s).bind fun _ _ => .same _)
        · exact .same _
    | stopped result stop begun =>
      rw [result]
      dsimp only
      rw [if_neg (by simp [hstops _ stop])]
      refine .stopped rfl stop (begun.trans ?_)
      split
      · exact List.prefix_append _ _
      · split
        · exact List.prefix_append _ _
        · exact List.prefix_rfl

theorem rounds_begins (hstops : ∀ failure, stops failure → failure.isUnresolved = false)
    (hc : ∀ p, good p → ∀ goal, (check p goal).Begins stops (check' p goal)) (n : Nat)
    {ps : List PendingProof} (hps : ∀ p ∈ ps, good p.proof) (htried : MarkedTried check ps)
    (s : Substitution) : (rounds check label n ps s).Begins stops (rounds check' label n ps s) := by
  induction n generalizing ps s with
  | zero => exact .same _
  | succ n ih =>
    rw [rounds, rounds]
    refine (round_begins hstops hc hps s).bind ?_
    rintro ⟨rest, m⟩ hround
    have hround := Round.of_round htried hround
    have hrest : ∀ q ∈ rest, good q.proof := by
      intro q hq
      obtain ⟨_, p, hp, rfl⟩ := hround.waiting q hq
      exact hps p hp
    dsimp only
    split
    · exact ih hrest hround.markedTried m
    · exact .same _

theorem mem_of_splitItems {a : Assertion} {items args proofs : List ProofTerm}
    (h : splitItems a items = .ok (args, proofs)) {p : ProofTerm} (hp : p ∈ proofs) :
    p ∈ items := by
  unfold splitItems at h
  split at h
  · rw [List.splitAt_eq] at h
    cases h
    exact List.mem_of_mem_drop hp
  · split at h
    · cases h
      exact hp
    · cases h

theorem applyStep_begins (h : SameClaim ctx ctx')
    (hstops : ∀ failure, stops failure → failure.isUnresolved = false)
    (hresolve : (Traced.ofExcept (ctx.resolve label)).Begins stops
      (Traced.ofExcept (ctx'.resolve label)))
    {items : List ProofTerm}
    (hc : ∀ p ∈ items, ∀ goal, (check p goal).Begins stops (check' p goal)) (goal : Option Expr) :
    (ctx.applyStep check label items goal).Begins stops
      (ctx'.applyStep check' label items goal) := by
  refine hresolve.bind fun a _ => (Traced.Begins.same _).bind ?_
  rintro ⟨args, proofs⟩ hsplit
  dsimp only
  rw [h.arguments]
  refine (Traced.Begins.same _).bind fun given _ => .optional ?_
  refine (Traced.Begins.same _).bind fun known _ => ?_
  have hitems : ∀ p ∈ PendingProof.ofItems 1 a.hypotheses proofs, p.proof ∈ items := fun p hp =>
    mem_of_splitItems hsplit (PendingProof.of_mem_ofItems hp).2.1
  refine (rounds_begins hstops hc _ hitems (markedTried_ofItems _ _ _ _) known).bind ?_
  rintro ⟨pending, s⟩ _
  dsimp only
  rw [h.checkSubstitution, h.conclude]
  exact .same _

/-- One proof, when those among its items are compared. -/
theorem check_succ_begins (h : SameClaim ctx ctx')
    (hstops : ∀ failure, stops failure → failure.isUnresolved = false)
    (hresolve : ∀ label, (Traced.ofExcept (ctx.resolve label)).Begins stops
      (Traced.ofExcept (ctx'.resolve label)))
    {n m : Nat} (p : ProofTerm)
    (hitems : ∀ q ∈ p.items, ∀ goal, (ctx.check n q goal).Begins stops (ctx'.check m q goal))
    (goal : Option Expr) :
    (ctx.check (n + 1) p goal).Begins stops (ctx'.check (m + 1) p goal) := by
  cases p with
  | ref name position =>
    rw [check, check, h.hypotheses]
    cases ctx.hypotheses.get? name with
    | some proved => exact .same _
    | none => exact applyStep_begins h hstops (hresolve name) hitems goal
  | app name items position =>
    rw [check, check, h.hypotheses]
    split
    · exact .same _
    · exact applyStep_begins h hstops (hresolve name) hitems goal
  | expr e => exact .same _
  | hole => exact .same _

/-- By induction on how much nesting is left in both contexts: what begins where none is left in one
of them begins everywhere. -/
theorem check_begins (good : Nat → Nat → ProofTerm → Prop) (h : SameClaim ctx ctx')
    (hstops : ∀ failure, stops failure → failure.isUnresolved = false)
    (hresolve : ∀ label, (Traced.ofExcept (ctx.resolve label)).Begins stops
      (Traced.ofExcept (ctx'.resolve label)))
    (hitems : ∀ n m p, good (n + 1) (m + 1) p → ∀ q ∈ p.items, good n m q)
    (hend : ∀ n m p, good n m p → n = 0 ∨ m = 0 → ∀ goal,
      (ctx.check n p goal).Begins stops (ctx'.check m p goal))
    {n m : Nat} {p : ProofTerm} (hgood : good n m p) (goal : Option Expr) :
    (ctx.check n p goal).Begins stops (ctx'.check m p goal) := by
  induction n generalizing m p goal with
  | zero => exact hend 0 m p hgood (.inl rfl) goal
  | succ n ih =>
    cases m with
    | zero => exact hend (n + 1) 0 p hgood (.inr rfl) goal
    | succ m =>
      exact check_succ_begins h hstops hresolve p
        (fun q hq goal => ih (hitems n m p hgood q hq) goal) goal

end ProofContext
end Deductive
