import Deductive.Proofs.Results

/-!
Two runs in lockstep: they come to expressions of the same nesting at the same places, and end in
the same way. What they work on may differ.
-/
namespace Deductive

/-- Values that correspond, or failures on both sides: both for a missing argument, or neither. -/
inductive SameEnd {α β : Type} (R : α → β → Prop) :
    Except ProofFailure α → Except ProofFailure β → Prop
  | ok {a : α} {b : β} (values : R a b) : SameEnd R (.ok a) (.ok b)
  | error {failure failure' : ProofFailure} (kind : failure.isUnresolved = failure'.isUnresolved) :
    SameEnd R (.error failure) (.error failure')

namespace SameEnd

variable {α β γ δ : Type} {R : α → β → Prop} {S : γ → δ → Prop} {x : Except ProofFailure α}
  {y : Except ProofFailure β}

theorem refl (x : Except ProofFailure α) : SameEnd Eq x x := by
  cases x with
  | ok a => exact .ok rfl
  | error failure => exact .error rfl

theorem bind {f : α → Except ProofFailure γ} {g : β → Except ProofFailure δ} (h : SameEnd R x y)
    (hfg : ∀ a b, R a b → SameEnd S (f a) (g b)) : SameEnd S (x >>= f) (y >>= g) := by
  cases h with
  | ok values => exact hfg _ _ values
  | error kind => exact .error kind

theorem eq_ok {x y : Except ProofFailure α} (h : SameEnd Eq x y) {a : α} (hx : x = .ok a) :
    y = .ok a := by
  subst hx
  cases h with
  | ok values => rw [values]

theorem exists_ok_iff (h : SameEnd R x y) : (∃ a, x = .ok a) ↔ ∃ b, y = .ok b := by
  cases h with
  | ok values => exact iff_of_true ⟨_, rfl⟩ ⟨_, rfl⟩
  | error kind => exact iff_of_false nofun nofun

end SameEnd

namespace Traced

variable {α β γ δ : Type} {R : α → β → Prop} {S : γ → δ → Prop}

/-! How a run ends that comes to nothing nested too deeply. -/

theorem cutOff_of_ok {t : Traced α} {a : α} (hd : t.events.any ProofEvent.isTooDeep = false)
    (h : t.result = .ok a) : t.cutOff.result = .ok a := by
  rw [cutOff, if_neg (by simp [hd]), h]
  exact h

/-- The message for a missing argument shows no expression, so that it is never cut off. -/
theorem cutOff_of_error {t : Traced α} {failure : ProofFailure}
    (hd : t.events.any ProofEvent.isTooDeep = false) (h : t.result = .error failure) :
    ∃ failure', t.cutOff.result = .error failure' ∧
      failure'.isUnresolved = failure.isUnresolved := by
  rw [cutOff, if_neg (by simp [hd]), h]
  dsimp only
  split
  · rename_i hs
    refine ⟨.tooDeep, rfl, ?_⟩
    cases failure <;> first | rfl | cases hs
  · exact ⟨failure, h, rfl⟩

structure InStep (R : α → β → Prop) (t : Traced α) (t' : Traced β) : Prop where
  nesting : t.events.map ProofEvent.isTooDeep = t'.events.map ProofEvent.isTooDeep
  results : SameEnd R t.result t'.result

/-- The same is proved, or nothing is, both without a bound on the nesting of expressions and where
it cuts the runs off. -/
structure SameEnds (t t' : Traced α) : Prop where
  unbounded : SameEnd Eq t.result t'.result
  cutOff : SameEnd Eq t.cutOff.result t'.cutOff.result

namespace InStep

theorem refl (t : Traced α) : InStep Eq t t := ⟨rfl, .refl t.result⟩

theorem pure {a : α} {b : β} (h : R a b) : InStep R (pure a : Traced α) (pure b : Traced β) :=
  ⟨rfl, .ok h⟩

theorem ofExcept {x : Except ProofFailure α} {y : Except ProofFailure β} (h : SameEnd R x y) :
    InStep R (ofExcept x) (ofExcept y) :=
  ⟨rfl, h⟩

theorem note {event event' : ProofEvent} (h : event.isTooDeep = event'.isTooDeep) :
    InStep Eq (note event) (note event') :=
  ⟨congrArg (fun deep => [deep]) h, .ok rfl⟩

theorem examine {e e' : Expr} (h : e.isTooDeep = e'.isTooDeep) :
    InStep Eq (examine e) (examine e') :=
  note h

theorem after {events events' : List ProofEvent} {t : Traced α} {t' : Traced β}
    (hevents : events.map ProofEvent.isTooDeep = events'.map ProofEvent.isTooDeep)
    (h : InStep R t t') : InStep R (t.after events) (t'.after events') := by
  refine ⟨?_, h.results⟩
  rw [Traced.after, Traced.after, List.map_append, List.map_append, hevents, h.nesting]

theorem bind {t : Traced α} {t' : Traced β} {f : α → Traced γ} {g : β → Traced δ}
    (h : InStep R t t') (hfg : ∀ a b, R a b → InStep S (f a) (g b)) :
    InStep S (t >>= f) (t' >>= g) := by
  obtain ⟨events, result⟩ := t
  obtain ⟨events', result'⟩ := t'
  obtain ⟨hnesting, hresults⟩ := h
  cases hresults with
  | ok values => exact (hfg _ _ values).after hnesting
  | error kind => exact ⟨hnesting, .error kind⟩

theorem examineAll {es es' : List Expr} (h : es = es') :
    InStep Eq (examineAll es) (examineAll es') :=
  ⟨h ▸ rfl, .ok rfl⟩

theorem optional {c : Prop} [Decidable c] {x x' : Traced Unit} {f : Unit → Traced γ}
    {g : Unit → Traced δ} (hx : InStep Eq x x') (hfg : InStep S (f ()) (g ())) :
    InStep S (if c then x >>= f else f ()) (if c then x' >>= g else g ()) := by
  split
  · exact hx.bind fun _ _ _ => hfg
  · exact hfg

theorem cutOff {t : Traced α} {t' : Traced β} (h : InStep R t t') :
    SameEnd R t.cutOff.result t'.cutOff.result := by
  have hdeep : t.events.any ProofEvent.isTooDeep = t'.events.any ProofEvent.isTooDeep := by
    have hany := congrArg (List.any · id) h.nesting
    simpa [List.any_map] using hany
  cases hd : t.events.any ProofEvent.isTooDeep with
  | true =>
    rw [cutOff_of_deep hd, cutOff_of_deep (hdeep ▸ hd)]
    exact .error rfl
  | false =>
    have hd' := hdeep ▸ hd
    have hresults := h.results
    cases hr : t.result with
    | ok a =>
      rw [hr] at hresults
      cases hr' : t'.result with
      | ok b => rwa [cutOff_of_ok hd hr, cutOff_of_ok hd' hr', ← hr']
      | error failure' =>
        rw [hr'] at hresults
        cases hresults
    | error failure =>
      rw [hr] at hresults
      cases hr' : t'.result with
      | ok b =>
        rw [hr'] at hresults
        cases hresults
      | error failure' =>
        rw [hr'] at hresults
        cases hresults with
        | error kind =>
          obtain ⟨_, he, hkind⟩ := cutOff_of_error hd hr
          obtain ⟨_, he', hkind'⟩ := cutOff_of_error hd' hr'
          rw [he, he']
          exact .error (hkind.trans (kind.trans hkind'.symm))

theorem sameEnds {t t' : Traced α} (h : InStep Eq t t') : SameEnds t t' := ⟨h.results, h.cutOff⟩

end InStep

end Traced
end Deductive
