import Deductive.Proof.Trace

/-!
When a sequence of steps that may fail succeeds: every step of it succeeds, for readers on what the
one before it has left. It fails with the failure of the first step that does not.
-/
namespace Deductive

theorem bind_eq_ok_iff {ε α β : Type} {x : Except ε α} {f : α → Except ε β} {b : β} :
    (x >>= f) = .ok b ↔ ∃ a, x = .ok a ∧ f a = .ok b := by
  cases x with
  | error failure =>
    refine ⟨fun h => ?_, fun ⟨a, h, _⟩ => ?_⟩
    · cases h
    · cases h
  | ok a =>
    refine ⟨fun h => ⟨a, rfl, h⟩, fun ⟨a', h, hb⟩ => ?_⟩
    cases h
    exact hb

theorem bind_eq_error_iff {ε α β : Type} {x : Except ε α} {f : α → Except ε β} {e : ε} :
    (x >>= f) = .error e ↔ x = .error e ∨ ∃ a, x = .ok a ∧ f a = .error e := by
  cases x with
  | error failure =>
    constructor
    · intro h
      cases h
      exact .inl rfl
    · rintro (h | ⟨a, h, _⟩)
      · cases h
        rfl
      · cases h
  | ok a =>
    constructor
    · exact fun h => .inr ⟨a, rfl, h⟩
    · rintro (h | ⟨a', h, he⟩)
      · cases h
      · cases h
        exact he

theorem map_eq_ok_iff {ε α β : Type} {x : Except ε α} {f : α → β} {b : β} :
    x.map f = .ok b ↔ ∃ a, x = .ok a ∧ f a = b := by
  cases x with
  | error failure =>
    refine ⟨fun h => ?_, fun ⟨a, h, _⟩ => ?_⟩
    · cases h
    · cases h
  | ok a =>
    refine ⟨fun h => ⟨a, rfl, Except.ok.inj h⟩, fun ⟨a', h, hb⟩ => ?_⟩
    cases h
    exact congrArg Except.ok hb

theorem eq_ok_of_toOption {ε α : Type} {r : Except ε α} {a : α} (h : r.toOption = some a) :
    r = .ok a := by
  cases r with
  | error e => cases h
  | ok a' =>
    cases h
    rfl

/-- The error of a result, if it is one. -/
def errorOf? {ε α : Type} : Except ε α → Option ε
  | .error e => some e
  | .ok _ => none

theorem eq_error_of_errorOf? {ε α : Type} {r : Except ε α} {e : ε} (h : errorOf? r = some e) :
    r = .error e := by
  cases r with
  | error e' => exact congrArg _ (Option.some.inj h)
  | ok a => cases h

theorem ok_bind {ε α β : Type} (a : α) (f : α → Except ε β) : (Except.ok a >>= f) = f a := rfl

section Readers

universe u

variable {ε σ α β : Type u}

theorem reader_bind_eq_ok_iff {x : EStateM ε σ α} {f : α → EStateM ε σ β} {s s' : σ} {b : β} :
    (x >>= f) s = .ok b s' ↔ ∃ a s₁, x s = .ok a s₁ ∧ f a s₁ = .ok b s' := by
  change EStateM.bind x f s = .ok b s' ↔ _
  unfold EStateM.bind
  cases x s with
  | ok a s₁ =>
    constructor
    · exact fun h => ⟨a, s₁, rfl, h⟩
    · intro ⟨a', s₁', h, hf⟩
      cases h
      exact hf
  | error e s₁ =>
    constructor
    · intro h
      cases h
    · intro ⟨_, _, h, _⟩
      cases h

theorem reader_bind_of_ok {x : EStateM ε σ α} {f : α → EStateM ε σ β} {s s' : σ} {a : α}
    (h : x s = .ok a s') : (x >>= f) s = f a s' := by
  change EStateM.bind x f s = _
  unfold EStateM.bind
  rw [h]

theorem reader_bind_eq_error {x : EStateM ε σ α} {f : α → EStateM ε σ β} {s s' : σ} {e : ε}
    (h : x s = .error e s') : (x >>= f) s = .error e s' := by
  change EStateM.bind x f s = .error e s'
  unfold EStateM.bind
  rw [h]

theorem reader_pure_eq_ok_iff {a b : α} {s s' : σ} :
    (pure a : EStateM ε σ α) s = .ok b s' ↔ a = b ∧ s = s' := by
  change EStateM.Result.ok a s = .ok b s' ↔ _
  simp

end Readers

namespace Traced

variable {α β : Type}

theorem result_bind_eq_ok_iff {t : Traced α} {f : α → Traced β} {b : β} :
    (t >>= f).result = .ok b ↔ ∃ a, t.result = .ok a ∧ (f a).result = .ok b := by
  rw [result_bind]
  exact bind_eq_ok_iff

theorem result_bind_eq_error_iff {t : Traced α} {f : α → Traced β} {failure : ProofFailure} :
    (t >>= f).result = .error failure ↔
      t.result = .error failure ∨ ∃ a, t.result = .ok a ∧ (f a).result = .error failure := by
  rw [result_bind]
  exact bind_eq_error_iff

theorem result_then (t : Traced α) (f : α → Traced β) :
    (t >>= f).result = t.result >>= fun a => (f a).result :=
  result_bind t f

theorem result_examine (e : Expr) : (examine e).result = .ok () := rfl

theorem result_examineAll (es : List Expr) : (examineAll es).result = .ok () := rfl

theorem result_examine_then (e : Expr) (f : Unit → Traced β) :
    (examine e >>= f).result = (f ()).result := by
  rw [result_then, result_examine, ok_bind]

/-- A run that is not cut off has the result it would have without any bound. -/
theorem result_cutOff (t : Traced α) :
    t.cutOff.result = t.result ∨ t.cutOff.result = .error .tooDeep := by
  unfold cutOff
  split
  · exact .inr rfl
  · split
    · exact .inl rfl
    · split
      · exact .inr rfl
      · exact .inl rfl

theorem result_of_cutOff {t : Traced α} {a : α} (h : t.cutOff.result = .ok a) :
    t.result = .ok a := by
  rcases t.result_cutOff with heq | hdeep
  · exact heq.symm.trans h
  · cases h.symm.trans hdeep

/-- A failure is that of the run unless it is for being cut off. -/
theorem error_of_cutOff {t : Traced α} {failure : ProofFailure} (hne : failure ≠ .tooDeep)
    (h : t.cutOff.result = .error failure) : t.result = .error failure := by
  rcases t.result_cutOff with heq | hdeep
  · exact heq.symm.trans h
  · cases h.symm.trans hdeep
    exact absurd rfl hne

/-- A run that succeeds can only be cut off. -/
theorem cutOff_of_result {t : Traced α} {a : α} (h : t.result = .ok a) :
    t.cutOff.result = .ok a ∨ t.cutOff.result = .error .tooDeep :=
  h ▸ t.result_cutOff

theorem cutOff_of_deep {t : Traced α} (hd : t.events.any ProofEvent.isTooDeep = true) :
    t.cutOff = ⟨t.events.takeWhile fun e => !e.isTooDeep, .error .tooDeep⟩ :=
  if_pos hd

theorem cutOff_of_shown {t : Traced α} {failure : ProofFailure}
    (hd : t.events.any ProofEvent.isTooDeep = false) (h : t.result = .error failure)
    (hshown : failure.shown = []) : t.cutOff = t := by
  rw [cutOff, if_neg (by simp [hd]), h]
  dsimp only
  rw [hshown, List.any_nil, if_neg Bool.false_ne_true]

end Traced
end Deductive
