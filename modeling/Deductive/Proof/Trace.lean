import Deductive.Log
import Deductive.Proof.Failure

/-!
Checking with a trace: what was looked at and what was proved on the way is kept, also when a step
fails later. A run is cut off where it comes to an expression that is nested too deeply.
-/
namespace Deductive

/-- What happens while the theorems of a theory are verified. -/
inductive ProofEvent where
  | examines (e : Expr)
  | proves (claim assertion : Name) (statement : Expr)
  | verified (claim : Name)
  | failed (claim : Name) (failure : ProofFailure)
  | missing (claim : Name)
  deriving DecidableEq, Repr

namespace ProofEvent

/-- How a failure is spoken of inside a sentence. -/
def failureClause (sig : Signature) : ProofFailure → String
  | .tooDeep => "proof is too deeply nested"
  | failure => failure.message sig

def level : ProofEvent → LogLevel
  | examines _ => .notset
  | proves _ _ _ => .debug
  | verified _ => .debug
  | failed _ _ => .warning
  | missing _ => .warning

/-- What the log says of an event. It does not say what was looked at. -/
def message? (sig : Signature) : ProofEvent → Option String
  | examines _ => none
  | proves claim assertion statement =>
    some s!"{claim}: {assertion} proves {statement.format sig}"
  | verified claim => some ("Theorem " ++ claim.quoted ++ " verified")
  | failed claim failure =>
    some ("Theorem " ++ claim.quoted ++ " failed: " ++ failureClause sig failure)
  | missing claim => some ("Theorem " ++ claim.quoted ++ " has no proof")

/-- The event works on an expression that is nested too deeply. -/
def isTooDeep : ProofEvent → Bool
  | examines e => e.isTooDeep
  | proves _ _ statement => statement.isTooDeep
  | _ => false

end ProofEvent

/-- A result, and what happened before it was there. -/
structure Traced (α : Type) where
  events : List ProofEvent
  result : Except ProofFailure α

namespace Traced

variable {α β : Type}

protected def pure (a : α) : Traced α := ⟨[], .ok a⟩

def fail (failure : ProofFailure) : Traced α := ⟨[], .error failure⟩

def ofExcept (result : Except ProofFailure α) : Traced α := ⟨[], result⟩

def note (event : ProofEvent) : Traced Unit := ⟨[event], .ok ()⟩

/-- The expression is looked at in all its parts. -/
def examine (e : Expr) : Traced Unit := note (.examines e)

def examineAll (es : List Expr) : Traced Unit := ⟨es.map .examines, .ok ()⟩

/-- The same, after the events given. -/
def after (events : List ProofEvent) (t : Traced α) : Traced α := ⟨events ++ t.events, t.result⟩

protected def bind (t : Traced α) (f : α → Traced β) : Traced β :=
  match t.result with
  | .ok a => (f a).after t.events
  | .error failure => ⟨t.events, .error failure⟩

instance : Monad Traced where
  pure := Traced.pure
  bind := Traced.bind

@[simp] theorem result_pure (a : α) : (pure a : Traced α).result = .ok a := rfl

@[simp] theorem result_fail (failure : ProofFailure) :
    (fail failure : Traced α).result = .error failure := rfl

@[simp] theorem result_ofExcept (result : Except ProofFailure α) :
    (ofExcept result).result = result := rfl

@[simp] theorem result_after (events : List ProofEvent) (t : Traced α) :
    (t.after events).result = t.result := rfl

/-- The run up to the first event that works on an expression nested too deeply, and up to a
message that shows one. -/
def cutOff (t : Traced α) : Traced α :=
  if t.events.any ProofEvent.isTooDeep then
    ⟨t.events.takeWhile fun e => !e.isTooDeep, .error .tooDeep⟩
  else match t.result with
    | .ok _ => t
    | .error failure =>
      if failure.shown.any Expr.isTooDeep then ⟨t.events, .error .tooDeep⟩ else t

theorem result_bind (t : Traced α) (f : α → Traced β) :
    (t >>= f).result = t.result.bind fun a => (f a).result := by
  change (Traced.bind t f).result = _
  unfold Traced.bind
  cases t.result with
  | ok a => rfl
  | error failure => rfl

end Traced
end Deductive
