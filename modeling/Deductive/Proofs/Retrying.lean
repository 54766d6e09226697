import Deductive.Proofs.Derivation
import Mathlib.Algebra.Ring.Nat

/-!
How often the steps of a proof are checked. One application tries the proof of a hypothesis without
a goal at most once, but what it tried is forgotten when the application itself is checked again, so
that the tries multiply along the nesting.
-/
namespace Deductive

/-- The event is a line of the log on an assertion that is selected. -/
def ProofEvent.isLine (selects : Name → Bool) : ProofEvent → Bool
  | proves _ label _ => selects label
  | _ => false

/-- How many steps were proved with the selected assertions. -/
def countLines (selects : Name → Bool) (events : List ProofEvent) : Nat :=
  events.countP (ProofEvent.isLine selects)

/-- The line of a step itself. -/
def ownLine (selects : Name → Bool) (label : Name) : Nat := if selects label then 1 else 0

namespace ProofContext

section
variable (ctx : ProofContext)

/-- How many of the items of an application stand for arguments. -/
def argumentCount (label : Name) (items : List ProofTerm) : Nat :=
  match ctx.resolve label with
  | .ok a => if items.length = a.binders.length + a.hypotheses.length then a.binders.length else 0
  | .error _ => items.length

mutual

/-- The nodes of a proof at the depth `d` that apply an assertion, each with its label and its
depth. -/
def applications (d : Nat) : ProofTerm → List (Name × Nat)
  | .ref name _ => if ctx.hypotheses.contains name then [] else [(.text name, d)]
  | .app name items _ =>
    if ctx.hypotheses.contains name then []
    else (.text name, d) :: applicationsAfter (d + 1) (ctx.argumentCount name items) items
  | .expr _ => []
  | .hole => []

/-- Those of all items after the first ones, which are arguments. -/
def applicationsAfter (d : Nat) : Nat → List ProofTerm → List (Name × Nat)
  | _, [] => []
  | 0, p :: ps => applications d p ++ applicationsAfter d 0 ps
  | arguments + 1, _ :: ps => applicationsAfter d arguments ps

end

end

/-- What nodes may cost: the theorem's own step and the steps for its hypotheses are proved once,
and every further depth doubles that. -/
def tries (selects : Name → Bool) (nodes : List (Name × Nat)) : Nat :=
  (nodes.map fun (label, depth) => ownLine selects label * 2 ^ (depth - 1)).sum

variable {ctx : ProofContext} {selects : Name → Bool}

@[simp] theorem tries_nil : tries selects [] = 0 := rfl

theorem tries_cons (label : Name) (d : Nat) (nodes : List (Name × Nat)) :
    tries selects ((label, d) :: nodes) =
      ownLine selects label * 2 ^ (d - 1) + tries selects nodes := rfl

theorem tries_append (nodes nodes' : List (Name × Nat)) :
    tries selects (nodes ++ nodes') = tries selects nodes + tries selects nodes' := by
  rw [tries, List.map_append, List.sum_append]
  rfl

variable (ctx selects) in
/-- What a proof at the depth `d` may cost. -/
def cost (d : Nat) (p : ProofTerm) : Nat := tries selects (ctx.applications d p)

theorem two_pow_double (n d : Nat) : n * 2 ^ (d + 2 - 1) = 2 * (n * 2 ^ (d + 1 - 1)) := by
  change n * 2 ^ (d + 1) = 2 * (n * 2 ^ d)
  rw [Nat.pow_succ', Nat.mul_left_comm]

mutual

theorem cost_double (d : Nat) : (p : ProofTerm) →
    cost ctx selects (d + 2) p = 2 * cost ctx selects (d + 1) p
  | .ref name _ => by
    rw [cost, cost, applications, applications]
    split
    · rfl
    · exact two_pow_double (ownLine selects name) d
  | .app name items _ => by
    rw [cost, cost, applications, applications]
    split
    · rfl
    · rw [tries_cons, tries_cons, two_pow_double, Nat.mul_add]
      exact congrArg _ (tries_after_double (d + 1) (ctx.argumentCount name items) items)
  | .expr _ => rfl
  | .hole => rfl

theorem tries_after_double (d : Nat) : (arguments : Nat) → (ps : List ProofTerm) →
    tries selects (ctx.applicationsAfter (d + 2) arguments ps) =
      2 * tries selects (ctx.applicationsAfter (d + 1) arguments ps)
  | _, [] => by rw [applicationsAfter, applicationsAfter]; rfl
  | 0, p :: ps => by
    have hp := cost_double d p
    rw [cost, cost] at hp
    rw [applicationsAfter, applicationsAfter, tries_append, tries_append, hp,
      tries_after_double d 0 ps, Nat.mul_add]
  | arguments + 1, _ :: ps => by
    rw [applicationsAfter, applicationsAfter, tries_after_double d arguments ps]

end

/-- The proofs of the hypotheses are the items that are no arguments. -/
theorem applicationsAfter_eq {label : Name} {items args proofs : List ProofTerm} {a : Assertion}
    (hresolve : ctx.resolve label = .ok a) (hsplit : splitItems a items = .ok (args, proofs))
    (d : Nat) :
    tries selects (ctx.applicationsAfter d (ctx.argumentCount label items) items) =
      (proofs.map (cost ctx selects d)).sum := by
  have hdrop (n : Nat) (ps : List ProofTerm) :
      tries selects (ctx.applicationsAfter d n ps) = ((ps.drop n).map (cost ctx selects d)).sum := by
    induction ps generalizing n with
    | nil =>
      rw [applicationsAfter, List.drop_nil]
      rfl
    | cons p ps ih =>
      cases n with
      | zero =>
        rw [applicationsAfter, tries_append, ih]
        rfl
      | succ n => rw [applicationsAfter, ih, List.drop_succ_cons]
  have hproofs : items.drop (ctx.argumentCount label items) = proofs := by
    rw [argumentCount, hresolve]
    unfold splitItems at hsplit
    dsimp only
    split at hsplit
    · rename_i hl
      rw [List.splitAt_eq] at hsplit
      cases hsplit
      rw [if_pos hl]
    · rename_i hl
      rw [if_neg hl]
      split at hsplit
      · cases hsplit
        rfl
      · cases hsplit
  rw [hdrop, hproofs]

end ProofContext

/-! An account of the lines of a run. -/

namespace Traced

variable {α β : Type} {selects : Name → Bool}

/-- The run is paid from a budget. A result leaves some of it, a failure at least the reserve. -/
structure Spends (selects : Name → Bool) (reserve : Nat) (t : Traced α) (budget : Nat)
    (left : α → Nat) : Prop where
  result : ∀ a, t.result = .ok a → countLines selects t.events + left a ≤ budget
  failure : ∀ failure, t.result = .error failure → countLines selects t.events + reserve ≤ budget

namespace Spends

variable {reserve budget : Nat} {left : α → Nat} {left' : β → Nat}

theorem pure {a : α} (h : left a ≤ budget) :
    Spends selects reserve (pure a : Traced α) budget left := by
  refine ⟨fun b hb => ?_, nofun⟩
  cases hb
  exact Nat.le_trans (Nat.le_of_eq (Nat.zero_add _)) h

theorem fail (failure : ProofFailure) (h : reserve ≤ budget) :
    Spends selects reserve (fail failure : Traced α) budget left :=
  ⟨nofun, fun _ _ => Nat.le_trans (Nat.le_of_eq (Nat.zero_add _)) h⟩

/-- What is decided without a line costs nothing. -/
theorem ofExcept (result : Except ProofFailure α) (h : reserve ≤ budget) :
    Spends selects reserve (ofExcept result) budget fun _ => budget :=
  ⟨fun _ _ => Nat.le_of_eq (Nat.zero_add _),
    fun _ _ => Nat.le_trans (Nat.le_of_eq (Nat.zero_add _)) h⟩

theorem examine (e : Expr) : Spends selects reserve (examine e) budget fun _ => budget :=
  ⟨fun _ _ => Nat.le_of_eq (Nat.zero_add _), nofun⟩

theorem examineAll (es : List Expr) :
    Spends selects reserve (examineAll es) budget fun _ => budget := by
  refine ⟨fun _ _ => ?_, nofun⟩
  have hlines : countLines selects (es.map ProofEvent.examines) = 0 := by
    simp [countLines, List.countP_eq_zero, ProofEvent.isLine]
  exact Nat.le_of_eq (by rw [Traced.examineAll, hlines, Nat.zero_add])

theorem after {events : List ProofEvent} {t : Traced α}
    (h : Spends selects reserve t budget left) :
    Spends selects reserve (t.after events) (countLines selects events + budget) left := by
  have hlines : countLines selects (t.after events).events =
      countLines selects events + countLines selects t.events := List.countP_append
  refine ⟨fun a ha => ?_, fun failure hf => ?_⟩
  · have := h.result a ha
    omega
  · have := h.failure failure hf
    omega

theorem mono {budget' : Nat} {left' : α → Nat} {t : Traced α}
    (h : Spends selects reserve t budget left) (hb : budget ≤ budget')
    (hl : ∀ a, left' a ≤ left a) : Spends selects reserve t budget' left' := by
  refine ⟨fun a ha => ?_, fun failure hf => Nat.le_trans (h.failure failure hf) hb⟩
  have := h.result a ha
  have := hl a
  omega

theorem bind {t : Traced α} {f : α → Traced β} (h : Spends selects reserve t budget left)
    (hf : ∀ a, t.result = .ok a → Spends selects reserve (f a) (left a) left') :
    Spends selects reserve (t >>= f) budget left' := by
  obtain ⟨events, result⟩ := t
  cases result with
  | error failure => exact ⟨nofun, fun _ _ => h.failure failure rfl⟩
  | ok a => exact (hf a rfl).after.mono (h.result a rfl) fun _ => Nat.le_refl _

theorem optional {c : Prop} [Decidable c] {x : Traced Unit} {f : Unit → Traced β}
    (hx : Spends selects reserve x budget fun _ => budget)
    (hf : Spends selects reserve (f ()) budget left') :
    Spends selects reserve (if c then x >>= f else f ()) budget left' := by
  split
  · exact hx.bind fun _ _ => hf
  · exact hf

end Spends
end Traced

namespace ProofContext

variable {ctx : ProofContext} {selects : Name → Bool} {check : ProofCheck} {label : Name}

/-- A check that fails has not proved its own step, so that there is still enough to check the proof
once more. -/
structure Affordable (selects : Name → Bool) (once twice : Nat) (t : Traced Expr) : Prop where
  total : countLines selects t.events ≤ once
  failed : ∀ failure, t.result = .error failure → countLines selects t.events + once ≤ twice

/-- What proofs cost that are checked in one way, and in both. -/
structure Affords (selects : Name → Bool) (once twice : ProofTerm → Nat) (check : ProofCheck) :
    Prop where
  le : ∀ p, once p ≤ twice p
  affordable : ∀ p goal, Affordable selects (once p) (twice p) (check p goal)

theorem Affordable.of_silent {once twice : Nat} {t : Traced Expr} (hle : once ≤ twice)
    (ht : countLines selects t.events = 0) : Affordable selects once twice t := by
  refine ⟨ht ▸ Nat.zero_le _, fun _ _ => ?_⟩
  rwa [ht, Nat.zero_add]

/-- What is put aside for proofs that are pending: those that were tried are checked with a goal,
and nothing else. -/
def owed (once twice : ProofTerm → Nat) (ps : List PendingProof) : Nat :=
  (ps.map fun p => if p.tried then once p.proof else twice p.proof).sum

variable {once twice : ProofTerm → Nat}

@[simp] theorem owed_nil : owed once twice [] = 0 := rfl

theorem owed_cons (p : PendingProof) (ps : List PendingProof) :
    owed once twice (p :: ps) =
      (if p.tried then once p.proof else twice p.proof) + owed once twice ps := rfl

/-- A proof that waits has cost what its failure leaves of two checks. -/
theorem round_spends (hc : Affords selects once twice check) {reserve : Nat}
    (ps : List PendingProof) (s : Substitution) {k : Nat} (hk : reserve ≤ k) :
    (round check label ps s).Spends selects reserve (owed once twice ps + k)
      fun r => owed once twice r.1 + k := by
  induction ps generalizing s k with
  | nil => exact .pure (Nat.le_refl _)
  | cons p ps ih =>
    rw [round, owed_cons]
    refine (Traced.Spends.examine p.hypothesis).bind fun _ _ => ?_
    have hle := hc.le p.proof
    split
    · have htotal := (hc.affordable p.proof (some (p.hypothesis.subst s))).total
      have hgoal : (check p.proof (some (p.hypothesis.subst s))).Spends selects reserve
          ((if p.tried then once p.proof else twice p.proof) + owed once twice ps + k)
          fun _ => owed once twice ps + k := by
        refine ⟨fun _ _ => ?_, fun _ _ => ?_⟩ <;> split <;> omega
      exact hgoal.bind fun _ _ => ih s hk
    · split
      · rename_i ht
        have hrest := ih s (k := once p.proof + k) (by omega)
        refine (hrest.mono (by omega) fun _ => Nat.le_refl _).bind fun r _ => .pure ?_
        rw [owed_cons, if_pos ht]
        omega
      · rename_i ht
        obtain ⟨htotal, hfailed⟩ := hc.affordable p.proof none
        dsimp only
        split
        · refine (Traced.Spends.after ((Traced.Spends.ofExcept _ ?_).bind fun s' _ =>
            ih s' hk)).mono ?_ fun _ => Nat.le_refl _
          · omega
          · omega
        · rename_i failure hf
          have hrefund := hfailed failure hf
          split
          · refine (Traced.Spends.after ((ih s (k := once p.proof + k) (by omega)).bind
              fun r _ => .pure (Nat.le_of_eq ?_))).mono ?_ fun _ => Nat.le_refl _
            · rw [owed_cons, if_pos rfl]
              change once p.proof + owed once twice r.1 + k = _
              omega
            · omega
          · refine ⟨fun _ h => ?_, fun _ _ => ?_⟩
            · cases h
            · dsimp only
              omega

theorem rounds_spends (hc : Affords selects once twice check) {reserve : Nat} (n : Nat)
    (ps : List PendingProof) (s : Substitution) {k : Nat} (hk : reserve ≤ k) :
    (rounds check label n ps s).Spends selects reserve (owed once twice ps + k)
      fun r => owed once twice r.1 + k := by
  induction n generalizing ps s with
  | zero => exact .pure (Nat.le_refl _)
  | succ n ih =>
    rw [rounds]
    refine (round_spends hc ps s hk).bind fun r _ => ?_
    dsimp only
    split
    · exact ih r.1 r.2
    · exact .pure (Nat.le_refl _)

variable (once twice) in
theorem owed_ofItems_le (n : Nat) (hs : List Hypothesis) (proofs : List ProofTerm) :
    owed once twice (PendingProof.ofItems n hs proofs) ≤ (proofs.map twice).sum := by
  induction hs generalizing n proofs with
  | nil => exact Nat.zero_le _
  | cons h hs ih =>
    cases proofs with
    | nil => exact Nat.zero_le _
    | cons p ps =>
      rw [PendingProof.ofItems, owed_cons, List.map_cons, List.sum_cons]
      exact Nat.add_le_add_left (ih (n + 1) ps) _

/-- The line of a step is the last thing that it pays for. -/
theorem conclude_spends (a : Assertion) (s : Substitution) (goal : Option Expr) {budget : Nat}
    (h : ownLine selects a.label ≤ budget) :
    (ctx.conclude a s goal).Spends selects (ownLine selects a.label) budget fun _ => 0 := by
  unfold conclude
  dsimp only
  split
  · exact .fail _ h
  · refine ⟨fun _ _ => ?_, nofun⟩
    have hlines : countLines selects [.proves ctx.claim.label a.label (a.conclusion.subst s)] =
        ownLine selects a.label := by
      rw [countLines, List.countP_singleton]
      rfl
    exact Nat.le_trans (Nat.le_of_eq hlines) h

theorem applyStep_spends (hc : Affords selects once twice check) (items : List ProofTerm)
    (goal : Option Expr) {budget : Nat} (hreserve : ownLine selects label ≤ budget)
    (hlabel : ∀ a, ctx.resolve label = .ok a → a.label = label)
    (hbudget : ∀ a args proofs, ctx.resolve label = .ok a →
      splitItems a items = .ok (args, proofs) →
        (proofs.map twice).sum + ownLine selects label ≤ budget) :
    (ctx.applyStep check label items goal).Spends selects (ownLine selects label) budget
      fun _ => 0 := by
  refine (Traced.Spends.ofExcept _ hreserve).bind fun a ha => ?_
  refine (Traced.Spends.ofExcept _ hreserve).bind ?_
  rintro ⟨args, proofs⟩ hsplit
  refine (Traced.Spends.ofExcept _ hreserve).bind fun given _ => ?_
  refine .optional (.examine _) ?_
  refine (Traced.Spends.ofExcept _ hreserve).bind fun known _ => ?_
  have howed := owed_ofItems_le once twice 1 a.hypotheses proofs
  have hproofs := hbudget a args proofs ha hsplit
  refine ((rounds_spends hc _ _ _ (Nat.le_refl _)).mono (by omega) fun _ => Nat.le_refl _).bind ?_
  rintro ⟨pending, s⟩ _
  have hown : ownLine selects label ≤ owed once twice pending + ownLine selects label :=
    Nat.le_add_left _ _
  refine (Traced.Spends.ofExcept _ hown).bind fun _ _ => ?_
  refine (Traced.Spends.examineAll _).bind fun _ _ => ?_
  refine (Traced.Spends.ofExcept _ hown).bind fun _ _ => ?_
  rw [← hlabel a ha] at hown ⊢
  exact conclude_spends a s goal hown

/-- The label and the items of a node that applies an assertion. -/
inductive IsStep (ctx : ProofContext) : ProofTerm → Name → List ProofTerm → Prop
  | ref {name : String} {position : Position} (h : ctx.hypotheses.contains name = false) :
    IsStep ctx (.ref name position) name []
  | app {name : String} {items : List ProofTerm} {position : Position}
    (h : ctx.hypotheses.contains name = false) : IsStep ctx (.app name items position) name items

variable (ctx selects) in
/-- What the proofs of the hypotheses of a step may cost. -/
def partsCost (label : Name) (items : List ProofTerm) : Nat :=
  tries selects (ctx.applicationsAfter 1 (ctx.argumentCount label items) items)

variable (selects) in
/-- Checked in both ways, a step costs its own line once and its parts twice. -/
theorem cost_of_isStep {p : ProofTerm} {items : List ProofTerm} (h : IsStep ctx p label items) :
    cost ctx selects 0 p = partsCost ctx selects label items + ownLine selects label ∧
      cost ctx selects 1 p = 2 * partsCost ctx selects label items + ownLine selects label := by
  have hcost (d : Nat) : cost ctx selects d p = ownLine selects label * 2 ^ (d - 1) +
      tries selects (ctx.applicationsAfter (d + 1) (ctx.argumentCount label items) items) := by
    cases h with
    | ref h | app h =>
      rw [cost, applications, h]
      rfl
  constructor
  · rw [hcost, Nat.add_comm]
    exact congrArg _ (Nat.mul_one _)
  · rw [hcost, tries_after_double 0, Nat.add_comm]
    exact congrArg _ (Nat.mul_one _)

variable (ctx selects) in
theorem check_cases (n : Nat) (p : ProofTerm) :
    (∃ label items, IsStep ctx p label items ∧
      ∀ goal, ctx.check (n + 1) p goal = ctx.applyStep (ctx.check n) label items goal) ∨
    (∀ d, cost ctx selects d p = 0) ∧
      ∀ goal, countLines selects (ctx.check (n + 1) p goal).events = 0 := by
  cases p with
  | ref name position =>
    cases h : ctx.hypotheses.get? name with
    | none =>
      refine .inl ⟨name, [], .ref (by rw [Registry.contains, h]; rfl), fun goal => ?_⟩
      simp only [check, h]
    | some proved =>
      refine .inr ⟨fun d => ?_, fun goal => ?_⟩
      · rw [cost, applications, Registry.contains, h]
        rfl
      · simp only [check, h]
        cases goal with
        | none => rfl
        | some g =>
          rw [useHypothesis]
          split <;> rfl
  | app name items position =>
    cases h : ctx.hypotheses.contains name with
    | false => exact .inl ⟨name, items, .app h, fun goal => by rw [check, h]; rfl⟩
    | true =>
      refine .inr ⟨fun d => ?_, fun goal => ?_⟩
      · rw [cost, applications, h]
        rfl
      · rw [check, h]
        rfl
  | expr e => exact .inr ⟨fun _ => rfl, fun _ => rfl⟩
  | hole => exact .inr ⟨fun _ => rfl, fun _ => rfl⟩

theorem affordable_of_isStep (hc : Affords selects (cost ctx selects 0) (cost ctx selects 1) check)
    (hlabel : ∀ label a, ctx.resolve label = .ok a → a.label = label) {p : ProofTerm}
    {items : List ProofTerm} (h : IsStep ctx p label items) (goal : Option Expr) :
    Affordable selects (cost ctx selects 0 p) (cost ctx selects 1 p)
      (ctx.applyStep check label items goal) := by
  obtain ⟨hone, htwo⟩ := cost_of_isStep selects h
  have hspends : (ctx.applyStep check label items goal).Spends selects (ownLine selects label)
      (partsCost ctx selects label items + ownLine selects label) fun _ => 0 :=
    applyStep_spends hc items goal (Nat.le_add_left _ _) (hlabel label)
      fun a args proofs ha hs => Nat.le_of_eq (by rw [partsCost, applicationsAfter_eq ha hs])
  rw [hone, htwo]
  constructor
  · cases hr : (ctx.applyStep check label items goal).result with
    | ok e => exact hspends.result e hr
    | error failure =>
      have := hspends.failure failure hr
      omega
  · intro failure hr
    have := hspends.failure failure hr
    omega

variable (selects) in
/-- By induction on the nesting of proofs that is left. -/
theorem check_affords (hlabel : ∀ label a, ctx.resolve label = .ok a → a.label = label) (n : Nat) :
    Affords selects (cost ctx selects 0) (cost ctx selects 1) (ctx.check n) := by
  have hle (p : ProofTerm) : cost ctx selects 0 p ≤ cost ctx selects 1 p := by
    rcases check_cases ctx selects 0 p with ⟨label, items, h, _⟩ | ⟨h, _⟩
    · obtain ⟨hone, htwo⟩ := cost_of_isStep selects h
      omega
    · exact Nat.le_of_eq ((h 0).trans (h 1).symm)
  refine ⟨hle, ?_⟩
  induction n with
  | zero => exact fun p goal => .of_silent (hle p) rfl
  | succ n ih =>
    intro p goal
    rcases check_cases ctx selects n p with ⟨label, items, h, hcheck⟩ | ⟨_, hcheck⟩
    · rw [hcheck]
      exact affordable_of_isStep ⟨hle, ih⟩ hlabel h goal
    · exact .of_silent (hle p) (hcheck goal)

end ProofContext

namespace Theory

variable {t : Theory} {selects : Name → Bool}

theorem countLines_cutOff_le {α : Type} (r : Traced α) :
    countLines selects r.cutOff.events ≤ countLines selects r.events := by
  have hprefix : r.cutOff.events.Sublist r.events := by
    unfold Traced.cutOff
    split
    · exact List.takeWhile_sublist _
    · split
      · exact .refl _
      · split <;> exact .refl _
  exact hprefix.countP_le

/-- While a theorem is verified, the steps at the nodes of its proof are proved no more often than
once at the root and at the nodes below it, and at every further depth twice as often. -/
theorem countLines_verifyTheorem (t : Theory) (claim : Assertion) (proof : ProofTerm) (limit : Int)
    (selects : Name → Bool) :
    countLines selects (t.verifyTheorem claim proof limit).1 ≤
      ProofContext.tries selects ((ProofContext.ofTheory t claim limit).applications 0 proof) := by
  have hlabel : ∀ label a, (ProofContext.ofTheory t claim limit).resolve label = .ok a →
      a.label = label := fun _ _ => ProofContext.label_of_resolve
  have hcheck := ((ProofContext.check_affords selects hlabel
    (limit + 1 - 0).toNat).affordable proof (some claim.conclusion)).total
  refine Nat.le_trans (Nat.le_trans (Nat.le_of_eq ?_) (countLines_cutOff_le
    ((ProofContext.ofTheory t claim limit).checkClaim proof))) hcheck
  unfold verifyTheorem
  dsimp only
  split
  · simp [countLines, ProofEvent.isLine]
  · simp [countLines, ProofEvent.isLine]

end Theory

namespace Nested

private def wff (name : Name) : Binder := ⟨name, "wff", false, []⟩

private def implies (p q : Expr) : Expr := .app "im" [p, q]

def refl : Assertion := ⟨.assumed, "refl", [wff "q"], [], implies (.var "q") (.var "q")⟩

def marked : Assertion :=
  ⟨.assumed, "marked", [], [], .app "mark" [implies (.app "c" []) (.app "c" [])]⟩

/-- Without a goal the second variable is not known, and the first one only by the second
hypothesis, so that the proof of the first hypothesis is tried and then checked. -/
def spread : Assertion :=
  ⟨.assumed, "spread", [wff "p", wff "q"], [⟨none, .var "p"⟩, ⟨none, .app "mark" [.var "p"]⟩],
    implies (.var "q") (.var "q")⟩

def goal : Assertion := ⟨.claimed, "goal", [], [], implies (.app "c" []) (.app "c" [])⟩

def theory : Theory :=
  { name := "retry"
    signature := .ofDecls [⟨"wff", ⟨false, false, true, false⟩⟩]
      [⟨"c", [], "wff", [], false, none⟩, ⟨"im", [wff "a", wff "b"], "wff", [], false, none⟩,
        ⟨"mark", [wff "p"], "wff", [], false, none⟩] [] .empty
    assertions := [refl, marked, spread, goal] }

def proof : Nat → ProofTerm
  | 0 => .ref "refl" .start
  | n + 1 => .app "spread" [proof n, .ref "marked" .start] .start

/-- The innermost of seven steps is proved four times, and all together fifteen times. -/
theorem proved_four_times :
    (theory.verifyTheorem goal (proof 3) 256).2 = .verified ∧
      ((ProofContext.ofTheory theory goal 256).applications 0 (proof 3)).countP
        (fun node => node.1 = .text "refl") = 1 ∧
      countLines (· = "refl") (theory.verifyTheorem goal (proof 3) 256).1 = 4 ∧
      ((ProofContext.ofTheory theory goal 256).applications 0 (proof 3)).length = 7 ∧
      countLines (fun _ => true) (theory.verifyTheorem goal (proof 3) 256).1 = 15 := by
  decide +kernel

end Nested
end Deductive
