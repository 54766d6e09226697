import Deductive.Proofs.Rounds

/-!
A step of a proof taken apart: what is known before the rounds, the rounds, and what is asked
after them.
-/
namespace Deductive

namespace PendingProof

theorem length_ofItems_le (n : Nat) (hs : List Hypothesis) (proofs : List ProofTerm) :
    (ofItems n hs proofs).length ≤ proofs.length := by
  induction hs generalizing n proofs with
  | nil => simp [ofItems]
  | cons h hs ih =>
    cases proofs with
    | nil => simp [ofItems]
    | cons p ps => exact Nat.succ_le_succ (ih (n + 1) ps)

theorem of_mem_ofItems {n : Nat} {hs : List Hypothesis} {proofs : List ProofTerm} {p : PendingProof}
    (hp : p ∈ ofItems n hs proofs) :
    p.tried = false ∧ p.proof ∈ proofs ∧ ∃ h ∈ hs, p.hypothesis = h.formula := by
  induction hs generalizing n proofs with
  | nil => simp [ofItems] at hp
  | cons h hs ih =>
    cases proofs with
    | nil => simp [ofItems] at hp
    | cons q qs =>
      rcases List.mem_cons.mp hp with rfl | hp
      · exact ⟨rfl, List.mem_cons_self, h, List.mem_cons_self, rfl⟩
      · obtain ⟨ht, hq, h', hm, he⟩ := ih hp
        exact ⟨ht, List.mem_cons_of_mem _ hq, h', List.mem_cons_of_mem _ hm, he⟩

/-- Hypotheses and proofs are taken in pairs. -/
theorem mem_ofItems_iff {n : Nat} {hs : List Hypothesis} {proofs : List ProofTerm} {e : Expr}
    {proof : ProofTerm} :
    (∃ p ∈ ofItems n hs proofs, p.hypothesis = e ∧ p.proof = proof) ↔
      ∃ h, (h, proof) ∈ hs.zip proofs ∧ h.formula = e := by
  induction hs generalizing n proofs with
  | nil => simp [ofItems]
  | cons h hs ih =>
    cases proofs with
    | nil => simp [ofItems]
    | cons q qs =>
      rw [ofItems, List.zip_cons_cons]
      constructor
      · intro hex
        obtain ⟨p, hp, rfl, rfl⟩ := hex
        rcases List.mem_cons.mp hp with rfl | hp
        · exact ⟨h, List.mem_cons_self, rfl⟩
        · obtain ⟨h', hm, he⟩ := ih.mp ⟨p, hp, rfl, rfl⟩
          exact ⟨h', List.mem_cons_of_mem _ hm, he⟩
      · intro hex
        obtain ⟨h', hm, rfl⟩ := hex
        rcases List.mem_cons.mp hm with he | hm
        · cases he
          exact ⟨_, List.mem_cons_self, rfl, rfl⟩
        · obtain ⟨p, hp, he⟩ := ih.mpr ⟨h', hm, rfl⟩
          exact ⟨p, List.mem_cons_of_mem _ hp, he⟩

/-- No hypothesis is left without a proof. -/
theorem exists_ofItems {n : Nat} {hs : List Hypothesis} {proofs : List ProofTerm}
    (hl : proofs.length = hs.length) {h : Hypothesis} (hh : h ∈ hs) :
    ∃ p ∈ ofItems n hs proofs, p.hypothesis = h.formula := by
  induction hs generalizing n proofs with
  | nil => cases hh
  | cons h' hs ih =>
    cases proofs with
    | nil => cases hl
    | cons q qs =>
      rcases List.mem_cons.mp hh with rfl | hh
      · exact ⟨_, List.mem_cons_self, rfl⟩
      · obtain ⟨p, hp, he⟩ := ih (n := n + 1) (by simpa using hl) hh
        exact ⟨p, List.mem_cons_of_mem _ hp, he⟩

end PendingProof

namespace ProofContext

theorem markedTried_ofItems (check : ProofCheck) (n : Nat) (hs : List Hypothesis)
    (proofs : List ProofTerm) : MarkedTried check (PendingProof.ofItems n hs proofs) := by
  intro p hp ht
  rw [(PendingProof.of_mem_ofItems hp).1] at ht
  cases ht

variable (ctx : ProofContext)

/-- What a step is about before anything is checked: the assertion, the proofs of its hypotheses,
and the arguments that are given. -/
def prepare (label : Name) (items : List ProofTerm) :
    Except ProofFailure (Assertion × List ProofTerm × Substitution) := do
  let a ← ctx.resolve label
  let (args, proofs) ← splitItems a items
  let given ← ctx.arguments a.label a.binders args .empty
  pure (a, proofs, given)

theorem splitItems_length {a : Assertion} {items args proofs : List ProofTerm}
    (h : splitItems a items = .ok (args, proofs)) : proofs.length = a.hypotheses.length := by
  unfold splitItems at h
  split at h
  · rename_i hl
    rw [List.splitAt_eq] at h
    cases h
    rw [List.length_drop, hl, Nat.add_sub_cancel_left]
  · split at h
    · rename_i hl
      cases h
      exact hl
    · cases h

theorem of_prepare {label : Name} {items : List ProofTerm} {a : Assertion} {proofs : List ProofTerm}
    {given : Substitution} (h : ctx.prepare label items = .ok (a, proofs, given)) :
    ctx.resolve label = .ok a ∧ proofs.length = a.hypotheses.length := by
  obtain ⟨a', ha, h⟩ := bind_eq_ok_iff.mp h
  obtain ⟨⟨args, proofs'⟩, hs, h⟩ := bind_eq_ok_iff.mp h
  obtain ⟨given', _, h⟩ := bind_eq_ok_iff.mp h
  cases h
  exact ⟨ha, splitItems_length hs⟩

/-- The parts of a step that have a result of their own, without what is noted on the way. -/
theorem result_applyStep (check : ProofCheck) (label : Name) (items : List ProofTerm)
    (goal : Option Expr) :
    (ctx.applyStep check label items goal).result =
      ctx.prepare label items >>= fun (a, proofs, given) =>
      unifyGoal a goal given >>= fun known =>
      (rounds check a.label proofs.length (PendingProof.ofItems 1 a.hypotheses proofs)
        known).result >>= fun (pending, s) =>
      settled a pending s >>= fun _ =>
      ctx.checkSubstitution a s >>= fun _ =>
      (ctx.conclude a s goal).result := by
  simp only [applyStep, prepare, Traced.result_then, Traced.result_ofExcept, bind_assoc]
  refine bind_congr fun a => bind_congr fun split => bind_congr fun given => ?_
  cases goal with
  | none =>
    simp only [Option.isSome_none, Bool.false_eq_true, ↓reduceIte, Traced.result_then,
      Traced.result_ofExcept, Traced.result_examineAll, pure_bind, ok_bind]
  | some g =>
    simp only [Option.isSome_some, ↓reduceIte, Traced.result_then, Traced.result_ofExcept,
      Traced.result_examine, Traced.result_examineAll, pure_bind, ok_bind]

theorem settled_eq_ok_iff {a : Assertion} {pending : List PendingProof} {s : Substitution} :
    settled a pending s = .ok () ↔
      (∀ b ∈ a.binders, s.contains b.name = true) ∧ pending = [] := by
  unfold settled
  cases hf : a.binders.find? fun b => !s.contains b.name with
  | some b =>
    have hb := List.find?_some hf
    have hm := List.mem_of_find?_eq_some hf
    refine ⟨nofun, fun h => ?_⟩
    simp [h.1 b hm] at hb
  | none =>
    have hall : ∀ b ∈ a.binders, s.contains b.name = true := by
      simpa using List.find?_eq_none.mp hf
    cases pending with
    | nil => exact ⟨fun _ => ⟨hall, rfl⟩, fun _ => rfl⟩
    | cons p ps => exact ⟨nofun, fun h => nomatch h.2⟩

theorem settled_unresolved {a : Assertion} (pending : List PendingProof) {s : Substitution}
    (h : ¬ ∀ b ∈ a.binders, s.contains b.name = true) :
    ∃ failure, settled a pending s = .error failure ∧ failure.isUnresolved = true := by
  unfold settled
  cases hf : a.binders.find? fun b => !s.contains b.name with
  | some b => exact ⟨_, rfl, rfl⟩
  | none => exact absurd (by simpa using List.find?_eq_none.mp hf) h

theorem result_conclude_eq_ok_iff {a : Assertion} {s : Substitution} {goal : Option Expr}
    {e : Expr} :
    (ctx.conclude a s goal).result = .ok e ↔
      a.conclusion.subst s = e ∧ ∀ g, goal = some g → e = g := by
  unfold conclude
  cases goal with
  | none =>
    refine ⟨fun h => ?_, fun h => ?_⟩
    · cases h
      exact ⟨rfl, nofun⟩
    · cases h.1
      rfl
  | some g =>
    by_cases hg : a.conclusion.subst s = g
    · simp only [hg, Option.filter, ne_eq, not_true_eq_false, decide_false, Bool.false_eq_true,
        ↓reduceIte]
      refine ⟨fun h => ?_, fun h => ?_⟩
      · cases h
        exact ⟨rfl, fun g' hg' => Option.some.inj hg'⟩
      · cases h.1
        rfl
    · simp only [hg, Option.filter, ne_eq, not_false_eq_true, decide_true, ↓reduceIte]
      refine ⟨nofun, fun h => ?_⟩
      exact absurd (h.1.trans (h.2 g rfl)) hg

/-- How a step goes that succeeds: `given` are the arguments that are written, `known` what the
goal adds to them, and `s` what is known after the rounds, in which every proof was checked. -/
structure StepRun (check : ProofCheck) (label : Name) (items : List ProofTerm) (goal : Option Expr)
    (a : Assertion) (proofs : List ProofTerm) (given known s : Substitution) : Prop where
  prepared : ctx.prepare label items = .ok (a, proofs, given)
  matched : unifyGoal a goal given = .ok known
  rounds : Rounds check (PendingProof.ofItems 1 a.hypotheses proofs) known [] s
  covered : ∀ b ∈ a.binders, s.contains b.name = true
  accepted : ctx.checkSubstitution a s = .ok ()

theorem applyStep_eq_ok_iff {check : ProofCheck} {label : Name} {items : List ProofTerm}
    {goal : Option Expr} {e : Expr} :
    (ctx.applyStep check label items goal).result = .ok e ↔
      ∃ a proofs given known s, ctx.StepRun check label items goal a proofs given known s ∧
        a.conclusion.subst s = e ∧ ∀ g, goal = some g → e = g := by
  rw [result_applyStep]
  constructor
  · intro h
    obtain ⟨⟨a, proofs, given⟩, hprep, h⟩ := bind_eq_ok_iff.mp h
    dsimp only at h
    obtain ⟨known, hmatch, h⟩ := bind_eq_ok_iff.mp h
    obtain ⟨⟨pending, s⟩, hrounds, h⟩ := bind_eq_ok_iff.mp h
    dsimp only at h
    obtain ⟨_, hsettled, h⟩ := bind_eq_ok_iff.mp h
    obtain ⟨_, hcheck, hconclude⟩ := bind_eq_ok_iff.mp h
    obtain ⟨hcovered, rfl⟩ := settled_eq_ok_iff.mp hsettled
    have hrounds := Rounds.of_rounds (PendingProof.length_ofItems_le _ _ _)
      (markedTried_ofItems _ _ _ _) hrounds
    exact ⟨a, proofs, given, known, s, ⟨hprep, hmatch, hrounds, hcovered, hcheck⟩,
      ctx.result_conclude_eq_ok_iff.mp hconclude⟩
  · intro h
    obtain ⟨a, proofs, given, known, s, ⟨hprep, hmatch, hrounds, hcovered, hcheck⟩, h⟩ := h
    have hrun := hrounds.result_rounds a.label (PendingProof.length_ofItems_le _ _ _)
      (markedTried_ofItems _ _ _ _)
    refine bind_eq_ok_iff.mpr ⟨_, hprep, bind_eq_ok_iff.mpr ⟨_, hmatch, bind_eq_ok_iff.mpr
      ⟨_, hrun, bind_eq_ok_iff.mpr ⟨(), ?_, bind_eq_ok_iff.mpr ⟨(), hcheck, ?_⟩⟩⟩⟩⟩
    · exact settled_eq_ok_iff.mpr ⟨hcovered, rfl⟩
    · exact ctx.result_conclude_eq_ok_iff.mpr h

/-- A step that is well up to the end of its rounds can still wait for arguments. -/
theorem applyStep_unresolved {check : ProofCheck} {label : Name} {items : List ProofTerm}
    {goal : Option Expr} {a : Assertion} {proofs : List ProofTerm} {given known s : Substitution}
    {rest : List PendingProof} (hprep : ctx.prepare label items = .ok (a, proofs, given))
    (hmatch : unifyGoal a goal given = .ok known)
    (hrounds : Rounds check (PendingProof.ofItems 1 a.hypotheses proofs) known rest s)
    (hmissing : ¬ ∀ b ∈ a.binders, s.contains b.name = true) :
    ∃ failure, (ctx.applyStep check label items goal).result = .error failure ∧
      failure.isUnresolved = true := by
  obtain ⟨failure, hf, hu⟩ := settled_unresolved rest hmissing
  have hrun := hrounds.result_rounds a.label (PendingProof.length_ofItems_le _ _ _)
    (markedTried_ofItems _ _ _ _)
  refine ⟨failure, ?_, hu⟩
  rw [result_applyStep, hprep, ok_bind]
  dsimp only
  rw [hmatch, ok_bind, hrun, ok_bind]
  dsimp only
  rw [hf]
  rfl

theorem useHypothesis_eq_ok_iff {name : Name} {proved e : Expr} {goal : Option Expr} :
    (useHypothesis name proved goal).result = .ok e ↔
      proved = e ∧ ∀ g, goal = some g → proved = g := by
  cases goal with
  | none => simp [useHypothesis]
  | some g =>
    by_cases hg : proved = g
    · simp only [useHypothesis, hg, ↓reduceIte, Traced.result_examine_then, Traced.result_pure,
        Except.ok.injEq, Option.some.injEq, forall_eq', and_true]
    · simp [useHypothesis, hg]

/-- Which of its three ways a proof is checked does not depend on the goal. -/
theorem check_succ_cases (n : Nat) (p : ProofTerm) :
    (∃ name proved, ctx.hypotheses.get? name = some proved ∧
      ∀ goal, ctx.check (n + 1) p goal = useHypothesis name proved goal) ∨
    (∃ label items, ∀ goal,
      ctx.check (n + 1) p goal = ctx.applyStep (ctx.check n) label items goal) ∨
    ∃ failure, ∀ goal, ctx.check (n + 1) p goal = Traced.fail failure := by
  cases p with
  | ref name position =>
    cases hn : ctx.hypotheses.get? name with
    | some proved =>
      refine .inl ⟨name, proved, hn, fun goal => ?_⟩
      simp only [check, hn]
    | none =>
      refine .inr (.inl ⟨name, [], fun goal => ?_⟩)
      simp only [check, hn]
  | app name items position =>
    by_cases hn : ctx.hypotheses.contains name = true
    · exact .inr (.inr ⟨_, fun goal => if_pos hn⟩)
    · exact .inr (.inl ⟨name, items, fun goal => if_neg hn⟩)
  | expr e => exact .inr (.inr ⟨_, fun _ => rfl⟩)
  | hole => exact .inr (.inr ⟨_, fun _ => rfl⟩)

end ProofContext

namespace ProofContext.StepRun

variable {ctx : ProofContext} {check : ProofCheck} {label : Name} {items : List ProofTerm}
  {goal : Option Expr} {a : Assertion} {proofs : List ProofTerm} {given known s : Substitution}

/-- Every proof was checked, early or late. -/
theorem settled (h : ctx.StepRun check label items goal a proofs given known s) :
    ∀ p ∈ PendingProof.ofItems 1 a.hypotheses proofs, Settled check s p := by
  intro p hp
  rcases h.rounds.settled p hp with hs | hm
  · exact hs
  · cases hm

end ProofContext.StepRun
end Deductive
