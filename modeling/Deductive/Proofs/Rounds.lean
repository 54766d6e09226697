import Deductive.Proof.Check
import Deductive.Proofs.Matching
import Deductive.Proofs.Results

/-!
The rounds over the proofs of the hypotheses of a step, as a relation: which proofs a round settles
and what is known after it. Rounds end where one settles nothing.
-/
namespace Deductive.ProofContext

/-- Without a goal an argument in the proof is missing. -/
def Unresolved (check : ProofCheck) (proof : ProofTerm) : Prop :=
  ∃ failure, (check proof none).result = .error failure ∧ failure.isUnresolved = true

/-- The proof was checked, and what it proves is the hypothesis as `s` settles it. -/
structure Settled (check : ProofCheck) (s : Substitution) (p : PendingProof) : Prop where
  ground : p.hypothesis.isGround s = true
  checked : (∃ e, (check p.proof (some (p.hypothesis.subst s))).result = .ok e) ∨
    (check p.proof none).result = .ok (p.hypothesis.subst s)

theorem Settled.mono {check : ProofCheck} {s t : Substitution} {p : PendingProof}
    (h : Settled check s p) (ht : t.Extends s) : Settled check t p := by
  refine ⟨Expr.isGround_of_extends ht h.ground, ?_⟩
  rw [Expr.subst_of_extends ht h.ground]
  exact h.checked

inductive Round (check : ProofCheck) :
    List PendingProof → Substitution → List PendingProof → Substitution → Prop
  | nil {s : Substitution} : Round check [] s [] s
  | goal {p : PendingProof} {ps rest : List PendingProof} {s s' : Substitution} {e : Expr}
      (ground : p.hypothesis.isGround s = true)
      (proved : (check p.proof (some (p.hypothesis.subst s))).result = .ok e)
      (tail : Round check ps s rest s') : Round check (p :: ps) s rest s'
  | found {p : PendingProof} {ps rest : List PendingProof} {s m s' : Substitution} {e : Expr}
      (unknown : p.hypothesis.isGround s = false) (proved : (check p.proof none).result = .ok e)
      (matched : Expr.matchWith s p.hypothesis e = some m)
      (tail : Round check ps m rest s') : Round check (p :: ps) s rest s'
  | waits {p : PendingProof} {ps rest : List PendingProof} {s s' : Substitution}
      (unknown : p.hypothesis.isGround s = false) (unresolved : Unresolved check p.proof)
      (tail : Round check ps s rest s') :
      Round check (p :: ps) s ({ p with tried := true } :: rest) s'

/-- The mark of the proofs that were tried without a goal is right. -/
def MarkedTried (check : ProofCheck) (pending : List PendingProof) : Prop :=
  ∀ p ∈ pending, p.tried = true → Unresolved check p.proof

theorem unify_eq_ok_iff {label : Name} {part : MatchPart} {pattern target : Expr}
    {s s' : Substitution} :
    unify label part pattern target s = .ok s' ↔ Expr.matchWith s pattern target = some s' := by
  unfold unify
  cases Expr.matchWith s pattern target <;> simp

theorem MarkedTried.tail {check : ProofCheck} {p : PendingProof} {ps : List PendingProof}
    (h : MarkedTried check (p :: ps)) : MarkedTried check ps :=
  fun q hq => h q (List.mem_cons_of_mem _ hq)

theorem Round.of_round {check : ProofCheck} {label : Name} {pending rest : List PendingProof}
    {s s' : Substitution} (htried : MarkedTried check pending)
    (h : (round check label pending s).result = .ok (rest, s')) :
    Round check pending s rest s' := by
  induction pending generalizing s rest s' with
  | nil =>
    cases h
    exact .nil
  | cons p ps ih =>
    rw [round, Traced.result_examine_then] at h
    split at h
    · rename_i hg
      obtain ⟨e, he, h⟩ := Traced.result_bind_eq_ok_iff.mp h
      exact .goal hg he (ih htried.tail h)
    · rename_i hg
      have hg : p.hypothesis.isGround s = false := by simpa using hg
      split at h
      · rename_i hp
        obtain ⟨⟨rest', t⟩, hround, he⟩ := Traced.result_bind_eq_ok_iff.mp h
        cases he
        have hwaits := Round.waits hg (htried p List.mem_cons_self hp) (ih htried.tail hround)
        rwa [show { p with tried := true } = p by rw [← hp]] at hwaits
      · dsimp only at h
        split at h
        · rename_i proved hc
          obtain ⟨m, hm, h⟩ := Traced.result_bind_eq_ok_iff.mp h
          exact .found hg hc (unify_eq_ok_iff.mp hm) (ih htried.tail h)
        · rename_i failure hc
          split at h
          · rename_i hu
            obtain ⟨⟨rest', t⟩, hround, he⟩ := Traced.result_bind_eq_ok_iff.mp h
            cases he
            exact .waits hg ⟨failure, hc, hu⟩ (ih htried.tail hround)
          · cases h

theorem Round.result_round {check : ProofCheck} {pending rest : List PendingProof}
    {s s' : Substitution} (h : Round check pending s rest s') (label : Name)
    (htried : MarkedTried check pending) :
    (round check label pending s).result = .ok (rest, s') := by
  induction h with
  | nil => rfl
  | goal ground proved _ ih =>
    rw [round, Traced.result_examine_then, if_pos ground, Traced.result_bind_eq_ok_iff]
    exact ⟨_, proved, ih htried.tail⟩
  | @found p _ _ _ m _ _ unknown proved matched _ ih =>
    have hp : ¬ p.tried = true := by
      intro hp
      obtain ⟨failure, hf, _⟩ := htried p List.mem_cons_self hp
      rw [proved] at hf
      cases hf
    rw [round, Traced.result_examine_then, if_neg (by simp [unknown]), if_neg hp]
    dsimp only
    rw [proved]
    exact Traced.result_bind_eq_ok_iff.mpr ⟨m, unify_eq_ok_iff.mpr matched, ih htried.tail⟩
  | @waits p _ _ _ _ unknown unresolved _ ih =>
    obtain ⟨failure, hf, hu⟩ := unresolved
    rw [round, Traced.result_examine_then, if_neg (by simp [unknown])]
    split
    · rename_i hp
      rw [Traced.result_bind_eq_ok_iff, show { p with tried := true } = p by rw [← hp]]
      exact ⟨_, ih htried.tail, rfl⟩
    · dsimp only
      rw [hf]
      dsimp only
      rw [if_pos hu]
      exact Traced.result_bind_eq_ok_iff.mpr ⟨_, ih htried.tail, rfl⟩

namespace Round

variable {check : ProofCheck} {ps rest : List PendingProof} {s s' t : Substitution}

theorem extends_start (h : Round check ps s rest s') : s'.Extends s := by
  induction h with
  | nil => exact Registry.Extends.refl _
  | goal _ _ _ ih => exact ih
  | found _ _ matched _ ih => exact ih.trans (Expr.matchWith_sound _ _ matched).extends_start
  | waits _ _ _ ih => exact ih

theorem length_le (h : Round check ps s rest s') : rest.length ≤ ps.length := by
  induction h with
  | nil => exact Nat.le_refl _
  | goal _ _ _ ih => exact Nat.le_succ_of_le ih
  | found _ _ _ _ ih => exact Nat.le_succ_of_le ih
  | waits _ _ _ ih => exact Nat.succ_le_succ ih

/-- A match settles its hypothesis for the rest of the round. -/
theorem settled (h : Round check ps s rest s') :
    ∀ p ∈ ps, Settled check s' p ∨ { p with tried := true } ∈ rest := by
  induction h with
  | nil => nofun
  | goal ground proved tail ih =>
    rw [List.forall_mem_cons]
    exact ⟨.inl (Settled.mono ⟨ground, .inl ⟨_, proved⟩⟩ tail.extends_start), ih⟩
  | found _ proved matched tail ih =>
    have hmatch := Expr.matchWith_sound _ _ matched
    rw [List.forall_mem_cons]
    refine ⟨.inl (Settled.mono ⟨hmatch.ground, .inr ?_⟩ tail.extends_start), ih⟩
    rw [proved, hmatch.subst_eq]
  | waits _ _ _ ih =>
    rw [List.forall_mem_cons]
    refine ⟨.inr List.mem_cons_self, fun p hp => ?_⟩
    exact (ih p hp).imp_right (List.mem_cons_of_mem _)

theorem waiting (h : Round check ps s rest s') :
    ∀ q ∈ rest, Unresolved check q.proof ∧ ∃ p ∈ ps, q = { p with tried := true } := by
  induction h with
  | nil => nofun
  | goal _ _ _ ih | found _ _ _ _ ih =>
    intro q hq
    obtain ⟨hu, p, hp, he⟩ := ih q hq
    exact ⟨hu, p, List.mem_cons_of_mem _ hp, he⟩
  | @waits p _ _ _ _ _ unresolved _ ih =>
    rw [List.forall_mem_cons]
    refine ⟨⟨unresolved, p, List.mem_cons_self, rfl⟩, fun q hq => ?_⟩
    obtain ⟨hu, p', hp, he⟩ := ih q hq
    exact ⟨hu, p', List.mem_cons_of_mem _ hp, he⟩

theorem markedTried (h : Round check ps s rest s') : MarkedTried check rest :=
  fun q hq _ => (h.waiting q hq).1

/-- Only the proofs that succeed without a goal add to what is known. -/
theorem domain (h : Round check ps s rest s') {x : Name} (hx : s'.contains x = true) :
    s.contains x = true ∨
      ∃ p ∈ ps, (∃ e, (check p.proof none).result = .ok e) ∧ x ∈ p.hypothesis.vars := by
  induction h with
  | nil => exact .inl hx
  | goal _ _ _ ih | waits _ _ _ ih =>
    rcases ih hx with hs | ⟨p, hp, hr⟩
    · exact .inl hs
    · exact .inr ⟨p, List.mem_cons_of_mem _ hp, hr⟩
  | @found p _ _ _ _ _ _ _ proved matched _ ih =>
    rcases ih hx with hm | ⟨p', hp, hr⟩
    · rcases (Expr.matchWith_sound _ _ matched).domain x hm with hs | hv
      · exact .inl hs
      · exact .inr ⟨p, List.mem_cons_self, ⟨_, proved⟩, hv⟩
    · exact .inr ⟨p', List.mem_cons_of_mem _ hp, hr⟩

/-- A round that settles nothing leaves what is known as it was, and no hypothesis is settled. -/
theorem stuck (h : Round check ps s rest s') (hl : rest.length = ps.length) :
    s' = s ∧ ∀ q ∈ rest, q.hypothesis.isGround s = false := by
  induction h with
  | nil => exact ⟨rfl, nofun⟩
  | goal _ _ tail _ | found _ _ _ tail _ =>
    have := tail.length_le
    simp only [List.length_cons] at hl
    omega
  | waits unknown _ _ ih =>
    obtain ⟨he, hq⟩ := ih (by simpa using hl)
    exact ⟨he, List.forall_mem_cons.mpr ⟨unknown, hq⟩⟩

end Round

/-- The proof proves its hypothesis as `t` settles it, whether it is checked with a goal or, as far
as that tells, without one. -/
structure Fits (check : ProofCheck) (t : Substitution) (p : PendingProof) : Prop where
  ground : p.hypothesis.isGround t = true
  with_goal : ∃ e, (check p.proof (some (p.hypothesis.subst t))).result = .ok e
  without_goal : (check p.proof none).result = .ok (p.hypothesis.subst t) ∨ Unresolved check p.proof

/-- Proofs that all fit one substitution cannot lead a round away from it. -/
theorem Round.exists_of_fits {check : ProofCheck} {ps : List PendingProof} {s t : Substitution}
    (hf : ∀ p ∈ ps, Fits check t p) (ht : t.Extends s) :
    ∃ rest s', Round check ps s rest s' ∧ t.Extends s' := by
  induction ps generalizing s with
  | nil => exact ⟨[], s, .nil, ht⟩
  | cons p ps ih =>
    obtain ⟨⟨hground, ⟨e, he⟩, hnone⟩, hf⟩ := List.forall_mem_cons.mp hf
    cases hg : p.hypothesis.isGround s with
    | true =>
      obtain ⟨rest, s', h, hs⟩ := ih hf ht
      rw [Expr.subst_of_extends ht hg] at he
      exact ⟨rest, s', .goal hg he h, hs⟩
    | false =>
      rcases hnone with hok | hu
      · obtain ⟨m, hm, htm⟩ := Expr.matchWith_complete p.hypothesis hground ht
        obtain ⟨rest, s', h, hs⟩ := ih hf htm
        exact ⟨rest, s', .found hg hok hm h, hs⟩
      · obtain ⟨rest, s', h, hs⟩ := ih hf ht
        exact ⟨_, s', .waits hg hu h, hs⟩

/-- Round after round, up to the first one that settles nothing. -/
inductive Rounds (check : ProofCheck) :
    List PendingProof → Substitution → List PendingProof → Substitution → Prop
  | last {ps rest : List PendingProof} {s s' : Substitution} (round : Round check ps s rest s')
      (stuck : rest.length = ps.length) : Rounds check ps s rest s'
  | more {ps mid rest : List PendingProof} {s m s' : Substitution} (round : Round check ps s mid m)
      (fewer : mid.length < ps.length) (tail : Rounds check mid m rest s') :
      Rounds check ps s rest s'

theorem Rounds.of_rounds {check : ProofCheck} {label : Name} {n : Nat}
    {pending rest : List PendingProof} {s s' : Substitution} (hn : pending.length ≤ n)
    (htried : MarkedTried check pending)
    (h : (rounds check label n pending s).result = .ok (rest, s')) :
    Rounds check pending s rest s' := by
  induction n generalizing pending s with
  | zero =>
    cases List.length_eq_zero_iff.mp (Nat.le_zero.mp hn)
    cases h
    exact .last .nil rfl
  | succ n ih =>
    rw [rounds] at h
    obtain ⟨⟨mid, m⟩, hround, h⟩ := Traced.result_bind_eq_ok_iff.mp h
    have hround := Round.of_round htried hround
    dsimp only at h
    split at h
    · rename_i hlt
      exact .more hround hlt (ih (by omega) hround.markedTried h)
    · rename_i hge
      cases h
      exact .last hround (Nat.le_antisymm hround.length_le (Nat.le_of_not_lt hge))

theorem Rounds.result_rounds {check : ProofCheck} {pending rest : List PendingProof}
    {s s' : Substitution} (h : Rounds check pending s rest s') (label : Name) {n : Nat}
    (hn : pending.length ≤ n) (htried : MarkedTried check pending) :
    (rounds check label n pending s).result = .ok (rest, s') := by
  induction h generalizing n with
  | @last ps rest s s' round stuck =>
    cases n with
    | zero =>
      cases List.length_eq_zero_iff.mp (Nat.le_zero.mp hn)
      cases round
      rfl
    | succ n =>
      rw [rounds, Traced.result_bind_eq_ok_iff]
      refine ⟨_, round.result_round label htried, ?_⟩
      dsimp only
      rw [if_neg (by omega)]
      rfl
  | more round fewer tail ih =>
    cases n with
    | zero => omega
    | succ n =>
      rw [rounds, Traced.result_bind_eq_ok_iff]
      refine ⟨_, round.result_round label htried, ?_⟩
      dsimp only
      rw [if_pos fewer]
      exact ih (by omega) round.markedTried

namespace Rounds

variable {check : ProofCheck} {ps rest : List PendingProof} {s s' t : Substitution}

theorem extends_start (h : Rounds check ps s rest s') : s'.Extends s := by
  induction h with
  | last round _ => exact round.extends_start
  | more round _ _ ih => exact ih.trans round.extends_start

theorem settled (h : Rounds check ps s rest s') :
    ∀ p ∈ ps, Settled check s' p ∨ { p with tried := true } ∈ rest := by
  induction h with
  | last round _ => exact round.settled
  | more round _ tail ih =>
    intro p hp
    rcases round.settled p hp with hs | hm
    · exact .inl (hs.mono tail.extends_start)
    · rcases ih _ hm with hs | hr
      · exact .inl ⟨hs.ground, hs.checked⟩
      · exact .inr hr

theorem waiting (h : Rounds check ps s rest s') :
    ∀ q ∈ rest, Unresolved check q.proof ∧ ∃ p ∈ ps, q = { p with tried := true } := by
  induction h with
  | last round _ => exact round.waiting
  | more round _ _ ih =>
    intro q hq
    obtain ⟨hu, p, hp, rfl⟩ := ih q hq
    obtain ⟨_, p', hp', rfl⟩ := round.waiting p hp
    exact ⟨hu, p', hp', rfl⟩

theorem domain (h : Rounds check ps s rest s') {x : Name} (hx : s'.contains x = true) :
    s.contains x = true ∨
      ∃ p ∈ ps, (∃ e, (check p.proof none).result = .ok e) ∧ x ∈ p.hypothesis.vars := by
  induction h with
  | last round _ => exact round.domain hx
  | more round _ _ ih =>
    rcases ih hx with hm | ⟨q, hq, hr⟩
    · exact round.domain hm
    · obtain ⟨_, p, hp, rfl⟩ := round.waiting q hq
      exact .inr ⟨p, hp, hr⟩

theorem not_ground (h : Rounds check ps s rest s') :
    ∀ q ∈ rest, q.hypothesis.isGround s' = false := by
  induction h with
  | last round stuck =>
    obtain ⟨rfl, hq⟩ := round.stuck stuck
    exact hq
  | more _ _ _ ih => exact ih

/-- Nothing is left where all hypotheses are known. -/
theorem rest_eq_nil (h : Rounds check ps s rest s')
    (hground : ∀ p ∈ ps, p.hypothesis.isGround s' = true) : rest = [] := by
  refine List.eq_nil_iff_forall_not_mem.mpr fun q hq => ?_
  obtain ⟨_, p, hp, rfl⟩ := h.waiting q hq
  have hnot := h.not_ground _ hq
  rw [hground p hp] at hnot
  cases hnot

/-- A proof that succeeds without a goal does not wait, and its hypothesis is known in the end. -/
theorem ground_of_proved (h : Rounds check ps s rest s') {p : PendingProof} (hp : p ∈ ps) {e : Expr}
    (he : (check p.proof none).result = .ok e) : p.hypothesis.isGround s' = true := by
  rcases h.settled p hp with hset | hrest
  · exact hset.ground
  · obtain ⟨⟨failure, hf, _⟩, _⟩ := h.waiting _ hrest
    rw [he] at hf
    cases hf

theorem exists_of_fits (hf : ∀ p ∈ ps, Fits check t p) (ht : t.Extends s) :
    ∃ rest s', Rounds check ps s rest s' ∧ t.Extends s' := by
  induction hn : ps.length using Nat.strongRecOn generalizing ps s with
  | ind n ih =>
    obtain ⟨mid, m, hround, hm⟩ := Round.exists_of_fits hf ht
    rcases Nat.lt_or_eq_of_le hround.length_le with hlt | heq
    · have hmid : ∀ q ∈ mid, Fits check t q := by
        intro q hq
        obtain ⟨_, p, hp, rfl⟩ := hround.waiting q hq
        exact ⟨(hf p hp).ground, (hf p hp).with_goal, (hf p hp).without_goal⟩
      obtain ⟨rest, s', h, hs⟩ := ih mid.length (by omega) hmid hm rfl
      exact ⟨rest, s', .more hround hlt h, hs⟩
    · exact ⟨mid, m, .last hround heq, hm⟩

end Rounds
end Deductive.ProofContext
