import Deductive.Proofs.Failures
import Deductive.Proofs.ProofGrammar
import Deductive.Proofs.Reordering
import Deductive.Proofs.Stopping

/-!
The limit on the nesting of proofs. Reading a proof counts the proofs around one another, and
checking it has as many left at every node, so that what was read under a limit is checked in the
same way under all larger ones. There is one exception: an argument that stands where a proof should
be is no proof when it is read, but counts as one when it is checked.
-/
namespace Deductive

namespace ProofTerm

mutual

/-- How many proofs stand around one another. An argument is none. -/
def nesting : ProofTerm → Nat
  | .ref _ _ => 1
  | .app _ items _ => nestingAll items + 1
  | .expr _ => 0
  | .hole => 0

def nestingAll : List ProofTerm → Nat
  | [] => 0
  | p :: ps => max p.nesting (nestingAll ps)

end

/-- A node of a proof at a depth, which is how many applications it stands in. -/
inductive Holds : ProofTerm → Nat → ProofTerm → Prop
  | self (p : ProofTerm) : Holds p 0 p
  | item {p q r : ProofTerm} {depth : Nat} (mem : q ∈ p.items) (inner : Holds q depth r) :
      Holds p (depth + 1) r

theorem nesting_le_nestingAll {p : ProofTerm} {ps : List ProofTerm} (hp : p ∈ ps) :
    p.nesting ≤ nestingAll ps := by
  induction ps with
  | nil => cases hp
  | cons q ps ih =>
    rw [nestingAll]
    rcases List.mem_cons.mp hp with rfl | hp
    · exact Nat.le_max_left _ _
    · exact Nat.le_trans (ih hp) (Nat.le_max_right _ _)

theorem nesting_lt_of_mem_items {p q : ProofTerm} (hq : q ∈ p.items) : q.nesting < p.nesting := by
  cases p with
  | app name items position =>
    rw [nesting]
    exact Nat.lt_succ_of_le (nesting_le_nestingAll hq)
  | ref | expr | hole => cases hq

theorem Holds.nesting_le {p q : ProofTerm} {depth : Nat} (h : p.Holds depth q) :
    q.nesting + depth ≤ p.nesting := by
  induction h with
  | self p => exact Nat.le_refl _
  | item mem _ ih =>
    have := nesting_lt_of_mem_items mem
    omega

theorem Holds.trans {p q r : ProofTerm} {depth below : Nat} (h : p.Holds depth q)
    (h' : q.Holds below r) : p.Holds (depth + below) r := by
  induction h with
  | self p => rwa [Nat.zero_add]
  | item mem _ ih =>
    rw [Nat.add_right_comm]
    exact .item mem (ih h')

variable {sig : Signature} {limit : Int}

mutual

/-- A limit on the depths at which proofs stand is one on their nesting. -/
theorem Spells.nesting_le {depth : Nat} {used : List Token} {p : ProofTerm} :
    Spells sig limit depth used p → p.nesting + depth ≤ limit + 1
  | .ref nested _ _ => by
    rw [nesting]
    omega
  | .app nested _ _ spelled _ => by
    have := spelled.nestingAll_le (by omega)
    rw [nesting]
    omega

theorem SpellsItem.nesting_le {depth : Nat} {used : List Token} {p : ProofTerm}
    (hdepth : depth ≤ limit + 1) :
    SpellsItem sig limit depth used p → p.nesting + depth ≤ limit + 1
  | .proof spelled => spelled.nesting_le
  | .math _ _ => by
    rw [nesting]
    omega
  | .hole _ => by
    rw [nesting]
    omega

theorem SpellsItems.nestingAll_le {depth : Nat} {used : List Token} {ps : List ProofTerm}
    (hdepth : depth ≤ limit + 1) :
    SpellsItems sig limit depth used ps → nestingAll ps + depth ≤ limit + 1
  | .nil => by
    rw [nestingAll]
    omega
  | .cons first more => by
    have := first.nesting_le hdepth
    have := more.nestingAll_le hdepth
    rw [nestingAll]
    omega

end

end ProofTerm

theorem ProofFile.Spells.exists_spells {sig : Signature} {limit : Int} {used : List Token}
    {ds : List ProofDecl} (h : Spells sig limit used ds) {d : ProofDecl} (hd : d ∈ ds) :
    ∃ inner, d.proof.Spells sig limit 0 inner := by
  induction h with
  | nil => cases hd
  | cons first _ ih =>
    rcases List.mem_cons.mp hd with rfl | hd
    · cases first with
      | proof _ _ _ spelled _ => exact ⟨_, spelled⟩
    · exact ih hd

/-- A proof that is read is nested no deeper than the limit, where the first one has depth 0. -/
theorem ProofFile.nesting_le_of_parse {text : String} {sig : Signature} {limit : Int}
    {proofs : ProofFile} (h : parse text sig limit = .ok proofs) {label : Name} {decl : ProofDecl}
    (hdecl : proofs.get? label = some decl) : decl.proof.nesting ≤ limit + 1 := by
  rw [parse] at h
  split at h
  · cases h
  · obtain ⟨ds, hds, hentries⟩ := (read_iff_spells (Nat.le_refl _)).mp h
    have hmem := Registry.get?_eq_some_iff.mp hdecl
    rw [hentries] at hmem
    obtain ⟨d, hd, he⟩ := List.mem_map.mp hmem
    cases he
    obtain ⟨inner, hspelled⟩ := hds.exists_spells hd
    have := hspelled.nesting_le
    omega

namespace ProofContext

/-- Whatever fails for a limit on nesting names the limit of the context. -/
theorem eq_limit_of_check {ctx : ProofContext} {n : Nat} {p : ProofTerm} {goal : Option Expr}
    {l : Int} (h : (ctx.check n p goal).result = .error (.nestingLimit l)) : l = ctx.limit := by
  have hnamed : ∀ failure, (ctx.check n p goal).result = .error failure →
      failure.stage = .nesting → failure = .nestingLimit ctx.limit := by
    refine check_failure (fun _ => rfl) (fun failure hstage hnesting => ?_)
      (fun n label items goal failure hc hstep hnesting => ?_) n p goal
    · rw [hstage] at hnesting
      cases hnesting
    · rcases hstep.stage with ⟨q, g, hq⟩ | hstage
      · exact hc q g failure hq hnesting
      · exact absurd hnesting hstage
  cases hnamed _ h rfl
  rfl

variable {t : Theory} {claim : Assertion} {limit larger : Int}

theorem sameClaim_of_limits (t : Theory) (claim : Assertion) (limit larger : Int) :
    SameClaim (ofTheory t claim limit) (ofTheory t claim larger) :=
  ⟨rfl, rfl, rfl, rfl⟩

/-- With less nesting left a check goes as far as it gets. -/
theorem check_begins_larger {n m : Nat} (hnm : n ≤ m) (p : ProofTerm) (goal : Option Expr) :
    ((ofTheory t claim limit).check n p goal).Begins (· = .nestingLimit limit)
      ((ofTheory t claim larger).check m p goal) := by
  refine check_begins (fun n m _ => n ≤ m) (sameClaim_of_limits t claim limit larger)
    (fun _ h => by rw [h]; rfl) (fun _ => .same _) (fun n m _ h _ _ => by omega) ?_ hnm goal
  rintro n m p hnm (rfl | rfl) goal
  · exact .stopped rfl rfl List.nil_prefix
  · obtain rfl := Nat.le_zero.mp hnm
    exact .stopped rfl rfl List.nil_prefix

/-- Where enough nesting is left for all proofs, only arguments are told in another way when more is
left. -/
theorem check_begins_smaller {n m : Nat} (hnm : n < m) {p : ProofTerm} (hp : p.nesting ≤ n)
    (goal : Option Expr) :
    ((ofTheory t claim larger).check m p goal).Begins (· = .notAProof)
      ((ofTheory t claim limit).check n p goal) := by
  refine check_begins (fun m n p => n < m ∧ p.nesting ≤ n)
    (sameClaim_of_limits t claim larger limit) (fun _ h => by rw [h]; rfl) (fun _ => .same _)
    ?_ ?_ ⟨hnm, hp⟩ goal
  · intro m n p h q hq
    have := ProofTerm.nesting_lt_of_mem_items hq
    omega
  · rintro m n p ⟨hnm, hp⟩ hend goal
    obtain ⟨m, rfl⟩ := Nat.exists_eq_succ_of_ne_zero (Nat.ne_of_gt (Nat.zero_lt_of_lt hnm))
    cases p with
    | expr | hole => exact .stopped rfl rfl List.nil_prefix
    | ref | app =>
      rw [ProofTerm.nesting] at hp
      omega

/-- Where no node comes to the end of the nesting that is left, more makes no difference. -/
theorem check_eq_of_not_holds {n m : Nat} (hnm : n ≤ m) {p : ProofTerm}
    (hp : ∀ q, ¬ p.Holds n q) (goal : Option Expr) :
    (ofTheory t claim larger).check m p goal = (ofTheory t claim limit).check n p goal := by
  refine Traced.Begins.eq_of_never (check_begins (fun n m p => n ≤ m ∧ ∀ q, ¬ p.Holds n q)
    (sameClaim_of_limits t claim limit larger) nofun (fun _ => .same _) ?_ ?_ ⟨hnm, hp⟩ goal)
  · rintro n m p ⟨hnm, hp⟩ q hq
    exact ⟨by omega, fun r hr => hp r (.item hq hr)⟩
  · rintro n m p ⟨hnm, hp⟩ hend goal
    obtain rfl : n = 0 := by omega
    exact absurd (.self p) (hp p)

/-- A node of a proof that is nested no deeper than the limit is checked in the same way under
larger limits, but for an argument that is told in another way. -/
theorem checkAt_cases {proof q : ProofTerm} {depth : Nat} (hlarger : limit < larger)
    (hproof : proof.nesting ≤ limit + 1) (hq : proof.Holds depth q) (goal : Option Expr) :
    let run := fun limit => (ofTheory t claim limit).checkAt depth q goal
    run larger = run limit ∨ (run larger).events = (run limit).events ∧
      (run limit).result = .error (.nestingLimit limit) ∧
      (run larger).result = .error .notAProof := by
  have hnesting := hq.nesting_le
  have hnm : (limit + 1 - depth).toNat < (larger + 1 - depth).toNat := by omega
  have hfirst : ((ofTheory t claim limit).checkAt depth q goal).Begins (· = .nestingLimit limit)
      ((ofTheory t claim larger).checkAt depth q goal) :=
    check_begins_larger (Nat.le_of_lt hnm) q goal
  have hsecond : ((ofTheory t claim larger).checkAt depth q goal).Begins (· = .notAProof)
      ((ofTheory t claim limit).checkAt depth q goal) :=
    check_begins_smaller hnm (by omega) goal
  rcases hfirst.antisymm hsecond with heq | ⟨hevents, ⟨_, hresult, rfl⟩, _, hresult', rfl⟩
  · exact .inl heq
  · exact .inr ⟨hevents, hresult, hresult'⟩

/-- A larger limit makes a difference only if there is an argument right below the limit. -/
theorem checkAt_eq_of_not_holds {proof q : ProofTerm} {depth : Nat} (hlarger : limit ≤ larger)
    (hproof : proof.nesting ≤ limit + 1) (hq : proof.Holds depth q)
    (hnone : ∀ r, proof.Holds (limit + 1).toNat r → r.nesting ≠ 0) (goal : Option Expr) :
    (ofTheory t claim larger).checkAt depth q goal =
      (ofTheory t claim limit).checkAt depth q goal := by
  have hnesting := hq.nesting_le
  refine check_eq_of_not_holds ?_ (fun r hr => ?_) goal
  · change (limit + 1 - depth).toNat ≤ (larger + 1 - depth).toNat
    omega
  · change q.Holds (limit + 1 - depth).toNat r at hr
    have hdepth : depth + (limit + 1 - depth).toNat = (limit + 1).toNat := by omega
    have hplace := hq.trans hr
    rw [hdepth] at hplace
    have := hplace.nesting_le
    exact hnone r hplace (by omega)

end ProofContext

section

variable {α : Type} {fails : α → ProofFailure → Prop} {run : Int → α} {proof : ProofTerm}
  {limit : Int}

/-- The limit only cuts off what is done under it: either nothing fails for the limit and nothing
changes under a larger one, or a node right below the limit is an argument, and this is told as too
much nesting under the limit and as what it is under every larger one. -/
def OnlyCutsOff (fails : α → ProofFailure → Prop) (run : Int → α) (proof : ProofTerm)
    (limit : Int) : Prop :=
  (∀ l, ¬ fails (run limit) (.nestingLimit l)) ∧
    (∀ larger, limit ≤ larger → run larger = run limit) ∨
  fails (run limit) (.nestingLimit limit) ∧
    (∀ larger, limit < larger → fails (run larger) .notAProof) ∧
    ∃ q, proof.Holds (limit + 1).toNat q ∧ q.nesting = 0

theorem OnlyCutsOff.of_cases
    (hnamed : ∀ limit l, fails (run limit) (.nestingLimit l) → l = limit)
    (hcases : ∀ larger, limit < larger → run larger = run limit ∨
      fails (run limit) (.nestingLimit limit) ∧ fails (run larger) .notAProof)
    (hnone : (∀ q, proof.Holds (limit + 1).toNat q → q.nesting ≠ 0) →
      ∀ larger, limit ≤ larger → run larger = run limit) :
    OnlyCutsOff fails run proof limit := by
  by_cases hf : fails (run limit) (.nestingLimit limit)
  · have hdiffers (larger : Int) (hlarger : limit < larger) : run larger ≠ run limit := by
      intro heq
      have := hnamed larger limit (heq ▸ hf)
      omega
    refine .inr ⟨hf, fun larger hlarger => ?_, ?_⟩
    · rcases hcases larger hlarger with heq | ⟨_, hfails⟩
      · exact absurd heq (hdiffers larger hlarger)
      · exact hfails
    · by_contra hno
      refine hdiffers (limit + 1) (by omega) (hnone (fun q hq h => hno ⟨q, hq, h⟩) _ (by omega))
  · refine .inl ⟨fun l hl => ?_, fun larger hlarger => ?_⟩
    · cases hnamed limit l hl
      exact hf hl
    · rcases Int.lt_or_eq_of_le hlarger with hlt | rfl
      · rcases hcases larger hlt with heq | ⟨hfails, _⟩
        · exact heq
        · exact absurd hfails hf
      · rfl

end

namespace Theory

variable {t : Theory} {claim : Assertion} {proof : ProofTerm} {limit larger : Int}

theorem checkAt_onlyCutsOff (hproof : proof.nesting ≤ limit + 1) {depth : Nat} {q : ProofTerm}
    (hq : proof.Holds depth q) (goal : Option Expr) :
    OnlyCutsOff (fun r failure => r.result = .error failure)
      (fun limit => (ProofContext.ofTheory t claim limit).checkAt depth q goal) proof limit := by
  refine .of_cases (fun limit l h => ProofContext.eq_limit_of_check h) (fun larger hlarger => ?_)
    fun hnone larger hlarger => ?_
  · exact (ProofContext.checkAt_cases hlarger hproof hq goal).imp_right And.right
  · exact ProofContext.checkAt_eq_of_not_holds hlarger hproof hq hnone goal

theorem verifyTheorem_congr (h : ((ProofContext.ofTheory t claim larger).checkClaim proof).cutOff =
    ((ProofContext.ofTheory t claim limit).checkClaim proof).cutOff) :
    t.verifyTheorem claim proof larger = t.verifyTheorem claim proof limit := by
  rw [verifyTheorem, verifyTheorem, h]

theorem result_of_failed {failure : ProofFailure} (hne : failure ≠ .tooDeep)
    (h : (t.verifyTheorem claim proof limit).2 = .failed failure) :
    ((ProofContext.ofTheory t claim limit).checkClaim proof).result = .error failure := by
  rw [verifyTheorem] at h
  split at h
  · cases h
  · rename_i failure' hfailure
    cases h
    exact Traced.error_of_cutOff hne hfailure

theorem failed_of_result {failure : ProofFailure}
    (h : ((ProofContext.ofTheory t claim limit).checkClaim proof).cutOff.result = .error failure) :
    (t.verifyTheorem claim proof limit).2 = .failed failure := by
  rw [verifyTheorem]
  split
  · rename_i hok
    cases h.symm.trans hok
  · rename_i hfailure
    cases h.symm.trans hfailure
    rfl

theorem verifyTheorem_onlyCutsOff (hproof : proof.nesting ≤ limit + 1) :
    OnlyCutsOff (fun r failure => r.2 = .failed failure)
      (fun limit => t.verifyTheorem claim proof limit) proof limit := by
  refine .of_cases (fun limit l h => ?_) (fun larger hlarger => ?_) fun hnone larger hlarger => ?_
  · exact ProofContext.eq_limit_of_check (result_of_failed nofun h)
  · rcases ProofContext.checkAt_cases hlarger hproof (.self proof) (some claim.conclusion) with
      heq | ⟨hevents, hlimit, hlarger⟩
    · exact .inl (verifyTheorem_congr (congrArg Traced.cutOff heq))
    -- Neither message shows an expression, so that both runs are cut off at the same event or not
    -- at all.
    · change ((ProofContext.ofTheory t claim larger).checkClaim proof).events =
        ((ProofContext.ofTheory t claim limit).checkClaim proof).events at hevents
      cases hdeep : ((ProofContext.ofTheory t claim limit).checkClaim proof).events.any
        ProofEvent.isTooDeep with
      | true =>
        refine .inl (verifyTheorem_congr ?_)
        rw [Traced.cutOff_of_deep hdeep, Traced.cutOff_of_deep (hevents ▸ hdeep), hevents]
      | false =>
        have htold := Traced.cutOff_of_shown hdeep hlimit rfl
        have htold' := Traced.cutOff_of_shown (hevents ▸ hdeep) hlarger rfl
        refine .inr ⟨failed_of_result ?_, failed_of_result ?_⟩
        · exact htold.symm ▸ hlimit
        · exact htold'.symm ▸ hlarger
  · exact verifyTheorem_congr (congrArg Traced.cutOff
      (ProofContext.checkAt_eq_of_not_holds hlarger hproof (.self proof) hnone _))

/-- A proof that is verified under a limit is verified in the same way under a larger one, however
deep it is. -/
theorem verifyTheorem_eq_of_verified (hlarger : limit ≤ larger)
    (h : (t.verifyTheorem claim proof limit).2 = .verified) :
    t.verifyTheorem claim proof larger = t.verifyTheorem claim proof limit := by
  obtain ⟨e, he⟩ := result_of_verified h
  have hbegins : ((ProofContext.ofTheory t claim limit).checkClaim proof).Begins
      (· = .nestingLimit limit) ((ProofContext.ofTheory t claim larger).checkClaim proof) :=
    ProofContext.check_begins_larger (Int.toNat_le_toNat (by
      change limit + 1 - 0 ≤ larger + 1 - 0
      omega)) proof _
  exact verifyTheorem_congr (congrArg Traced.cutOff (hbegins.eq_of_ok he))

/-- The limit under which proofs are read is also one under which they can be checked. A proof that
is read has the same verdict under all larger limits, every node of it is checked in the same way
there, with any goal or without one, and nothing fails for a limit, but for an argument in the place
of a proof right below the limit. Any proof that is verified is verified under all larger limits. -/
theorem nesting_limits_agree (t : Theory) (claim : Assertion) :
    (∀ text limit proofs label decl, ProofFile.parse text t.signature limit = .ok proofs →
      proofs.get? label = some decl →
      OnlyCutsOff (fun r failure => r.2 = .failed failure)
        (fun limit => t.verifyTheorem claim decl.proof limit) decl.proof limit ∧
      ∀ depth q goal, decl.proof.Holds depth q →
        OnlyCutsOff (fun r failure => r.result = .error failure)
          (fun limit => (ProofContext.ofTheory t claim limit).checkAt depth q goal)
          decl.proof limit) ∧
    ∀ proof limit larger, limit ≤ larger → (t.verifyTheorem claim proof limit).2 = .verified →
      (t.verifyTheorem claim proof larger).2 = .verified := by
  constructor
  · intro text limit proofs label decl hparse hdecl
    have hproof := ProofFile.nesting_le_of_parse hparse hdecl
    exact ⟨verifyTheorem_onlyCutsOff hproof,
      fun depth q goal hq => checkAt_onlyCutsOff hproof hq goal⟩
  · intro proof limit larger hlarger h
    rw [verifyTheorem_eq_of_verified hlarger h]
    exact h

end Theory

namespace Detachment

private theorem exists_of_read (text : String) (limit : Int) {α : Type} (f : ProofTerm → α) {a : α}
    (h : ((ProofFile.parse text theory.signature limit).toOption.bind fun proofs =>
      (proofs.get? chained.label).map fun d => f d.proof) = some a) :
    ∃ proofs decl, ProofFile.parse text theory.signature limit = .ok proofs ∧
      proofs.get? chained.label = some decl ∧ f decl.proof = a := by
  obtain ⟨proofs, hproofs, h⟩ := Option.bind_eq_some_iff.mp h
  obtain ⟨decl, hdecl, h⟩ := Option.map_eq_some_iff.mp h
  exact ⟨proofs, decl, eq_ok_of_toOption hproofs, hdecl, h⟩

/-- The inner step has two holes for its proofs, which stand right below the limit. -/
theorem holes_below_limit :
    ∃ proofs decl,
      ProofFile.parse "proof chained = (mp (mp _ _) hqr);" theory.signature 1 = .ok proofs ∧
      proofs.get? chained.label = some decl ∧
      ((theory.verifyTheorem chained decl.proof 1).2.message? theory.signature,
        (theory.verifyTheorem chained decl.proof 2).2.message? theory.signature) =
        (some "Proof nesting exceeds the limit of 1",
          some "Expected a proof, got an expression argument") :=
  exists_of_read _ 1 (fun proof =>
    ((theory.verifyTheorem chained proof 1).2.message? theory.signature,
      (theory.verifyTheorem chained proof 2).2.message? theory.signature)) (by decide +kernel)

/-- Three proofs stand around one another, for which the limit 2 is enough. -/
theorem verified_under_limits :
    ∃ proofs decl,
      ProofFile.parse "proof chained = (mp (mp h hpq) hqr);" theory.signature 2 = .ok proofs ∧
      proofs.get? chained.label = some decl ∧
      (∀ larger, 2 ≤ larger → (theory.verifyTheorem chained decl.proof larger).2 = .verified) ∧
      ∀ l, (theory.verifyTheorem chained decl.proof 2).2 ≠ .failed (.nestingLimit l) := by
  obtain ⟨proofs, decl, hparse, hdecl, hverified⟩ := exists_of_read
    "proof chained = (mp (mp h hpq) hqr);" 2 (fun proof => (theory.verifyTheorem chained proof 2).2)
    (a := Verdict.verified) (by decide +kernel)
  obtain ⟨hread, hlarger⟩ := Theory.nesting_limits_agree theory chained
  refine ⟨proofs, decl, hparse, hdecl, fun larger h => hlarger _ 2 larger h hverified, ?_⟩
  rcases (hread _ 2 proofs _ decl hparse hdecl).1 with ⟨hnone, _⟩ | ⟨hfails, _⟩
  · exact hnone
  · cases hverified.symm.trans hfails

end Detachment
end Deductive
