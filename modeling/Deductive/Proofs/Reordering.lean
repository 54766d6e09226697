import Deductive.Proofs.Composition
import Deductive.Proofs.Derivation
import Deductive.Proofs.GoalAgreement
import Deductive.Proofs.Lawful
import Deductive.Proofs.Replacement
import Mathlib.Data.List.Nodup

/-!
The order of the hypotheses of an assertion does not matter. Where the hypotheses are put into
another order, and their proofs with them wherever the assertion is applied, the same is proved.
-/
namespace Deductive

section inOrder

variable {α β : Type} {order : List Nat} {xs : List α} {ys : List β}

/-- The members at the places that are listed. -/
def inOrder (order : List Nat) (xs : List α) : List α := order.filterMap (xs[·]?)

@[simp] theorem inOrder_nil : inOrder order ([] : List α) = [] := by
  induction order with
  | nil => rfl
  | cons i order ih => exact ih

theorem inOrder_range (xs : List α) : inOrder (List.range xs.length) xs = xs := by
  induction xs with
  | nil => rfl
  | cons x xs ih =>
    rw [inOrder, List.length_cons, List.range_succ_eq_map, List.filterMap_cons, List.filterMap_map]
    simp only [List.getElem?_cons_zero]
    exact congrArg (x :: ·) ih

theorem inOrder_perm (h : order.Perm (List.range xs.length)) : (inOrder order xs).Perm xs := by
  have hp : (inOrder order xs).Perm (inOrder (List.range xs.length) xs) := h.filterMap _
  rwa [inOrder_range] at hp

theorem inOrder_zip (h : xs.length = ys.length) :
    (inOrder order xs).zip (inOrder order ys) = inOrder order (xs.zip ys) := by
  induction order with
  | nil => rfl
  | cons i order ih =>
    by_cases hi : i < xs.length
    · have hx : xs[i]? = some xs[i] := List.getElem?_eq_getElem hi
      have hi' : i < ys.length := h ▸ hi
      have hy : ys[i]? = some ys[i] := List.getElem?_eq_getElem hi'
      have hz : (xs.zip ys)[i]? = some (xs[i], ys[i]) :=
        List.getElem?_zip_eq_some.mpr ⟨hx, hy⟩
      rw [inOrder, inOrder, inOrder, List.filterMap_cons_some hx, List.filterMap_cons_some hy,
        List.filterMap_cons_some hz, List.zip_cons_cons]
      exact congrArg _ ih
    · have hx : xs[i]? = none := List.getElem?_eq_none (by omega)
      have hy : ys[i]? = none := List.getElem?_eq_none (by omega)
      have hz : (xs.zip ys)[i]? = none := List.getElem?_eq_none (by simp; omega)
      rw [inOrder, inOrder, inOrder, List.filterMap_cons_none hx, List.filterMap_cons_none hy,
        List.filterMap_cons_none hz]
      exact ih

end inOrder

/-- Another order for the hypotheses of an assertion. -/
structure Reordering where
  target : Assertion
  order : List Nat
  perm : order.Perm (List.range target.hypotheses.length)

namespace Reordering

variable (r : Reordering)

def assertion (a : Assertion) : Assertion :=
  if a = r.target then { a with hypotheses := inOrder r.order a.hypotheses } else a

def theory (t : Theory) : Theory := { t with assertions := t.assertions.map r.assertion }

/-- The items of an application of the assertion, with the proofs in the other order. Where the
number of items is wrong, they stay. -/
def items (items : List ProofTerm) : List ProofTerm :=
  if items.length = r.target.binders.length + r.target.hypotheses.length then
    items.take r.target.binders.length ++ inOrder r.order (items.drop r.target.binders.length)
  else if items.length = r.target.hypotheses.length then inOrder r.order items
  else items

mutual

/-- The proof, with the items of every application of the assertion in the other order. -/
def proof : ProofTerm → ProofTerm
  | .ref name position => .ref name position
  | .app name items position =>
    .app name (if r.target.label = .text name then r.items (proofAll items) else proofAll items)
      position
  | .expr e => .expr e
  | .hole => .hole

def proofAll : List ProofTerm → List ProofTerm
  | [] => []
  | p :: ps => proof p :: proofAll ps

end

theorem proofAll_eq_map (ps : List ProofTerm) : r.proofAll ps = ps.map r.proof := by
  induction ps with
  | nil => rfl
  | cons p ps ih => rw [proofAll, ih, List.map_cons]

/-- The items of a step that applies the assertion of a label. -/
def itemsOf (label : String) (items : List ProofTerm) : List ProofTerm :=
  if r.target.label = .text label then r.items (items.map r.proof) else items.map r.proof

/-- The proofs of the hypotheses of an assertion. -/
def proofsOf (a : Assertion) (proofs : List ProofTerm) : List ProofTerm :=
  if a = r.target then inOrder r.order (proofs.map r.proof) else proofs.map r.proof

theorem proof_app (name : String) (items : List ProofTerm) (position : Position) :
    r.proof (.app name items position) = .app name (r.itemsOf name items) position := by
  rw [proof, proofAll_eq_map, itemsOf]

@[simp] theorem itemsOf_nil (label : String) : r.itemsOf label [] = [] := by
  simp [itemsOf, items]

/-! What stays the same in the assertion. -/

@[simp] theorem assertion_label (a : Assertion) : (r.assertion a).label = a.label := by
  unfold assertion
  split <;> rfl

@[simp] theorem assertion_binders (a : Assertion) : (r.assertion a).binders = a.binders := by
  unfold assertion
  split <;> rfl

@[simp] theorem assertion_conclusion (a : Assertion) :
    (r.assertion a).conclusion = a.conclusion := by
  unfold assertion
  split <;> rfl

@[simp] theorem assertion_kind (a : Assertion) : (r.assertion a).kind = a.kind := by
  unfold assertion
  split <;> rfl

theorem hypotheses_perm (a : Assertion) : (r.assertion a).hypotheses.Perm a.hypotheses := by
  unfold assertion
  split
  · rename_i ha
    subst ha
    exact inOrder_perm r.perm
  · exact .refl _

theorem isClosed_assertion {a : Assertion} (h : a.IsClosed) : (r.assertion a).IsClosed := by
  refine ⟨?_, fun i hi => ?_⟩
  · simpa using h.conclusion
  · simpa using h.hypotheses i ((r.hypotheses_perm a).mem_iff.mp hi)

theorem length_inOrder {xs : List ProofTerm} (h : xs.length = r.target.hypotheses.length) :
    (inOrder r.order xs).length = xs.length :=
  (inOrder_perm (h ▸ r.perm)).length_eq

theorem length_items (items : List ProofTerm) : (r.items items).length = items.length := by
  unfold Reordering.items
  split
  · rename_i hl
    rw [List.length_append, r.length_inOrder (by rw [List.length_drop]; omega), List.length_take,
      List.length_drop]
    omega
  · split
    · rename_i hl
      exact r.length_inOrder hl
    · rfl

/-- Each hypothesis keeps its proof. -/
theorem mem_zip_iff {a : Assertion} {proofs : List ProofTerm}
    (hl : proofs.length = a.hypotheses.length) {h : Hypothesis} {q : ProofTerm} :
    (h, q) ∈ (r.assertion a).hypotheses.zip (r.proofsOf a proofs) ↔
      ∃ p, (h, p) ∈ a.hypotheses.zip proofs ∧ r.proof p = q := by
  have hzip : (h, q) ∈ a.hypotheses.zip (proofs.map r.proof) ↔
      ∃ p, (h, p) ∈ a.hypotheses.zip proofs ∧ r.proof p = q := by
    rw [List.zip_map_right, List.mem_map]
    constructor
    · rintro ⟨⟨h', p⟩, hm, he⟩
      cases he
      exact ⟨p, hm, rfl⟩
    · rintro ⟨p, hm, rfl⟩
      exact ⟨(h, p), hm, rfl⟩
  unfold assertion proofsOf
  split
  · rename_i ha
    subst ha
    have hlen : r.target.hypotheses.length = (proofs.map r.proof).length := by simp [hl]
    rw [inOrder_zip hlen, (inOrder_perm ?_).mem_iff, hzip]
    rw [List.length_zip, ← hlen, Nat.min_self]
    exact r.perm
  · exact hzip

/-! The contexts of proofs of one assertion in both theories. -/

variable {t : Theory} {claim : Assertion} {limit : Int}

theorem resolve_theory (label : Name) :
    (ProofContext.ofTheory (r.theory t) claim limit).resolve label =
      ((ProofContext.ofTheory t claim limit).resolve label).map r.assertion :=
  ProofContext.resolve_replace r.assertion_label label

theorem splitItems_map (a : Assertion) (f : ProofTerm → ProofTerm) (items : List ProofTerm) :
    ProofContext.splitItems a (items.map f) =
      (ProofContext.splitItems a items).map fun (args, proofs) => (args.map f, proofs.map f) := by
  unfold ProofContext.splitItems
  rw [List.length_map]
  split
  · simp [Except.map]
  · split <;> rfl

theorem splitItems_target (items : List ProofTerm) :
    ProofContext.splitItems (r.assertion r.target) (r.items items) =
      (ProofContext.splitItems r.target items).map fun (args, proofs) =>
        (args, inOrder r.order proofs) := by
  have hl : (r.assertion r.target).hypotheses.length = r.target.hypotheses.length :=
    (r.hypotheses_perm r.target).length_eq
  unfold ProofContext.splitItems
  rw [length_items, assertion_binders, assertion_label, hl]
  split
  · rename_i h
    rw [Reordering.items, if_pos h, List.splitAt_eq, List.splitAt_eq, List.take_left' (by simp; omega),
      List.drop_left' (by simp; omega)]
    rfl
  · rename_i h
    rw [Reordering.items, if_neg h]
    split <;> rfl

/-- The items are divided as before, and the proofs are put into the other order. -/
theorem splitItems_assertion {a : Assertion} {label : String} (hlabel : a.label = .text label)
    (ha : a = r.target ↔ a.label = r.target.label) (items : List ProofTerm) :
    ProofContext.splitItems (r.assertion a) (r.itemsOf label items) =
      (ProofContext.splitItems a items).map fun (args, proofs) =>
        (args.map r.proof, r.proofsOf a proofs) := by
  by_cases htarget : a = r.target
  · subst htarget
    rw [itemsOf, if_pos hlabel, splitItems_target, splitItems_map]
    cases ProofContext.splitItems r.target items with
    | error failure => rfl
    | ok parts => simp [Except.map, proofsOf]
  · have hother : r.target.label ≠ .text label := fun h => htarget (ha.mpr (hlabel.trans h.symm))
    rw [itemsOf, if_neg hother, assertion, if_neg htarget, splitItems_map]
    cases ProofContext.splitItems a items with
    | error failure => rfl
    | ok parts => simp [Except.map, proofsOf, htarget]

/-- What an item stands for as an argument does not depend on proofs. -/
theorem arguments_theory (label : Name) (bs : List Binder) (args : List ProofTerm)
    (s : Substitution) :
    (ProofContext.ofTheory (r.theory t) claim limit).arguments label bs (args.map r.proof) s =
      (ProofContext.ofTheory t claim limit).arguments label bs args s := by
  induction bs generalizing args s with
  | nil => rfl
  | cons b bs ih =>
    cases args with
    | nil => rfl
    | cons item args =>
      have hitem : (ProofContext.ofTheory (r.theory t) claim limit).argument label (r.proof item) =
          (ProofContext.ofTheory t claim limit).argument label item := by
        cases item <;> rfl
      rw [List.map_cons, ProofContext.arguments, ProofContext.arguments, hitem]
      simp only [ih]

/-- A step is about the same assertion, arguments and proofs, but for the order of the last. -/
theorem prepare_theory (hlabels : (t.assertions.map Assertion.label).Nodup)
    (hm : r.target ∈ t.assertions) (label : String) (items : List ProofTerm) :
    (ProofContext.ofTheory (r.theory t) claim limit).prepare label (r.itemsOf label items) =
      ((ProofContext.ofTheory t claim limit).prepare label items).map fun (a, proofs, given) =>
        (r.assertion a, r.proofsOf a proofs, given) := by
  rw [ProofContext.prepare, ProofContext.prepare, r.resolve_theory]
  cases hresolve : (ProofContext.ofTheory t claim limit).resolve label with
  | error failure => rfl
  | ok a =>
    have ha : a = r.target ↔ a.label = r.target.label := by
      have ha := Theory.mem_of_mem_before (ProofContext.mem_before_of_resolve hresolve)
      exact ⟨congrArg _, fun h => List.inj_on_of_nodup_map hlabels ha hm h⟩
    rw [Except.map, ok_bind, ok_bind,
      r.splitItems_assertion (ProofContext.label_of_resolve hresolve) ha]
    cases ProofContext.splitItems a items with
    | error failure => rfl
    | ok parts =>
      obtain ⟨args, proofs⟩ := parts
      simp only [Except.map, ok_bind, assertion_label, assertion_binders, arguments_theory]
      cases (ProofContext.ofTheory t claim limit).arguments a.label a.binders args .empty with
      | error failure => rfl
      | ok given => rfl

end Reordering

/-- Assertions that differ at most in their kinds and hypotheses. -/
structure Assertion.SameFrame (a a' : Assertion) : Prop where
  label : a.label = a'.label
  binders : a.binders = a'.binders
  conclusion : a.conclusion = a'.conclusion

theorem Assertion.SameFrame.symm {a a' : Assertion} (h : a.SameFrame a') : a'.SameFrame a :=
  ⟨h.label.symm, h.binders.symm, h.conclusion.symm⟩

namespace ProofContext

/-- Contexts in which expressions have the same sorts. -/
structure SameScope (ctx ctx' : ProofContext) : Prop where
  signature : ctx.signature = ctx'.signature
  binders : ctx.binders = ctx'.binders

variable {ctx ctx' : ProofContext} {check check' : ProofCheck}

theorem SameScope.symm (h : SameScope ctx ctx') : SameScope ctx' ctx :=
  ⟨h.signature.symm, h.binders.symm⟩

theorem Admissible.transfer {a a' : Assertion} {s : Substitution} (h : ctx.Admissible a s)
    (hctx : SameScope ctx ctx') (ha : a.SameFrame a') : ctx'.Admissible a' s := by
  have hcarried (x : Name) : ctx.carried x = ctx'.carried x := by
    rw [carried, carried, hctx.binders]
  refine ⟨?_, ?_, ?_, ?_⟩
  · simpa only [hctx.signature, hctx.binders, ha.binders] using h.sorts
  · simpa only [hctx.binders, ha.binders] using h.bound
  · simpa only [ha.binders] using h.distinct
  · simpa only [hcarried, ha.binders] using h.confined

theorem unifyGoal_congr {a a' : Assertion} (ha : a.SameFrame a') (goal : Option Expr)
    (s : Substitution) : unifyGoal a goal s = unifyGoal a' goal s := by
  cases goal with
  | none => rfl
  | some g => rw [unifyGoal, unifyGoal, ha.label, ha.conclusion]

/-- Each of the pending proofs of one step has one of the other step that is for the same hypothesis
and proves the same, with every goal and without one. -/
def Matched (check check' : ProofCheck) (ps ps' : List PendingProof) : Prop :=
  ∀ p ∈ ps, ∃ p' ∈ ps', p'.hypothesis = p.hypothesis ∧
    ∀ goal e, (check p.proof goal).result = .ok e ↔ (check' p'.proof goal).result = .ok e

theorem Fits.of_same (hc' : Agrees check') {s : Substitution} {p p' : PendingProof}
    (hp : p'.hypothesis = p.hypothesis)
    (hsame : ∀ goal e, (check p.proof goal).result = .ok e ↔ (check' p'.proof goal).result = .ok e)
    (h : Fits check s p) : Fits check' s p' := by
  obtain ⟨e, he⟩ := h.with_goal
  have he' := (hsame _ e).mp he
  rw [← hp] at he'
  exact ⟨hp ▸ h.ground, ⟨e, he'⟩, (hc'.back _ _ _ he').2⟩

variable {label label' : Name} {items items' : List ProofTerm} {goal : Option Expr}
  {a a' : Assertion} {proofs proofs' : List ProofTerm} {given known s : Substitution}

/-- A step succeeds with the proofs of its hypotheses in any order. What is known in the end with
one order fits the proofs of the other order, so that its rounds find nothing else, and every
binder that a proof settled in one order is settled by the same proof in the other. -/
theorem StepRun.transfer (hc : Agrees check) (hc' : Agrees check') (hctx : SameScope ctx ctx')
    (h : ctx.StepRun check label items goal a proofs given known s)
    (hprep : ctx'.prepare label' items' = .ok (a', proofs', given)) (hclosed : a'.IsClosed)
    (ha : a.SameFrame a')
    (hforth : Matched check check' (PendingProof.ofItems 1 a.hypotheses proofs)
      (PendingProof.ofItems 1 a'.hypotheses proofs'))
    (hback : Matched check' check (PendingProof.ofItems 1 a'.hypotheses proofs')
      (PendingProof.ofItems 1 a.hypotheses proofs)) :
    ∃ s', ctx'.StepRun check' label' items' goal a' proofs' given known s' ∧
      a'.conclusion.subst s' = a.conclusion.subst s := by
  have hfits : ∀ p' ∈ PendingProof.ofItems 1 a'.hypotheses proofs', Fits check' s p' := by
    intro p' hp'
    obtain ⟨p, hp, hhyp, hsame⟩ := hback p' hp'
    exact ((h.settled p hp).fits hc).of_same hc' hhyp.symm fun goal e => (hsame goal e).symm
  obtain ⟨rest, s', hrounds, hs⟩ := Rounds.exists_of_fits hfits h.rounds.extends_start
  have hcovered : ∀ b ∈ a'.binders, s'.contains b.name = true := by
    intro b hb
    rcases h.rounds.domain (h.covered b (ha.binders ▸ hb)) with hk | ⟨p, hp, ⟨e, he⟩, hx⟩
    · exact hrounds.extends_start.contains hk
    · obtain ⟨p', hp', hhyp, hsame⟩ := hforth p hp
      have hground := hrounds.ground_of_proved hp' ((hsame none e).mp he)
      exact Expr.isGround_iff.mp hground _ (hhyp ▸ hx)
  have hadm : ctx'.Admissible a' s' :=
    (h.admissible.transfer hctx ha).congr fun b hb => hs.get?_eq (hcovered b hb)
  have hmatch : unifyGoal a' goal given = .ok known :=
    (unifyGoal_congr ha goal given).symm.trans h.matched
  refine ⟨s', .of_rounds hclosed hprep hmatch hrounds hcovered hadm, ?_⟩
  rw [ha.conclusion]
  exact (Expr.subst_of_extends hs (Expr.isGround_of_binders hclosed.conclusion hcovered)).symm

theorem StepRun.result (h : ctx.StepRun check label items goal a proofs given known s) {e : Expr}
    (he : a.conclusion.subst s = e) (hgoal : ∀ g, goal = some g → e = g) :
    (ctx.applyStep check label items goal).result = .ok e :=
  ctx.applyStep_eq_ok_iff.mpr ⟨a, proofs, given, known, s, h, he, hgoal⟩

end ProofContext

namespace Reordering

variable {r : Reordering} {t : Theory} {claim : Assertion} {limit : Int} {check check' : ProofCheck}

theorem sameFrame (a : Assertion) : a.SameFrame (r.assertion a) := by
  constructor <;> simp

/-- The rewritten proof proves the same in the reordered theory as the proof did before. -/
def Keeps (r : Reordering) (check check' : ProofCheck) : Prop :=
  ∀ p goal e, (check p goal).result = .ok e ↔ (check' (r.proof p) goal).result = .ok e

theorem Keeps.matched (hk : r.Keeps check check') {a : Assertion} {proofs : List ProofTerm}
    (hl : proofs.length = a.hypotheses.length) :
    ProofContext.Matched check check' (PendingProof.ofItems 1 a.hypotheses proofs)
      (PendingProof.ofItems 1 (r.assertion a).hypotheses (r.proofsOf a proofs)) := by
  intro p hp
  obtain ⟨h, hm, hf⟩ := PendingProof.mem_ofItems_iff.mp ⟨p, hp, rfl, rfl⟩
  obtain ⟨p', hp', hhyp, hproof⟩ := PendingProof.mem_ofItems_iff.mpr
    ⟨h, (r.mem_zip_iff hl).mpr ⟨_, hm, rfl⟩, hf⟩
  exact ⟨p', hp', hhyp, fun goal e => hproof ▸ hk p.proof goal e⟩

theorem Keeps.matched_back (hk : r.Keeps check check') {a : Assertion} {proofs : List ProofTerm}
    (hl : proofs.length = a.hypotheses.length) :
    ProofContext.Matched check' check
      (PendingProof.ofItems 1 (r.assertion a).hypotheses (r.proofsOf a proofs))
      (PendingProof.ofItems 1 a.hypotheses proofs) := by
  intro p' hp'
  obtain ⟨h, hm, hf⟩ := PendingProof.mem_ofItems_iff.mp ⟨p', hp', rfl, rfl⟩
  obtain ⟨q, hq, he⟩ := (r.mem_zip_iff hl).mp hm
  obtain ⟨p, hp, hhyp, hproof⟩ := PendingProof.mem_ofItems_iff.mpr ⟨h, hq, hf⟩
  refine ⟨p, hp, hhyp, fun goal e => ?_⟩
  rw [hproof, ← he]
  exact (hk q goal e).symm

theorem applyStep_iff (ht : t.isWellFormed = true) (hm : r.target ∈ t.assertions)
    (claim : Assertion) (limit : Int) (hk : r.Keeps check check') (hc : ProofContext.Agrees check)
    (hc' : ProofContext.Agrees check') (label : String) (items : List ProofTerm)
    (goal : Option Expr) (e : Expr) :
    ((ProofContext.ofTheory t claim limit).applyStep check label items goal).result = .ok e ↔
      ((ProofContext.ofTheory (r.theory t) claim limit).applyStep check' label
        (r.itemsOf label items) goal).result = .ok e := by
  have hprep : (ProofContext.ofTheory (r.theory t) claim limit).prepare label
      (r.itemsOf label items) = _ :=
    r.prepare_theory (Theory.lawful_of_isWellFormed ht).labels hm label items
  have hctx : ProofContext.SameScope (ProofContext.ofTheory t claim limit)
      (ProofContext.ofTheory (r.theory t) claim limit) := ⟨rfl, rfl⟩
  cases hprepared : (ProofContext.ofTheory t claim limit).prepare label items with
  | error failure =>
    rw [hprepared] at hprep
    refine iff_of_false (fun h => ?_) fun h => ?_
    · obtain ⟨_, _, _, _, _, hrun, _⟩ := (ProofContext.applyStep_eq_ok_iff _).mp h
      cases hprepared.symm.trans hrun.prepared
    · obtain ⟨_, _, _, _, _, hrun, _⟩ := (ProofContext.applyStep_eq_ok_iff _).mp h
      cases hprep.symm.trans hrun.prepared
  | ok parts =>
    obtain ⟨a, proofs, given⟩ := parts
    rw [hprepared] at hprep
    obtain ⟨hresolve, hl⟩ := ProofContext.of_prepare _ hprepared
    have ha := (ProofContext.wellFormed_of_resolve ht hresolve).isClosed
    constructor
    · intro h
      obtain ⟨_, _, _, _, _, hrun, he, hgoal⟩ := (ProofContext.applyStep_eq_ok_iff _).mp h
      cases hprepared.symm.trans hrun.prepared
      obtain ⟨s', hrun', hs⟩ := hrun.transfer hc hc' hctx hprep (r.isClosed_assertion ha)
        (sameFrame a) (hk.matched hl) (hk.matched_back hl)
      exact hrun'.result (hs.trans he) hgoal
    · intro h
      obtain ⟨_, _, _, _, _, hrun, he, hgoal⟩ := (ProofContext.applyStep_eq_ok_iff _).mp h
      cases hprep.symm.trans hrun.prepared
      obtain ⟨s', hrun', hs⟩ := hrun.transfer hc' hc hctx.symm hprepared ha
        (sameFrame a).symm (hk.matched_back hl) (hk.matched hl)
      exact hrun'.result (hs.trans he) hgoal

/-- By induction on the nesting of proofs that is left. -/
theorem check_keeps (ht : t.isWellFormed = true) (hm : r.target ∈ t.assertions) (n : Nat) :
    r.Keeps ((ProofContext.ofTheory t claim limit).check n)
      ((ProofContext.ofTheory (r.theory t) claim limit).check n) := by
  have hclosed : ∀ label a, (ProofContext.ofTheory t claim limit).resolve label = .ok a →
      a.IsClosed := fun _ _ h => (ProofContext.wellFormed_of_resolve ht h).isClosed
  have hclosed' : ∀ label a, (ProofContext.ofTheory (r.theory t) claim limit).resolve label = .ok a →
      a.IsClosed := by
    intro label a h
    rw [resolve_theory] at h
    cases hresolve : (ProofContext.ofTheory t claim limit).resolve label with
    | error failure =>
      rw [hresolve] at h
      cases h
    | ok b =>
      rw [hresolve] at h
      cases h
      exact r.isClosed_assertion (hclosed label b hresolve)
  have hhypotheses : (ProofContext.ofTheory (r.theory t) claim limit).hypotheses =
      (ProofContext.ofTheory t claim limit).hypotheses := rfl
  have hagrees := ProofContext.check_agrees_of_closed hclosed
  have hagrees' := ProofContext.check_agrees_of_closed hclosed'
  induction n with
  | zero => exact fun p goal e => iff_of_false (fun h => by cases h) fun h => by cases h
  | succ n ih =>
    have hstep := applyStep_iff ht hm claim limit ih (hagrees n) (hagrees' n)
    intro p goal e
    cases p with
    | ref name position =>
      rw [proof, ProofContext.check, ProofContext.check, hhypotheses]
      cases (ProofContext.ofTheory t claim limit).hypotheses.get? name with
      | some proved => exact Iff.rfl
      | none =>
        have h := hstep name [] goal e
        rwa [itemsOf_nil] at h
    | app name items position =>
      rw [proof_app, ProofContext.check, ProofContext.check, hhypotheses]
      split
      · exact Iff.rfl
      · exact hstep name items goal e
    | expr e' => exact iff_of_false (fun h => by cases h) fun h => by cases h
    | hole => exact iff_of_false (fun h => by cases h) fun h => by cases h

theorem verified_iff (ht : t.isWellFormed = true) (hm : r.target ∈ t.assertions)
    (claim : Assertion) (limit : Int) (p : ProofTerm)
    (hn : (t.verifyTheorem claim p limit).2 ≠ .failed .tooDeep)
    (hn' : ((r.theory t).verifyTheorem claim (r.proof p) limit).2 ≠ .failed .tooDeep) :
    (t.verifyTheorem claim p limit).2 = .verified ↔
      ((r.theory t).verifyTheorem claim (r.proof p) limit).2 = .verified := by
  rw [Theory.verified_iff_of_ne_tooDeep hn, Theory.verified_iff_of_ne_tooDeep hn']
  exact exists_congr fun e => check_keeps ht hm _ p (some claim.conclusion) e

/-- The proofs of the other theorems are rewritten for the reordered theory. -/
def Rewrites (r : Reordering) (t : Theory) (proofs proofs' : ProofFile) : Prop :=
  ∀ claim ∈ t.theorems, claim ≠ r.target →
    (proofs'.get? claim.label).map ProofDecl.proof =
      (proofs.get? claim.label).map fun d => r.proof d.proof

theorem keyword_verifyLabel (ht : t.isWellFormed = true) (hm : r.target ∈ t.assertions)
    {proofs proofs' : ProofFile} (hproofs : r.Rewrites t proofs proofs') {claim : Assertion}
    (hclaim : claim ∈ t.theorems) (hne : claim ≠ r.target) {limit : Int}
    (hn : (t.verifyLabel proofs limit claim).2 ≠ .failed .tooDeep)
    (hn' : ((r.theory t).verifyLabel proofs' limit claim).2 ≠ .failed .tooDeep) :
    ((r.theory t).verifyLabel proofs' limit claim).2.keyword =
      (t.verifyLabel proofs limit claim).2.keyword := by
  have hget := hproofs claim hclaim hne
  cases hp : proofs.get? claim.label with
  | none =>
    rw [hp, Option.map_none, Option.map_eq_none_iff] at hget
    rw [Theory.verifyLabel, Theory.verifyLabel, hp, hget]
  | some decl =>
    rw [hp, Option.map_some, Option.map_eq_some_iff] at hget
    obtain ⟨decl', hp', hproof⟩ := hget
    have hlabel : t.verifyLabel proofs limit claim = t.verifyTheorem claim decl.proof limit := by
      rw [Theory.verifyLabel, hp]
    have hlabel' : (r.theory t).verifyLabel proofs' limit claim =
        (r.theory t).verifyTheorem claim (r.proof decl.proof) limit := by
      rw [Theory.verifyLabel, hp', ← hproof]
    rw [hlabel] at hn
    rw [hlabel'] at hn'
    rw [hlabel, hlabel', Theory.keyword_verifyTheorem, Theory.keyword_verifyTheorem]
    exact if_congr (verified_iff ht hm claim limit decl.proof hn hn').symm rfl rfl

theorem theorems_theory : (r.theory t).theorems = t.theorems.map r.assertion :=
  Theory.theorems_replace r.assertion_kind

/-- Every other assertion is as it was. -/
theorem assertion_of_ne {a : Assertion} (h : a ≠ r.target) : r.assertion a = a := if_neg h

theorem labels_outcomes (proofs proofs' : ProofFile) (limit : Int) :
    ((r.theory t).verify proofs' limit).2.outcomes.map Outcome.label =
      (t.verify proofs limit).2.outcomes.map Outcome.label := by
  simp [Theory.verify, theorems_theory, Function.comp_def]

theorem keyword_outcomes (ht : t.isWellFormed = true) (hm : r.target ∈ t.assertions)
    {proofs proofs' : ProofFile} (hproofs : r.Rewrites t proofs proofs') {limit : Int}
    {o o' : Outcome} (ho : o ∈ (t.verify proofs limit).2.outcomes)
    (ho' : o' ∈ ((r.theory t).verify proofs' limit).2.outcomes) (hlabel : o'.label = o.label)
    (htarget : o.label ≠ r.target.label) (hn : o.verdict ≠ .failed .tooDeep)
    (hn' : o'.verdict ≠ .failed .tooDeep) : o'.verdict.keyword = o.verdict.keyword := by
  simp only [Theory.verify, theorems_theory, List.map_map, List.mem_map] at ho ho'
  obtain ⟨c, hc, rfl⟩ := ho
  obtain ⟨c', hc', rfl⟩ := ho'
  have hlabels := (Theory.lawful_of_isWellFormed ht).labels
  have hsame : c' = c := List.inj_on_of_nodup_map hlabels (List.mem_of_mem_filter hc')
    (List.mem_of_mem_filter hc) (by simpa using hlabel)
  subst hsame
  have hne : c' ≠ r.target := fun h => htarget (congrArg Assertion.label h)
  simp only [Function.comp_apply, assertion_of_ne hne] at hn' ⊢
  exact keyword_verifyLabel ht hm hproofs hc' hne hn hn'

/-- The hypotheses of an assertion can stand in any order. Every check of another theorem has the
same result, and every other theorem the same verdict. -/
theorem same_results (r : Reordering) (ht : t.isWellFormed = true) (hm : r.target ∈ t.assertions) :
    (∀ claim ∈ t.assertions, claim ≠ r.target → ∀ limit depth p goal e,
      ((ProofContext.ofTheory t claim limit).checkAt depth p goal).result = .ok e ↔
        ((ProofContext.ofTheory (r.theory t) claim limit).checkAt depth (r.proof p) goal).result =
          .ok e) ∧
    ∀ proofs proofs', r.Rewrites t proofs proofs' → ∀ limit,
      ((r.theory t).verify proofs' limit).2.outcomes.map Outcome.label =
        (t.verify proofs limit).2.outcomes.map Outcome.label ∧
      ∀ o ∈ (t.verify proofs limit).2.outcomes,
        ∀ o' ∈ ((r.theory t).verify proofs' limit).2.outcomes,
          o'.label = o.label → o.label ≠ r.target.label →
          o.verdict ≠ .failed .tooDeep → o'.verdict ≠ .failed .tooDeep →
            o'.verdict.keyword = o.verdict.keyword := by
  constructor
  · intro claim _ _ limit depth p goal e
    exact check_keeps ht hm _ p goal e
  · intro proofs proofs' hproofs limit
    refine ⟨labels_outcomes proofs proofs' limit, fun o ho o' ho' hlabel htarget hn hn' => ?_⟩
    exact keyword_outcomes ht hm hproofs ho ho' hlabel htarget hn hn'

end Reordering

namespace Detachment

private def binder (name : Name) : Binder := ⟨name, "wff", false, []⟩

private def implies (p q : Name) : Expr := .app "im" [.var p, .var q]

def rule : Assertion :=
  ⟨.assumed, "mp", [binder "a", binder "b"], [⟨none, .var "a"⟩, ⟨none, implies "a" "b"⟩], .var "b"⟩

def chained : Assertion :=
  ⟨.claimed, "chained", [binder "p", binder "q", binder "r"],
    [⟨some "h", .var "p"⟩, ⟨some "hpq", implies "p" "q"⟩, ⟨some "hqr", implies "q" "r"⟩], .var "r"⟩

def theory : Theory :=
  { name := "detachment"
    signature := .ofDecls [⟨"wff", ⟨false, false, true, false⟩⟩]
      [⟨"im", [binder "a", binder "b"], "wff", [], false, none⟩] [] .empty
    assertions := [rule, chained] }

def proofs : ProofFile :=
  .ofList [("chained", ⟨"chained", .app "mp" [.app "mp" [.ref "h" .start, .ref "hpq" .start] .start,
    .ref "hqr" .start] .start, 1⟩)]

/-- The implication is asked for first. -/
def swapped : Reordering := ⟨rule, [1, 0], by decide⟩

def swappedProofs : ProofFile :=
  proofs.mapValues fun d => { d with proof := swapped.proof d.proof }

theorem theory_isWellFormed : theory.isWellFormed = true := by
  rw [Theory.isWellFormed, Theory.findings, Theory.checkNames_eq_nil (by decide)]
  decide

theorem swapped_rewrites : swapped.Rewrites theory proofs swappedProofs := by
  intro claim _ _
  rw [swappedProofs, Registry.get?_mapValues, Option.map_map]
  rfl

/-- With the implication first the theorem is proved by the proofs in that order, and verified. -/
theorem swapped_results :
    theory.isWellFormed = true ∧ swapped.target ∈ theory.assertions ∧
      ((ProofContext.ofTheory (swapped.theory theory) chained 10).checkAt 0
        (.app "mp" [.ref "hqr" .start, .app "mp" [.ref "hpq" .start, .ref "h" .start] .start] .start)
        none).result = .ok (.var "r") ∧
      swapped.Rewrites theory proofs swappedProofs ∧
      (theory.verify proofs 10).2.outcomes = [⟨"chained", .verified⟩] ∧
      ∀ o' ∈ ((swapped.theory theory).verify swappedProofs 10).2.outcomes,
        o'.label = "chained" ∧ o'.verdict ≠ .failed .tooDeep ∧ o'.verdict.keyword = "verified" := by
  have hm : swapped.target ∈ theory.assertions := by decide
  have hsame := Reordering.same_results swapped theory_isWellFormed hm
  have hverified : (theory.verify proofs 10).2.outcomes = [⟨"chained", .verified⟩] := by decide
  refine ⟨theory_isWellFormed, hm, ?_, swapped_rewrites, hverified, fun o' ho' => ?_⟩
  · exact (hsame.1 chained (by decide) (by decide) 10 0 (.app "mp" [.app "mp"
      [.ref "h" .start, .ref "hpq" .start] .start, .ref "hqr" .start] .start) none _).mp rfl
  · have hall : ∀ o' ∈ ((swapped.theory theory).verify swappedProofs 10).2.outcomes,
        o'.label = "chained" ∧ o'.verdict ≠ .failed .tooDeep := by decide
    obtain ⟨hlabel, hn'⟩ := hall o' ho'
    have ho : ⟨"chained", .verified⟩ ∈ (theory.verify proofs 10).2.outcomes := by
      rw [hverified]
      exact List.mem_cons_self
    exact ⟨hlabel, hn', (hsame.2 proofs swappedProofs swapped_rewrites 10).2 _ ho o' ho' hlabel
      (by decide) (by decide) hn'⟩

end Detachment
end Deductive
