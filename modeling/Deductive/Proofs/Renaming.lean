import Deductive.Expr.Matching
import Deductive.Proofs.Replacement
import Deductive.Proofs.Substitution

/-!
Other names for the variables of an assertion. Its formulas match the same expressions and prove
the same ones, since only its own variables take new names, not what is put in for them.
-/
namespace Deductive

/-! The parts of an assertion under a map of names. -/

namespace Expr

mutual

def rename (f : Name → Name) : Expr → Expr
  | var x => var (f x)
  | app term args => app term (renameAll f args)

def renameAll (f : Name → Name) : List Expr → List Expr
  | [] => []
  | e :: es => e.rename f :: renameAll f es

end

variable (f : Name → Name)

theorem renameAll_eq_map (es : List Expr) : renameAll f es = es.map (rename f) := by
  induction es with
  | nil => rfl
  | cons e es ih => rw [renameAll, ih, List.map_cons]

theorem rename_app (term : Name) (args : List Expr) :
    (app term args).rename f = app term (args.map (rename f)) := by
  rw [rename, renameAll_eq_map]

theorem rename_id (e : Expr) : e.rename id = e := by
  induction e with
  | var x => rfl
  | app term args ih =>
    rw [rename_app, List.map_congr_left ih]
    exact congrArg (app term) (List.map_id'' (fun _ => rfl) args)

mutual

theorem depth_rename : (e : Expr) → (e.rename f).depth = e.depth
  | var _ => rfl
  | app _ args => by rw [rename, depth, depth, depthAll_renameAll args]

theorem depthAll_renameAll : (es : List Expr) → depthAll (renameAll f es) = depthAll es
  | [] => rfl
  | e :: es => by rw [renameAll, depthAll, depthAll, depth_rename e, depthAll_renameAll es]

end

theorem isTooDeep_rename (e : Expr) : (e.rename f).isTooDeep = e.isTooDeep := by
  rw [isTooDeep, isTooDeep, depth_rename]

mutual

theorem vars_rename : (e : Expr) → (e.rename f).vars = e.vars.map f
  | var _ => rfl
  | app _ args => by rw [rename, vars, vars, varsAll_renameAll args]

theorem varsAll_renameAll : (es : List Expr) → varsAll (renameAll f es) = (varsAll es).map f
  | [] => rfl
  | e :: es => by
    rw [renameAll, varsAll, varsAll, vars_rename e, varsAll_renameAll es, List.map_append]

end

end Expr

def Binder.rename (f : Name → Name) (b : Binder) : Binder :=
  { b with name := f b.name, deps := b.deps.map f }

def Hypothesis.rename (f : Name → Name) (h : Hypothesis) : Hypothesis :=
  { h with formula := h.formula.rename f }

/-- The label and the names of hypotheses are no variables. -/
def Assertion.rename (f : Name → Name) (a : Assertion) : Assertion :=
  { a with
    binders := a.binders.map (Binder.rename f)
    hypotheses := a.hypotheses.map (Hypothesis.rename f)
    conclusion := a.conclusion.rename f }

theorem Assertion.rename_id (a : Assertion) : a.rename id = a := by
  have hb : a.binders.map (Binder.rename id) = a.binders := by
    refine List.map_id'' (fun b => ?_) _
    rw [Binder.rename, List.map_id]
    rfl
  have hh : a.hypotheses.map (Hypothesis.rename id) = a.hypotheses := by
    refine List.map_id'' (fun h => ?_) _
    rw [Hypothesis.rename, Expr.rename_id]
  rw [rename, hb, hh, Expr.rename_id]

/-- Names of the list that are different stay different. -/
def Separates (f : Name → Name) (names : List Name) : Prop :=
  ∀ x ∈ names, ∀ y ∈ names, f x = f y → x = y

instance (f : Name → Name) (names : List Name) : Decidable (Separates f names) :=
  inferInstanceAs (Decidable (∀ x ∈ names, ∀ y ∈ names, f x = f y → x = y))

theorem separates_id (names : List Name) : Separates id names := fun _ _ _ _ h => h

theorem Separates.eq_iff {f : Name → Name} {names : List Name} (hf : Separates f names)
    {x y : Name} (hx : x ∈ names) (hy : y ∈ names) : f x = f y ↔ x = y :=
  ⟨hf x hx y hy, congrArg f⟩

/-- The same assertion, but for the names of its variables. -/
def Assertion.IsVariant (a a' : Assertion) : Prop :=
  ∃ f, Separates f (a.binders.map Binder.name) ∧ a' = a.rename f

/-- The same values in the same order, under the new names of some of the `names`. -/
structure Registry.Renamed {α : Type} (f : Name → Name) (names : List Name)
    (r r' : Registry Name α) : Prop where
  entries : r'.entries = r.entries.map fun e => (f e.1, e.2)
  keys : ∀ x ∈ r.keys, x ∈ names

namespace Registry.Renamed

variable {α : Type} {f : Name → Name} {names : List Name} {r r' : Registry Name α}

theorem empty : Renamed f names (Registry.empty : Registry Name α) .empty := ⟨rfl, nofun⟩

theorem values (h : Renamed f names r r') : r'.values = r.values := by
  rw [Registry.values, Registry.values, h.entries, List.map_map]
  rfl

theorem find_map (hf : Separates f names) {es : List (Name × α)}
    (hes : ∀ x ∈ es.map Prod.fst, x ∈ names) {x : Name} (hx : x ∈ names) :
    find (f x) (es.map fun e => (f e.1, e.2)) = find x es := by
  induction es with
  | nil => rfl
  | cons e es ih =>
    obtain ⟨he, hes⟩ := List.forall_mem_cons.mp hes
    simp only [List.map_cons, find, hf.eq_iff he hx, ih hes]

theorem get? (h : Renamed f names r r') (hf : Separates f names) {x : Name} (hx : x ∈ names) :
    r'.get? (f x) = r.get? x := by
  rw [Registry.get?, h.entries, find_map hf h.keys hx]
  rfl

theorem contains (h : Renamed f names r r') (hf : Separates f names) {x : Name}
    (hx : x ∈ names) : r'.contains (f x) = r.contains x := by
  rw [Registry.contains, Registry.contains, h.get? hf hx]

theorem place_map (hf : Separates f names) {es : List (Name × α)}
    (hes : ∀ x ∈ es.map Prod.fst, x ∈ names) {x : Name} (hx : x ∈ names) (value : α) :
    place (f x) value (es.map fun e => (f e.1, e.2)) =
      (place x value es).map fun e => (f e.1, e.2) := by
  induction es with
  | nil => rfl
  | cons e es ih =>
    obtain ⟨he, hes⟩ := List.forall_mem_cons.mp hes
    simp only [List.map_cons, place, hf.eq_iff he hx, ih hes]
    split <;> rfl

theorem insert (h : Renamed f names r r') (hf : Separates f names) {x : Name} (hx : x ∈ names)
    (value : α) : Renamed f names (r.insert x value) (r'.insert (f x) value) := by
  constructor
  · change place (f x) value r'.entries = _
    rw [h.entries]
    exact place_map hf h.keys hx value
  · intro y hy
    rw [keys_insert] at hy
    split at hy
    · exact h.keys y hy
    · rcases List.mem_append.mp hy with hy | hy
      · exact h.keys y hy
      · cases List.mem_singleton.mp hy
        exact hx

end Registry.Renamed

namespace Expr

variable {f : Name → Name} {names : List Name} {s s' : Substitution}

theorem isGround_rename (h : s.Renamed f names s') (hf : Separates f names) {e : Expr}
    (he : ∀ x ∈ e.vars, x ∈ names) : (e.rename f).isGround s' = e.isGround s := by
  rw [Bool.eq_iff_iff, isGround_iff, isGround_iff, vars_rename, List.forall_mem_map]
  exact forall₂_congr fun x hx => by rw [h.contains hf (he x hx)]

/-- What is put in for the variables keeps its names, also where one of them is a new name. -/
theorem subst_rename (h : s.Renamed f names s') (hf : Separates f names) {e : Expr}
    (he : ∀ x ∈ e.vars, x ∈ names) (hg : e.isGround s = true) :
    (e.rename f).subst s' = e.subst s := by
  induction e with
  | var x =>
    have hx : x ∈ (var x).vars := List.mem_cons_self
    obtain ⟨e, hs⟩ := Registry.contains_iff.mp (isGround_iff.mp hg x hx)
    rw [rename, subst_var hs, subst_var ((h.get? hf (he x hx)).trans hs)]
  | app term args ih =>
    rw [rename_app, subst_app, subst_app, List.map_map]
    congr 1
    refine List.map_congr_left fun a ha => ih a ha (fun x hx => ?_) ?_
    · exact he x (mem_vars_app.mpr ⟨a, ha, hx⟩)
    · exact isGround_iff.mpr fun x hx => isGround_iff.mp hg x (mem_vars_app.mpr ⟨a, ha, hx⟩)

mutual

/-- The pattern takes new names and the target does not. -/
theorem matchWith_rename (hf : Separates f names) {s s' : Substitution}
    (h : s.Renamed f names s') : (pattern target : Expr) → (∀ x ∈ pattern.vars, x ∈ names) →
    Option.Rel (Registry.Renamed f names) (matchWith s pattern target)
      (matchWith s' (pattern.rename f) target)
  | var x, target, he => by
    have hx : x ∈ names := he x List.mem_cons_self
    rw [rename, matchWith, matchWith, h.get? hf hx]
    cases s.get? x with
    | none => exact .some (h.insert hf hx target)
    | some e =>
      dsimp only
      split
      · exact .some h
      · exact .none
  | app _ _, var _, _ => .none
  | app term as, app term' bs, he => by
    rw [rename, matchWith, matchWith]
    split
    · exact matchAll_renameAll hf h as bs he
    · exact .none

theorem matchAll_renameAll (hf : Separates f names) {s s' : Substitution}
    (h : s.Renamed f names s') : (patterns targets : List Expr) →
    (∀ x ∈ varsAll patterns, x ∈ names) →
    Option.Rel (Registry.Renamed f names) (matchAll s patterns targets)
      (matchAll s' (renameAll f patterns) targets)
  | [], [], _ => .some h
  | [], _ :: _, _ => .none
  | _ :: _, [], _ => .none
  | a :: as, b :: bs, he => by
    rw [varsAll, List.forall_mem_append] at he
    have hfirst := matchWith_rename hf h a b he.1
    rw [renameAll, matchAll, matchAll]
    generalize matchWith s a b = first, matchWith s' (a.rename f) b = first' at hfirst ⊢
    cases hfirst with
    | none => exact .none
    | some hm => exact matchAll_renameAll hf hm as bs he.2

end

end Expr

end Deductive
