import Deductive.Expr
import Deductive.Proofs.Registry

/-!
Substitutions in expressions: what an expression under a substitution depends on, which variables
it has, and how one substitution follows another one.
-/
namespace Deductive

namespace Expr

/-- The arguments of an application come with their membership instead of a statement on lists. -/
@[elab_as_elim, induction_eliminator]
theorem induct {motive : Expr → Prop} (var : ∀ x, motive (.var x))
    (app : ∀ term args, (∀ a ∈ args, motive a) → motive (.app term args)) (e : Expr) :
    motive e := by
  refine Expr.rec (motive_1 := motive) (motive_2 := fun args => ∀ a ∈ args, motive a) var app
    ?_ ?_ e
  · intro a ha
    cases ha
  · intro a as iha ihas b hb
    rcases List.mem_cons.mp hb with rfl | hb
    · exact iha
    · exact ihas b hb

theorem mem_varsAll {x : Name} {es : List Expr} : x ∈ varsAll es ↔ ∃ e ∈ es, x ∈ e.vars := by
  induction es with
  | nil => simp [varsAll]
  | cons e es ih => simp [varsAll, ih]

theorem mem_termsAll {f : Name} {es : List Expr} :
    f ∈ termsAll es ↔ ∃ e ∈ es, f ∈ e.terms := by
  induction es with
  | nil => simp [termsAll]
  | cons e es ih => simp [termsAll, ih]

theorem mem_vars_app {x f : Name} {args : List Expr} :
    x ∈ (app f args).vars ↔ ∃ e ∈ args, x ∈ e.vars := by
  rw [vars, mem_varsAll]

theorem substAll_eq_map (s : Substitution) (es : List Expr) :
    substAll s es = es.map (subst s) := by
  induction es with
  | nil => rfl
  | cons e es ih => rw [substAll, ih, List.map_cons]

theorem subst_app (s : Substitution) (f : Name) (args : List Expr) :
    (app f args).subst s = app f (args.map (subst s)) := by
  rw [subst, substAll_eq_map]

/-- An expression depends on what its variables stand for, with or without an entry. -/
theorem subst_congr_vars {s t : Substitution} {e : Expr}
    (h : ∀ x ∈ e.vars, (var x).subst s = (var x).subst t) : e.subst s = e.subst t := by
  induction e with
  | var x => exact h x List.mem_cons_self
  | app f args ih =>
    rw [subst_app, subst_app]
    congr 1
    apply List.map_congr_left
    intro a ha
    exact ih a ha fun x hx => h x (mem_vars_app.mpr ⟨a, ha, hx⟩)

theorem subst_congr {s t : Substitution} {e : Expr} (h : ∀ x ∈ e.vars, s.get? x = t.get? x) :
    e.subst s = e.subst t :=
  subst_congr_vars fun x hx => by rw [subst, subst, h x hx]

theorem isGround_iff {s : Substitution} {e : Expr} :
    e.isGround s = true ↔ ∀ x ∈ e.vars, s.contains x = true :=
  List.all_eq_true

theorem isGround_of_extends {s t : Substitution} (h : t.Extends s) {e : Expr}
    (hg : e.isGround s = true) : e.isGround t = true :=
  isGround_iff.mpr fun x hx => h.contains (isGround_iff.mp hg x hx)

/-- What is known of all variables of an expression settles it for good. -/
theorem subst_of_extends {s t : Substitution} (h : t.Extends s) {e : Expr}
    (hg : e.isGround s = true) : e.subst t = e.subst s :=
  subst_congr fun x hx => h.get?_eq (isGround_iff.mp hg x hx)

theorem subst_var {s : Substitution} {x : Name} {e : Expr} (h : s.get? x = some e) :
    (var x).subst s = e := by
  rw [subst, h]
  rfl

theorem mem_vars_subst {s : Substitution} {e : Expr} {y : Name} :
    y ∈ (e.subst s).vars ↔ ∃ x ∈ e.vars, y ∈ ((var x).subst s).vars := by
  induction e with
  | var x => simp [vars]
  | app f args ih =>
    rw [subst_app, mem_vars_app]
    constructor
    · intro h
      obtain ⟨b, hb, hy⟩ := h
      obtain ⟨a, ha, rfl⟩ := List.mem_map.mp hb
      obtain ⟨x, hx, hy⟩ := (ih a ha).mp hy
      exact ⟨x, mem_vars_app.mpr ⟨a, ha, hx⟩, hy⟩
    · intro h
      obtain ⟨x, hx, hy⟩ := h
      obtain ⟨a, ha, hx⟩ := mem_vars_app.mp hx
      exact ⟨_, List.mem_map.mpr ⟨a, ha, rfl⟩, (ih a ha).mpr ⟨x, hx, hy⟩⟩

end Expr

namespace Substitution

/-- First `u`, and `s` in what it puts in. -/
def andThen (u s : Substitution) : Substitution := u.mapValues (Expr.subst s)

theorem get?_andThen (u s : Substitution) (x : Name) :
    (u.andThen s).get? x = (u.get? x).map (Expr.subst s) :=
  Registry.get?_mapValues u (Expr.subst s) x

theorem subst_andThen {u s : Substitution} {e : Expr} (h : e.isGround u = true) :
    e.subst (u.andThen s) = (e.subst u).subst s := by
  induction e with
  | var x =>
    obtain ⟨a, ha⟩ := Registry.contains_iff.mp (Expr.isGround_iff.mp h x List.mem_cons_self)
    rw [Expr.subst_var ha, Expr.subst_var (by rw [get?_andThen, ha]; rfl)]
  | app f args ih =>
    rw [Expr.subst_app, Expr.subst_app, Expr.subst_app, List.map_map]
    congr 1
    apply List.map_congr_left
    intro a ha
    refine ih a ha (Expr.isGround_iff.mpr fun x hx => ?_)
    exact Expr.isGround_iff.mp h x (Expr.mem_vars_app.mpr ⟨a, ha, hx⟩)

/-- Every variable of the list has an entry; one that had none stands for itself. -/
def fixing (s : Substitution) : List Name → Substitution
  | [] => s
  | x :: xs => if s.contains x then fixing s xs else fixing (s.insert x (.var x)) xs

theorem get?_eq_none_of_not_contains {s : Substitution} {x : Name} (h : ¬ s.contains x = true) :
    s.get? x = none :=
  Option.not_isSome_iff_eq_none.mp h

theorem fixing_extends (s : Substitution) (xs : List Name) : (s.fixing xs).Extends s := by
  induction xs generalizing s with
  | nil => exact .refl s
  | cons x xs ih =>
    rw [fixing]
    split
    · exact ih s
    · rename_i hx
      exact (ih _).trans (.insert s (.var x) (get?_eq_none_of_not_contains hx))

theorem contains_fixing {s : Substitution} {xs : List Name} :
    ∀ x ∈ xs, (s.fixing xs).contains x = true := by
  induction xs generalizing s with
  | nil => nofun
  | cons x xs ih =>
    rw [fixing]
    refine List.forall_mem_cons.mpr ⟨?_, ?_⟩
    · split
      · rename_i hx
        exact (fixing_extends s xs).contains hx
      · refine (fixing_extends _ xs).contains (Registry.contains_iff.mpr ⟨.var x, ?_⟩)
        rw [Registry.get?_insert, if_pos rfl]
    · split
      · exact ih
      · exact ih

/-- A variable without an entry stands for itself already. -/
theorem subst_fixing (s : Substitution) (xs : List Name) (e : Expr) :
    e.subst (s.fixing xs) = e.subst s := by
  induction xs generalizing s with
  | nil => rfl
  | cons x xs ih =>
    rw [fixing]
    split
    · exact ih s
    · rename_i hx
      rw [ih]
      refine Expr.subst_congr_vars fun y _ => ?_
      rw [Expr.subst, Expr.subst, Registry.get?_insert]
      split
      · rename_i he
        rw [← he, get?_eq_none_of_not_contains hx]
        rfl
      · rfl

end Substitution
end Deductive
