import Deductive.Proof.Context
import Deductive.Proofs.Substitution

/-!
The sorts of expressions as a relation, which finding the sort of an expression decides, and which
substitutions keep.
-/
namespace Deductive

/-- A bound variable among the variables in scope. -/
def IsBound (scope : Registry Name Binder) (x : Name) : Prop :=
  ∃ b, scope.get? x = some b ∧ b.bound.holds = true

/-- Variables have the sort of their binder, and applications the result sort of a declared term
whose parameters the arguments fit. -/
inductive HasSort (sig : Signature) (scope : Registry Name Binder) : Expr → SortName → Prop
  | var {x : Name} {b : Binder} (found : scope.get? x = some b) : HasSort sig scope (.var x) b.sort
  | app {f : Name} {term : TermDecl} {args : List Expr}
      (declared : sig.terms.get? f = some term) (arity : args.length = term.arity)
      (sorts : ∀ arg param, (arg, param) ∈ args.zip term.binders → HasSort sig scope arg param.sort)
      (bound : ∀ arg param, (arg, param) ∈ args.zip term.binders → param.bound.holds = true →
        ∃ x, arg = .var x ∧ IsBound scope x) :
      HasSort sig scope (.app f args) term.resultSort

theorem mem_zip_of_mem_left {α β : Type} {as : List α} {bs : List β} (hl : as.length = bs.length)
    {a : α} (ha : a ∈ as) : ∃ b, (a, b) ∈ as.zip bs := by
  rw [← List.map_fst_zip (Nat.le_of_eq hl)] at ha
  obtain ⟨⟨a', b⟩, hm, rfl⟩ := List.mem_map.mp ha
  exact ⟨b, hm⟩

namespace HasSort

variable {sig : Signature} {scope : Registry Name Binder}

theorem vars_in_scope {e : Expr} {sort : SortName} (h : HasSort sig scope e sort) :
    ∀ x ∈ e.vars, ∃ b, scope.get? x = some b := by
  induction h with
  | var found =>
    intro x hx
    cases List.mem_singleton.mp hx
    exact ⟨_, found⟩
  | app _ arity _ _ ih =>
    intro x hx
    obtain ⟨arg, ha, hx⟩ := Expr.mem_vars_app.mp hx
    obtain ⟨param, hp⟩ := mem_zip_of_mem_left arity ha
    exact ih arg param hp x hx

/-- What stands for a variable has to be of its sort, and a bound variable for a bound one. -/
theorem subst {inner : Registry Name Binder} {s : Substitution} {e : Expr} {sort : SortName}
    (h : HasSort sig inner e sort)
    (hs : ∀ x b, inner.get? x = some b → HasSort sig scope ((Expr.var x).subst s) b.sort)
    (hb : ∀ x, IsBound inner x → ∃ y, (Expr.var x).subst s = .var y ∧ IsBound scope y) :
    HasSort sig scope (e.subst s) sort := by
  induction h with
  | var found => exact hs _ _ found
  | app declared arity _ bound ih =>
    rw [Expr.subst_app]
    refine .app declared (by rw [List.length_map, arity]) ?_ ?_
    · intro arg param hm
      rw [List.zip_map_left] at hm
      obtain ⟨⟨a, p⟩, hap, he⟩ := List.mem_map.mp hm
      cases he
      exact ih a p hap
    · intro arg param hm hp
      rw [List.zip_map_left] at hm
      obtain ⟨⟨a, p⟩, hap, he⟩ := List.mem_map.mp hm
      cases he
      obtain ⟨x, rfl, hx⟩ := bound a p hap hp
      exact hb x hx

end HasSort

namespace ProofContext

variable (ctx : ProofContext)

theorem isBoundVar_iff {e : Expr} :
    ctx.isBoundVar e = true ↔ ∃ x, e = .var x ∧ IsBound ctx.binders x := by
  cases e with
  | var x => simp [isBoundVar, IsBound, Option.any_eq_true]
  | app f args => simp [isBoundVar]

theorem sortArguments_eq_ok_iff (term : Name) (args : List Expr) (params : List Binder) :
    ctx.sortArguments term args params = .ok () ↔
      ∀ arg param, (arg, param) ∈ args.zip params →
        ctx.sortOf arg = .ok param.sort ∧
          (param.bound.holds = true → ctx.isBoundVar arg = true) := by
  induction args generalizing params with
  | nil => simp [sortArguments]
  | cons arg args ih =>
    cases params with
    | nil => simp [sortArguments]
    | cons param params =>
      rw [sortArguments]
      simp only [List.zip_cons_cons, List.mem_cons, Prod.mk.injEq]
      constructor
      · intro h
        split at h
        · cases h
        · rename_i sort hsort
          split at h
          · cases h
          · rename_i hne
            split at h
            · cases h
            · rename_i hb
              intro a p h
              rcases h with ⟨rfl, rfl⟩ | hm
              · refine ⟨by rw [hsort, Decidable.not_not.mp hne], fun hp => ?_⟩
                simpa [hp] using hb
              · exact (ih params).mp h a p hm
      · intro h
        obtain ⟨hsort, hbound⟩ := h arg param (.inl ⟨rfl, rfl⟩)
        rw [hsort]
        dsimp only
        rw [if_neg (Decidable.not_not.mpr rfl), if_neg, ih params]
        · exact fun a p hm => h a p (.inr hm)
        · cases hp : param.bound.holds with
          | false => simp
          | true => simp [hbound hp]

theorem sortOf_app_eq_ok_iff {f : Name} {args : List Expr} {sort : SortName} :
    ctx.sortOf (.app f args) = .ok sort ↔
      ∃ term, ctx.signature.terms.get? f = some term ∧ args.length = term.arity ∧
        ctx.sortArguments f args term.binders = .ok () ∧ term.resultSort = sort := by
  rw [sortOf]
  cases ctx.signature.terms.get? f with
  | none => simp
  | some term =>
    by_cases hl : args.length = term.arity
    · cases ha : ctx.sortArguments f args term.binders with
      | error failure => simp [hl, ha]
      | ok u => simp [hl, ha]
    · simp [hl]

/-- Finding the sort of an expression succeeds on the expressions that have one. -/
theorem sortOf_eq_ok_iff {e : Expr} {sort : SortName} :
    ctx.sortOf e = .ok sort ↔ HasSort ctx.signature ctx.binders e sort := by
  induction e generalizing sort with
  | var x =>
    rw [sortOf]
    constructor
    · intro h
      split at h
      · rename_i b hb
        cases h
        exact .var hb
      · cases h
    · intro h
      cases h with
      | var found => rw [found]
  | app f args ih =>
    rw [sortOf_app_eq_ok_iff]
    constructor
    · intro h
      obtain ⟨term, hd, hl, ha, rfl⟩ := h
      rw [sortArguments_eq_ok_iff] at ha
      refine .app hd hl ?_ ?_
      · intro arg param hm
        exact (ih arg (List.of_mem_zip hm).1).mp (ha arg param hm).1
      · intro arg param hm hp
        exact ctx.isBoundVar_iff.mp ((ha arg param hm).2 hp)
    · intro h
      cases h with
      | app hd hl hs hb =>
        refine ⟨_, hd, hl, ?_, rfl⟩
        rw [sortArguments_eq_ok_iff]
        intro arg param hm
        exact ⟨(ih arg (List.of_mem_zip hm).1).mpr (hs arg param hm),
          fun hp => ctx.isBoundVar_iff.mpr (hb arg param hm hp)⟩

end ProofContext
end Deductive
