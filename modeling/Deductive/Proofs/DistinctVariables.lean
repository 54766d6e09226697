import Deductive.Proofs.Composition
import Deductive.Proofs.Context

/-!
The distinct-variable condition, and how far the check of substitutions goes beyond it: a bound
variable of the theorem that stands for none of the assertion may not occur in any image.
-/
namespace Deductive

/-- A bound variable occurs in an expression as one of its variables, or where a regular variable
depends on it. -/
def Occurs (scope : Registry Name Binder) (y : Name) (e : Expr) : Prop :=
  IsBound scope y ∧
    (y ∈ e.vars ∨
      ∃ x ∈ e.vars, ∃ b, scope.get? x = some b ∧ b.bound.holds = false ∧ y ∈ b.deps)

/-- What a bound variable `x` is replaced by may not occur in what a regular one is replaced by
that does not depend on `x`. -/
structure DistinctVariables (ctx : ProofContext) (a : Assertion) (s : Substitution) : Prop where
  sorts : ∀ b ∈ a.binders, ∃ e, s.get? b.name = some e ∧ HasSort ctx.signature ctx.binders e b.sort
  bound : ∀ x ∈ a.binders, x.bound.holds = true →
    ∃ y, s.get? x.name = some (.var y) ∧ IsBound ctx.binders y
  distinct : ∀ x ∈ a.binders, ∀ x' ∈ a.binders, x.bound.holds = true → x'.bound.holds = true →
    x.name ≠ x'.name → s.get? x.name ≠ s.get? x'.name
  apart : ∀ x ∈ a.binders, x.bound.holds = true → ∀ b ∈ a.binders, b.bound.holds = false →
    x.name ∉ b.deps → ∀ y e, s.get? x.name = some (.var y) → s.get? b.name = some e →
    ¬ Occurs ctx.binders y e

/-- Every bound variable that occurs in what a regular variable is replaced by stands for a bound
variable of the assertion. -/
def OnlyImages (ctx : ProofContext) (a : Assertion) (s : Substitution) : Prop :=
  ∀ b ∈ a.binders, b.bound.holds = false → ∀ e, s.get? b.name = some e →
    ∀ y, Occurs ctx.binders y e →
    ∃ x ∈ a.binders, x.bound.holds = true ∧ s.get? x.name = some (.var y)

namespace ProofContext

variable {t : Theory} {claim a : Assertion} {limit : Int} {s : Substitution}

/-- The dependencies of a well-formed theorem are its bound variables. -/
theorem occurs_iff_carried (hclaim : claim.WellFormed t.signature) {y : Name} {e : Expr}
    (he : ∀ x ∈ e.vars, ∃ b, (ofTheory t claim limit).binders.get? x = some b) :
    Occurs (ofTheory t claim limit).binders y e ↔
      ∃ x ∈ e.vars, y ∈ (ofTheory t claim limit).carried x := by
  constructor
  · intro h
    rcases h with ⟨⟨c, hc, hbound⟩, hy | ⟨x, hx, b, hb, hregular, hy⟩⟩
    · exact ⟨y, hy, by simp [carried, hc, hbound]⟩
    · exact ⟨x, hx, by simpa [carried, hb, hregular] using hy⟩
  · intro h
    obtain ⟨x, hx, hy⟩ := h
    obtain ⟨b, hb⟩ := he x hx
    rw [carried, hb] at hy
    cases hbound : b.bound.holds with
    | true =>
      have hyx : y = x := by simpa [hbound] using hy
      exact ⟨hyx ▸ ⟨b, hb, hbound⟩, .inl (hyx ▸ hx)⟩
    | false =>
      have hdep : y ∈ b.deps := by simpa [hbound] using hy
      obtain ⟨hm, _⟩ := Binder.of_get?_scope hb
      obtain ⟨c, hc, hcb, hcy⟩ := Binder.mem_boundNames.mp (hclaim.deps b hm y hdep)
      have hscope := (Binder.get?_scope_iff hclaim.nodup).mpr ⟨hc, hcy⟩
      exact ⟨⟨c, hscope, hcb⟩, .inr ⟨x, hx, b, hb, hbound, hdep⟩⟩

theorem distinct_of_names {ctx : ProofContext} (hnames : (a.binders.map Binder.name).Nodup)
    (h : DistinctVariables ctx a s) : a.binders.Pairwise (DistinctImages s) := by
  refine (List.pairwise_map.mp hnames).imp_of_mem fun {x x'} hx hx' hne => ?_
  exact fun hbound hbound' => h.distinct x hx x' hx' hbound hbound' hne

theorem admissible_iff_distinctVariables (hclaim : claim.WellFormed t.signature)
    (hnames : (a.binders.map Binder.name).Nodup) :
    (ofTheory t claim limit).Admissible a s ↔
      DistinctVariables (ofTheory t claim limit) a s ∧ OnlyImages (ofTheory t claim limit) a s := by
  constructor
  · intro h
    have hcarried : ∀ b ∈ a.binders, b.bound.holds = false → ∀ e, s.get? b.name = some e →
        ∀ y, Occurs (ofTheory t claim limit).binders y e →
        ∃ x ∈ a.binders, x.bound.holds = true ∧ x.name ∈ b.deps ∧
          s.get? x.name = some (.var y) := by
      intro b hb hr e he y hy
      obtain ⟨e', he', hsort⟩ := h.sorts b hb
      cases Option.some.inj (he.symm.trans he')
      obtain ⟨x, hx, hcarry⟩ := (occurs_iff_carried hclaim hsort.vars_in_scope).mp hy
      exact h.confined b hb hr e he x hx y hcarry
    refine ⟨⟨h.sorts, h.bound, ?_, ?_⟩, ?_⟩
    · exact fun x hx x' hx' hbound hbound' hne => h.image_ne hx hx' hbound hbound' hne
    · intro x hx hbound b hb hr hdep y e hxy he hoccurs
      obtain ⟨x', hx', hbound', hdep', hxy'⟩ := hcarried b hb hr e he y hoccurs
      have hne : x.name ≠ x'.name := fun heq => hdep (heq ▸ hdep')
      exact h.image_ne hx hx' hbound hbound' hne (hxy.trans hxy'.symm)
    · intro b hb hr e he y hoccurs
      obtain ⟨x, hx, hbound, _, hxy⟩ := hcarried b hb hr e he y hoccurs
      exact ⟨x, hx, hbound, hxy⟩
  · intro h
    obtain ⟨h, himages⟩ := h
    refine ⟨h.sorts, h.bound, distinct_of_names hnames h, fun b hb hr e he x hx y hy => ?_⟩
    obtain ⟨e', he', hsort⟩ := h.sorts b hb
    cases Option.some.inj (he.symm.trans he')
    have hoccurs := (occurs_iff_carried hclaim hsort.vars_in_scope).mpr ⟨x, hx, hy⟩
    obtain ⟨c, hc, hbound, hcy⟩ := himages b hb hr e he y hoccurs
    refine ⟨c, hc, hbound, Decidable.byContradiction fun hdep => ?_, hcy⟩
    exact h.apart c hc hbound b hb hr hdep y e hcy he hoccurs

/-- The check lets exactly those substitutions pass that keep variables distinct and bring in no
bound variable that stands for none of the assertion. -/
theorem checkSubstitution_iff_distinctVariables (ht : t.isWellFormed = true)
    (hclaim : claim ∈ t.assertions) (ha : a ∈ t.assertions) (s : Substitution) (limit : Int) :
    (ofTheory t claim limit).checkSubstitution a s = .ok () ↔
      DistinctVariables (ofTheory t claim limit) a s ∧ OnlyImages (ofTheory t claim limit) a s := by
  rw [checkSubstitution_eq_ok_iff]
  exact admissible_iff_distinctVariables (t.wellFormed_of_mem ht hclaim)
    (t.wellFormed_of_mem ht ha).nodup

/-- The rule under its own hypothesis: `y` stands for the variable that it binds. -/
theorem repeated_distinctVariables :
    Generalization.theory.isWellFormed = true ∧
      Generalization.repeated ∈ Generalization.theory.assertions ∧
      Generalization.rule ∈ Generalization.theory.assertions ∧
      DistinctVariables (ofTheory Generalization.theory Generalization.repeated 10)
        Generalization.rule (.ofList [("x", .var "y"), ("p", .var "q")]) := by
  have hrepeated : Generalization.repeated ∈ Generalization.theory.assertions := by decide
  have hrule : Generalization.rule ∈ Generalization.theory.assertions := by decide
  refine ⟨Generalization.theory_isWellFormed, hrepeated, hrule, ?_⟩
  have hiff := checkSubstitution_iff_distinctVariables Generalization.theory_isWellFormed hrepeated
    hrule (.ofList [("x", .var "y"), ("p", .var "q")]) 10
  exact (hiff.mp rfl).1

/-- The identity binds nothing, so that no variable has to be kept distinct; but `q` depends on `y`,
which stands for no variable of the identity. -/
theorem identity_rejected :
    Generalization.theory.isWellFormed = true ∧
    Generalization.repeated ∈ Generalization.theory.assertions ∧
    Generalization.identity ∈ Generalization.theory.assertions ∧
    DistinctVariables (ofTheory Generalization.theory Generalization.repeated 10)
      Generalization.identity (.ofList [("p", .var "q")]) ∧
    (ofTheory Generalization.theory Generalization.repeated 10).checkSubstitution
      Generalization.identity (.ofList [("p", .var "q")]) =
        .error (.notDisjoint "id" "y" "p") := by
  have hregular : ∀ b ∈ Generalization.identity.binders, ¬ b.bound.holds = true := by decide
  refine ⟨Generalization.theory_isWellFormed, by decide, by decide, ⟨fun b hb => ?_,
    fun x hx hbound => ?_, fun x hx _ _ hbound => ?_, fun x hx hbound => ?_⟩, rfl⟩
  · cases List.mem_singleton.mp hb
    have hq : (ofTheory Generalization.theory Generalization.repeated 10).binders.get? "q" =
        some ⟨"q", "wff", false, ["y"]⟩ := rfl
    have hsort : HasSort Generalization.theory.signature _ (.var "q") "wff" := .var hq
    exact ⟨.var "q", rfl, hsort⟩
  · exact absurd hbound (hregular x hx)
  · exact absurd hbound (hregular x hx)
  · exact absurd hbound (hregular x hx)

end ProofContext
end Deductive
