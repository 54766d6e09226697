import Deductive.Proofs.Admissible

/-!
Admissible substitutions compose: where `u` may replace the binders of `a` by expressions over the
binders of `c`, and `s` may replace those, `s` after `u` may replace the binders of `a`.
-/
namespace Deductive.ProofContext

namespace Admissible

variable {ctx : ProofContext} {a c : Assertion} {s t u : Substitution}

theorem image_ne (h : ctx.Admissible a s) {b b' : Binder} (hb : b ∈ a.binders)
    (hb' : b' ∈ a.binders) (hbound : b.bound.holds = true) (hbound' : b'.bound.holds = true)
    (hne : b.name ≠ b'.name) : s.get? b.name ≠ s.get? b'.name := by
  have hall : ∀ x ∈ a.binders, ∀ y ∈ a.binders, x.name ≠ y.name → DistinctImages s x y := by
    refine List.Pairwise.forall_of_forall_of_flip (fun x _ hx => absurd rfl hx) ?_ ?_
    · refine h.distinct.imp ?_
      intro x y hd _
      exact hd
    · refine h.distinct.imp ?_
      intro x y hd _ hy hx he
      exact hd hx hy he.symm
  exact hall b hb b' hb' hne hbound hbound'

/-- Only the images of the binders count. -/
theorem congr (h : ctx.Admissible a s) (heq : ∀ b ∈ a.binders, s.get? b.name = t.get? b.name) :
    ctx.Admissible a t := by
  refine ⟨fun b hb => ?_, fun b hb hbound => ?_, ?_, fun b hb hr e he x hx y hy => ?_⟩
  · rw [← heq b hb]
    exact h.sorts b hb
  · rw [← heq b hb]
    exact h.bound b hb hbound
  · refine h.distinct.imp_of_mem fun hb hb' hd => ?_
    rwa [DistinctImages, ← heq _ hb, ← heq _ hb']
  · rw [← heq b hb] at he
    obtain ⟨d, hd, hbound, hdep, hs⟩ := h.confined b hb hr e he x hx y hy
    exact ⟨d, hd, hbound, hdep, by rw [← heq d hd, hs]⟩

theorem contains (h : ctx.Admissible a s) {b : Binder} (hb : b ∈ a.binders) :
    s.contains b.name = true := by
  obtain ⟨e, he, _⟩ := h.sorts b hb
  exact Registry.contains_iff.mpr ⟨e, he⟩

end Admissible

section
variable {inner ctx : ProofContext} {a c : Assertion} {u s : Substitution}

/-- The variables in scope are binders of the assertion, under their names. -/
def IsScope (binders : Registry Name Binder) (c : Assertion) : Prop :=
  ∀ x b, binders.get? x = some b → b ∈ c.binders ∧ b.name = x

theorem hasSort_image (hscope : IsScope inner.binders c) (hs : ctx.Admissible c s) {x : Name}
    {b : Binder} (hx : inner.binders.get? x = some b) :
    HasSort ctx.signature ctx.binders ((Expr.var x).subst s) b.sort := by
  obtain ⟨hb, rfl⟩ := hscope x b hx
  obtain ⟨e, he, hsort⟩ := hs.sorts b hb
  rwa [Expr.subst_var he]

theorem bound_image (hscope : IsScope inner.binders c) (hs : ctx.Admissible c s) {x : Name}
    (hx : IsBound inner.binders x) :
    ∃ y, s.get? x = some (.var y) ∧ IsBound ctx.binders y := by
  obtain ⟨b, hx, hbound⟩ := hx
  obtain ⟨hb, rfl⟩ := hscope x b hx
  exact hs.bound b hb hbound

theorem hasSort_subst (hsig : inner.signature = ctx.signature) (hscope : IsScope inner.binders c)
    (hs : ctx.Admissible c s) {e : Expr} {sort : SortName}
    (h : HasSort inner.signature inner.binders e sort) :
    HasSort ctx.signature ctx.binders (e.subst s) sort := by
  rw [hsig] at h
  refine h.subst (fun x b hx => hasSort_image hscope hs hx) fun x hx => ?_
  obtain ⟨y, hy, hbound⟩ := bound_image hscope hs hx
  exact ⟨y, Expr.subst_var hy, hbound⟩

theorem carried_of_isBound {x y : Name} (hx : IsBound ctx.binders x) (hy : y ∈ ctx.carried x) :
    y = x := by
  obtain ⟨b, hb, hbound⟩ := hx
  rw [carried, hb] at hy
  simpa [hbound] using hy

/-- What the image of a variable brings with it is the image of something that the variable brings
with it. -/
theorem carried_image (hscope : IsScope inner.binders c) (hs : ctx.Admissible c s) {w x y : Name}
    {b : Binder} (hw : inner.binders.get? w = some b) (hx : x ∈ ((Expr.var w).subst s).vars)
    (hy : y ∈ ctx.carried x) : ∃ d ∈ inner.carried w, s.get? d = some (.var y) := by
  obtain ⟨hb, hname⟩ := hscope w b hw
  rw [carried, hw]
  cases hbound : b.bound.holds with
  | true =>
    obtain ⟨z, hz, hzb⟩ := bound_image hscope hs ⟨b, hw, hbound⟩
    rw [Expr.subst_var hz] at hx
    cases List.mem_singleton.mp hx
    cases carried_of_isBound hzb hy
    exact ⟨w, by simp [hbound], hz⟩
  | false =>
    obtain ⟨e, he, _⟩ := hs.sorts b hb
    rw [← hname, Expr.subst_var he] at hx
    obtain ⟨d, _, _, hd, hsd⟩ := hs.confined b hb hbound e he x hx y hy
    exact ⟨d.name, by simpa [hbound] using hd, hsd⟩

theorem get?_andThen_of {x : Name} {e : Expr} (h : u.get? x = some e) :
    (u.andThen s).get? x = some (e.subst s) := by
  rw [Substitution.get?_andThen, h]
  rfl

theorem Admissible.andThen (hsig : inner.signature = ctx.signature)
    (hscope : IsScope inner.binders c) (hs : ctx.Admissible c s) (hu : inner.Admissible a u) :
    ctx.Admissible a (u.andThen s) := by
  -- a bound binder goes to a bound variable of `c`, and from there to one of `ctx`
  have himage : ∀ b ∈ a.binders, b.bound.holds = true → ∃ x y, u.get? b.name = some (.var x) ∧
      IsBound inner.binders x ∧ s.get? x = some (.var y) ∧ IsBound ctx.binders y := by
    intro b hb hbound
    obtain ⟨x, hx, hxb⟩ := hu.bound b hb hbound
    obtain ⟨y, hy, hyb⟩ := bound_image hscope hs hxb
    exact ⟨x, y, hx, hxb, hy, hyb⟩
  refine ⟨fun b hb => ?_, fun b hb hbound => ?_, ?_, fun b hb hr e he x hx y hy => ?_⟩
  · obtain ⟨e, he, hsort⟩ := hu.sorts b hb
    exact ⟨e.subst s, get?_andThen_of he, hasSort_subst hsig hscope hs hsort⟩
  · obtain ⟨x, y, hx, _, hy, hyb⟩ := himage b hb hbound
    exact ⟨y, by rw [get?_andThen_of hx, Expr.subst_var hy], hyb⟩
  · refine hu.distinct.imp_of_mem fun {b b'} hb hb' hd hbound hbound' heq => ?_
    obtain ⟨x, y, hx, ⟨d, hdx, hdb⟩, hy, _⟩ := himage b hb hbound
    obtain ⟨x', y', hx', ⟨d', hdx', hdb'⟩, hy', _⟩ := himage b' hb' hbound'
    rw [get?_andThen_of hx, get?_andThen_of hx', Expr.subst_var hy, Expr.subst_var hy'] at heq
    obtain ⟨hm, rfl⟩ := hscope x d hdx
    obtain ⟨hm', rfl⟩ := hscope x' d' hdx'
    have hne : d.name ≠ d'.name := fun h => hd hbound hbound' (by rw [hx, hx', h])
    exact hs.image_ne hm hm' hdb hdb' hne (by rw [hy, hy', heq])
  · obtain ⟨e', he', hsort⟩ := hu.sorts b hb
    cases Option.some.inj (he.symm.trans (get?_andThen_of he'))
    obtain ⟨w, hw, hx⟩ := Expr.mem_vars_subst.mp hx
    obtain ⟨d, hd⟩ := hsort.vars_in_scope w hw
    obtain ⟨v, hv, hvy⟩ := carried_image hscope hs hd hx hy
    obtain ⟨b', hb', hbound, hdep, hub'⟩ := hu.confined b hb hr e' he' w hw v hv
    exact ⟨b', hb', hbound, hdep, by rw [get?_andThen_of hub', Expr.subst_var hvy]⟩

end
end Deductive.ProofContext
