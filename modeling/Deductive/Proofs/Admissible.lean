import Deductive.Proofs.Results
import Deductive.Proofs.Sorting

/-!
The substitutions under which an assertion may be applied, as conditions on the images of its
binders. They hold exactly of the substitutions that the check lets pass.
-/
namespace Deductive.ProofContext

/-- Of two bound binders each has an image of its own. -/
def DistinctImages (s : Substitution) (b c : Binder) : Prop :=
  b.bound.holds = true → c.bound.holds = true → s.get? b.name ≠ s.get? c.name

/-- Nothing is asked of the theory here: names may be repeated, and dependencies may name anything.
-/
structure Admissible (ctx : ProofContext) (a : Assertion) (s : Substitution) : Prop where
  sorts : ∀ b ∈ a.binders, ∃ e, s.get? b.name = some e ∧ HasSort ctx.signature ctx.binders e b.sort
  bound : ∀ b ∈ a.binders, b.bound.holds = true →
    ∃ x, s.get? b.name = some (.var x) ∧ IsBound ctx.binders x
  distinct : a.binders.Pairwise (DistinctImages s)
  confined : ∀ b ∈ a.binders, b.bound.holds = false → ∀ e, s.get? b.name = some e →
    ∀ x ∈ e.vars, ∀ y ∈ ctx.carried x,
      ∃ c ∈ a.binders, c.bound.holds = true ∧ c.name ∈ b.deps ∧ s.get? c.name = some (.var y)

/-- The registry says of the bound binders among `done` which variables they are replaced by. -/
def IsImages (s : Substitution) (done : List Binder) (images : Registry Name Name) : Prop :=
  ∀ d y, images.get? d = some y ↔
    ∃ b ∈ done, b.bound.holds = true ∧ b.name = d ∧ s.get? b.name = some (.var y)

theorem isImages_empty (s : Substitution) : IsImages s [] .empty := by
  intro d y
  simp

theorem IsImages.regular {s : Substitution} {done : List Binder} {images : Registry Name Name}
    (h : IsImages s done images) {b : Binder} (hb : b.bound.holds = false) :
    IsImages s (b :: done) images := by
  intro d y
  rw [h d y]
  constructor
  · intro h
    obtain ⟨c, hc, hs⟩ := h
    exact ⟨c, List.mem_cons_of_mem _ hc, hs⟩
  · intro h
    obtain ⟨c, hc, hs⟩ := h
    rcases List.mem_cons.mp hc with rfl | hc
    · rw [hb] at hs
      cases hs.1
    · exact ⟨c, hc, hs⟩

theorem IsImages.bound {s : Substitution} {done : List Binder} {images : Registry Name Name}
    (h : IsImages s done images) {b : Binder} {x : Name} (hb : b.bound.holds = true)
    (hs : s.get? b.name = some (.var x)) : IsImages s (b :: done) (images.insert b.name x) := by
  intro d y
  rw [Registry.get?_insert]
  split
  · rename_i hd
    constructor
    · intro he
      cases he
      exact ⟨b, List.mem_cons_self, hb, hd, hs⟩
    · intro h
      obtain ⟨c, _, _, hc, hy⟩ := h
      rw [hc, ← hd, hs] at hy
      cases hy
      rfl
  · rename_i hd
    rw [h d y]
    constructor
    · intro h
      obtain ⟨c, hc, hy⟩ := h
      exact ⟨c, List.mem_cons_of_mem _ hc, hy⟩
    · intro h
      obtain ⟨c, hc, hy⟩ := h
      rcases List.mem_cons.mp hc with rfl | hc
      · exact absurd hy.2.1 hd
      · exact ⟨c, hc, hy⟩

theorem IsImages.not_mem_values {s : Substitution} {done : List Binder}
    {images : Registry Name Name} (h : IsImages s done images) {b : Binder} {x : Name}
    (hb : b.bound.holds = true) (hs : s.get? b.name = some (.var x)) :
    x ∉ images.values ↔ ∀ c ∈ done, DistinctImages s c b := by
  rw [Registry.mem_values_iff, not_exists]
  constructor
  · intro hx c hc hcb _ he
    exact hx c.name ((h c.name x).mpr ⟨c, hc, hcb, rfl, he.trans hs⟩)
  · intro hd d hx
    obtain ⟨c, hc, hcb, _, hy⟩ := (h d x).mp hx
    exact hd c hc hcb hb (hy.trans hs.symm)

variable (ctx : ProofContext)

theorem image_eq_ok_iff {s : Substitution} {b : Binder} {e : Expr} :
    image s b = .ok e ↔ s.get? b.name = some e := by
  unfold image
  cases s.get? b.name <;> simp

theorem boundImage_eq_ok_iff {label : Name} {b : Binder} {images : Registry Name Name} {e : Expr}
    {x : Name} :
    ctx.boundImage label b images e = .ok x ↔
      e = .var x ∧ IsBound ctx.binders x ∧ x ∉ images.values := by
  cases e with
  | app f args => simp [boundImage]
  | var z =>
    have hz : ctx.isBoundVar (.var z) = true ↔ IsBound ctx.binders z := by
      simp [ctx.isBoundVar_iff]
    rw [boundImage, ← List.contains_iff_mem]
    constructor
    · intro h
      split at h
      · cases h
      · rename_i hb
        split at h
        · cases h
        · rename_i hm
          cases h
          exact ⟨rfl, hz.mp (by simpa using hb), hm⟩
    · intro h
      obtain ⟨he, hb, hm⟩ := h
      cases he
      rw [if_neg (by simp [hz.mpr hb]), if_neg hm]

theorem checkImages_cons_eq_ok_iff {label : Name} {s : Substitution} {b : Binder}
    {bs : List Binder} {images images' : Registry Name Name} :
    ctx.checkImages label s (b :: bs) images = .ok images' ↔
      ∃ e, s.get? b.name = some e ∧ HasSort ctx.signature ctx.binders e b.sort ∧
        ((b.bound.holds = false ∧ ctx.checkImages label s bs images = .ok images') ∨
          (b.bound.holds = true ∧ ∃ x, e = .var x ∧ IsBound ctx.binders x ∧ x ∉ images.values ∧
            ctx.checkImages label s bs (images.insert b.name x) = .ok images')) := by
  rw [checkImages, bind_eq_ok_iff]
  refine exists_congr fun e => ?_
  rw [image_eq_ok_iff, bind_eq_ok_iff, ← sortOf_eq_ok_iff]
  refine and_congr_right fun _ => ?_
  constructor
  · intro h
    obtain ⟨sort, hsort, h⟩ := h
    split at h
    · cases h
    · rename_i hne
      rw [hsort, Decidable.not_not.mp hne]
      refine ⟨rfl, ?_⟩
      split at h
      · rename_i hb
        obtain ⟨x, hx, h⟩ := bind_eq_ok_iff.mp h
        obtain ⟨he, hbound, hm⟩ := ctx.boundImage_eq_ok_iff.mp hx
        exact .inr ⟨hb, x, he, hbound, hm, h⟩
      · rename_i hb
        exact .inl ⟨by simpa using hb, h⟩
  · intro h
    obtain ⟨hsort, h⟩ := h
    refine ⟨b.sort, hsort, ?_⟩
    rw [if_neg (Decidable.not_not.mpr rfl)]
    rcases h with ⟨hb, h⟩ | ⟨hb, x, he, hbound, hm, h⟩
    · rw [if_neg (by simp [hb])]
      exact h
    · rw [if_pos hb]
      exact bind_eq_ok_iff.mpr ⟨x, ctx.boundImage_eq_ok_iff.mpr ⟨he, hbound, hm⟩, h⟩

theorem checkImages_isImages {label : Name} {s : Substitution} {bs done : List Binder}
    {images images' : Registry Name Name} (hd : IsImages s done images)
    (h : ctx.checkImages label s bs images = .ok images') :
    IsImages s (bs.reverse ++ done) images' := by
  induction bs generalizing done images with
  | nil =>
    cases h
    exact hd
  | cons b bs ih =>
    obtain ⟨e, he, _, h⟩ := ctx.checkImages_cons_eq_ok_iff.mp h
    rw [List.reverse_cons, List.append_assoc, List.singleton_append]
    rcases h with ⟨hb, h⟩ | ⟨hb, x, rfl, _, _, h⟩
    · exact ih (hd.regular hb) h
    · exact ih (hd.bound hb he) h

/-- What is asked of the images of the binders `bs` when those of `done` are there. -/
structure FitImages (s : Substitution) (done bs : List Binder) : Prop where
  sorts : ∀ b ∈ bs, ∃ e, s.get? b.name = some e ∧ HasSort ctx.signature ctx.binders e b.sort
  bound : ∀ b ∈ bs, b.bound.holds = true →
    ∃ x, s.get? b.name = some (.var x) ∧ IsBound ctx.binders x
  distinct : bs.Pairwise (DistinctImages s)
  fresh : ∀ c ∈ done, ∀ b ∈ bs, DistinctImages s c b

theorem fitImages_cons_iff {s : Substitution} {done bs : List Binder} {b : Binder} :
    ctx.FitImages s done (b :: bs) ↔
      (∃ e, s.get? b.name = some e ∧ HasSort ctx.signature ctx.binders e b.sort) ∧
      (b.bound.holds = true → ∃ x, s.get? b.name = some (.var x) ∧ IsBound ctx.binders x) ∧
      (∀ c ∈ done, DistinctImages s c b) ∧ ctx.FitImages s (b :: done) bs := by
  constructor
  · intro h
    obtain ⟨hsorts, hbound, hdistinct, hfresh⟩ := h
    rw [List.forall_mem_cons] at hsorts hbound
    obtain ⟨hfirst, hdistinct⟩ := List.pairwise_cons.mp hdistinct
    refine ⟨hsorts.1, hbound.1, fun c hc => hfresh c hc b List.mem_cons_self, ?_⟩
    refine ⟨hsorts.2, hbound.2, hdistinct, List.forall_mem_cons.mpr ⟨hfirst, ?_⟩⟩
    exact fun c hc b' hb' => hfresh c hc b' (List.mem_cons_of_mem _ hb')
  · intro h
    obtain ⟨hsort, hbound, hfresh, hrest⟩ := h
    obtain ⟨hfirst, hold⟩ := List.forall_mem_cons.mp hrest.fresh
    refine ⟨List.forall_mem_cons.mpr ⟨hsort, hrest.sorts⟩,
      List.forall_mem_cons.mpr ⟨hbound, hrest.bound⟩, .cons hfirst hrest.distinct, fun c hc => ?_⟩
    exact List.forall_mem_cons.mpr ⟨hfresh c hc, hold c hc⟩

theorem checkImages_iff {label : Name} {s : Substitution} {bs done : List Binder}
    {images : Registry Name Name} (hd : IsImages s done images) :
    (∃ images', ctx.checkImages label s bs images = .ok images') ↔ ctx.FitImages s done bs := by
  induction bs generalizing done images with
  | nil => exact ⟨fun _ => ⟨nofun, nofun, .nil, fun _ _ => nofun⟩, fun _ => ⟨images, rfl⟩⟩
  | cons b bs ih =>
    rw [fitImages_cons_iff]
    constructor
    · intro h
      obtain ⟨images', h⟩ := h
      obtain ⟨e, he, hsort, h⟩ := ctx.checkImages_cons_eq_ok_iff.mp h
      refine ⟨⟨e, he, hsort⟩, ?_⟩
      rcases h with ⟨hb, h⟩ | ⟨hb, x, rfl, hx, hm, h⟩
      · refine ⟨fun ht => ?_, fun c _ _ ht => ?_, (ih (hd.regular hb)).mp ⟨images', h⟩⟩
        · rw [hb] at ht
          cases ht
        · rw [hb] at ht
          cases ht
      · exact ⟨fun _ => ⟨x, he, hx⟩, (hd.not_mem_values hb he).mp hm,
          (ih (hd.bound hb he)).mp ⟨images', h⟩⟩
    · intro h
      obtain ⟨⟨e, he, hsort⟩, hbound, hfresh, hrest⟩ := h
      cases hb : b.bound.holds with
      | false =>
        obtain ⟨images', h⟩ := (ih (hd.regular hb)).mpr hrest
        exact ⟨images', ctx.checkImages_cons_eq_ok_iff.mpr ⟨e, he, hsort, .inl ⟨hb, h⟩⟩⟩
      | true =>
        obtain ⟨x, hx, hxb⟩ := hbound hb
        cases Option.some.inj (he.symm.trans hx)
        have hm := (hd.not_mem_values hb hx).mpr hfresh
        obtain ⟨images', h⟩ := (ih (hd.bound hb hx)).mpr hrest
        exact ⟨images', ctx.checkImages_cons_eq_ok_iff.mpr
          ⟨_, he, hsort, .inr ⟨hb, x, rfl, hxb, hm, h⟩⟩⟩

theorem firstOffence_eq_none_iff {images : Registry Name Name} {b : Binder} {e : Expr} :
    ctx.firstOffence images b e = none ↔
      ∀ x ∈ e.vars, ∀ y ∈ ctx.carried x, ∃ d ∈ b.deps, images.get? d = some y := by
  rw [firstOffence, List.findSome?_eq_none_iff]
  refine forall₂_congr fun x _ => ?_
  rw [Name.least?_eq_none_iff, List.filter_eq_nil_iff]
  refine forall₂_congr fun y _ => ?_
  simp [allowed, List.mem_filterMap]

theorem checkDisjoint_eq_ok_iff {label : Name} {s : Substitution} {images : Registry Name Name}
    {bs : List Binder} :
    ctx.checkDisjoint label s images bs = .ok () ↔
      ∀ b ∈ bs, b.bound.holds = false →
        ∃ e, s.get? b.name = some e ∧ ctx.firstOffence images b e = none := by
  induction bs with
  | nil => simp [checkDisjoint]
  | cons b bs ih =>
    rw [checkDisjoint, List.forall_mem_cons]
    cases hb : b.bound.holds with
    | true => simpa using ih
    | false =>
      rw [if_neg (by simp), bind_eq_ok_iff, ← ih]
      constructor
      · intro h
        obtain ⟨e, he, h⟩ := h
        rw [image_eq_ok_iff] at he
        split at h
        · cases h
        · rename_i hn
          exact ⟨fun _ => ⟨e, he, hn⟩, h⟩
      · intro h
        obtain ⟨h, hrest⟩ := h
        obtain ⟨e, he, hn⟩ := h rfl
        refine ⟨e, image_eq_ok_iff.mpr he, ?_⟩
        rw [hn]
        exact hrest

/-- The check lets pass what is admissible and nothing else. -/
theorem checkSubstitution_eq_ok_iff {a : Assertion} {s : Substitution} :
    ctx.checkSubstitution a s = .ok () ↔ ctx.Admissible a s := by
  rw [checkSubstitution, bind_eq_ok_iff]
  constructor
  · intro h
    obtain ⟨images, himages, h⟩ := h
    have hi := ctx.checkImages_isImages (isImages_empty s) himages
    have hfit := (ctx.checkImages_iff (isImages_empty s)).mp ⟨images, himages⟩
    refine ⟨hfit.sorts, hfit.bound, hfit.distinct, fun b hb hr e he x hx y hy => ?_⟩
    obtain ⟨e', he', hn⟩ := ctx.checkDisjoint_eq_ok_iff.mp h b hb hr
    cases Option.some.inj (he.symm.trans he')
    obtain ⟨d, hd, hg⟩ := ctx.firstOffence_eq_none_iff.mp hn x hx y hy
    obtain ⟨c, hc, hcb, rfl, hs⟩ := (hi d y).mp hg
    exact ⟨c, by simpa using hc, hcb, hd, hs⟩
  · intro h
    have hfit : ctx.FitImages s [] a.binders := ⟨h.sorts, h.bound, h.distinct, nofun⟩
    obtain ⟨images, himages⟩ := (ctx.checkImages_iff (isImages_empty s)).mpr hfit
    have hi := ctx.checkImages_isImages (isImages_empty s) himages
    refine ⟨images, himages, ctx.checkDisjoint_eq_ok_iff.mpr fun b hb hr => ?_⟩
    obtain ⟨e, he, _⟩ := h.sorts b hb
    refine ⟨e, he, ctx.firstOffence_eq_none_iff.mpr fun x hx y hy => ?_⟩
    obtain ⟨c, hc, hcb, hd, hs⟩ := h.confined b hb hr e he x hx y hy
    exact ⟨c.name, hd, (hi c.name y).mpr ⟨c, by simpa using hc, hcb, rfl, hs⟩⟩

end Deductive.ProofContext
