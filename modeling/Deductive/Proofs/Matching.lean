import Deductive.Expr.Matching
import Deductive.Proofs.Substitution

/-!
Matching finds the least substitution that makes a pattern equal to its target, if there is one.
-/
namespace Deductive.Expr

/-- `s'` makes the pattern equal to the target and is as large as `s` and the pattern ask for. -/
structure IsMatch (s : Substitution) (pattern target : Expr) (s' : Substitution) : Prop where
  extends_start : s'.Extends s
  ground : pattern.isGround s' = true
  subst_eq : pattern.subst s' = target
  domain : ∀ x, s'.contains x = true → s.contains x = true ∨ x ∈ pattern.vars

theorem contains_insert {s : Substitution} {x y : Name} {e : Expr} :
    (s.insert x e).contains y = true ↔ x = y ∨ s.contains y = true := by
  rw [Registry.contains, Registry.get?_insert]
  split
  · simp [*]
  · simp only [*, false_or]
    rfl

theorem isMatch_insert {s : Substitution} {x : Name} (target : Expr) (hs : s.get? x = none) :
    IsMatch s (.var x) target (s.insert x target) := by
  have hx : (s.insert x target).get? x = some target := by rw [Registry.get?_insert, if_pos rfl]
  refine ⟨Registry.Extends.insert s target hs, ?_, subst_var hx, ?_⟩
  · rw [isGround_iff]
    intro y hy
    cases List.mem_singleton.mp hy
    exact Registry.contains_iff.mpr ⟨target, hx⟩
  · intro y hy
    rcases contains_insert.mp hy with rfl | hy
    · exact .inr List.mem_cons_self
    · exact .inl hy

theorem isMatch_self {s : Substitution} {x : Name} {e : Expr} (hs : s.get? x = some e) :
    IsMatch s (.var x) e s := by
  refine ⟨Registry.Extends.refl s, ?_, subst_var hs, fun y hy => .inl hy⟩
  rw [isGround_iff]
  intro y hy
  cases List.mem_singleton.mp hy
  exact Registry.contains_iff.mpr ⟨e, hs⟩

/-- Later arguments leave the match of the earlier ones as it is. -/
theorem IsMatch.then {s s' s'' : Substitution} {a b : Expr} (h : IsMatch s a b s')
    (hs : s''.Extends s') : a.isGround s'' = true ∧ a.subst s'' = b :=
  ⟨isGround_of_extends hs h.ground, (subst_of_extends hs h.ground).trans h.subst_eq⟩

mutual

theorem matchWith_sound {s s' : Substitution} : (pattern target : Expr) →
    matchWith s pattern target = some s' → IsMatch s pattern target s'
  | .var x, target, h => by
    rw [matchWith] at h
    split at h
    · rename_i hs
      cases h
      exact isMatch_insert target hs
    · rename_i e hs
      split at h
      · rename_i he
        cases h
        exact he ▸ isMatch_self hs
      · cases h
  | .app _ _, .var _, h => by cases h
  | .app f as, .app g bs, h => by
    rw [matchWith] at h
    split at h
    · rename_i hf
      obtain ⟨he, hg, hd⟩ := matchAll_sound as bs h
      refine ⟨he, ?_, ?_, ?_⟩
      · rw [isGround_iff]
        intro x hx
        obtain ⟨a, ha, hx⟩ := mem_vars_app.mp hx
        exact isGround_iff.mp (hg.1 a ha) x hx
      · rw [subst_app, hg.2, hf]
      · intro x hx
        rcases hd x hx with hx | hx
        · exact .inl hx
        · exact .inr (mem_vars_app.mpr hx)
    · cases h

theorem matchAll_sound {s s' : Substitution} : (patterns targets : List Expr) →
    matchAll s patterns targets = some s' →
    s'.Extends s ∧ ((∀ a ∈ patterns, a.isGround s' = true) ∧ patterns.map (subst s') = targets) ∧
      ∀ x, s'.contains x = true → s.contains x = true ∨ ∃ a ∈ patterns, x ∈ a.vars
  | [], [], h => by
    cases h
    exact ⟨Registry.Extends.refl s, ⟨nofun, rfl⟩, fun x hx => .inl hx⟩
  | [], _ :: _, h => by cases h
  | _ :: _, [], h => by cases h
  | a :: as, b :: bs, h => by
    rw [matchAll] at h
    split at h
    · cases h
    · rename_i m hm
      have first := matchWith_sound a b hm
      obtain ⟨he, ⟨hg, heq⟩, hd⟩ := matchAll_sound as bs h
      obtain ⟨hga, heqa⟩ := first.then he
      refine ⟨he.trans first.extends_start, ⟨?_, by rw [List.map_cons, heqa, heq]⟩, ?_⟩
      · intro c hc
        rcases List.mem_cons.mp hc with rfl | hc
        · exact hga
        · exact hg c hc
      · intro x hx
        rcases hd x hx with hx | ⟨c, hc, hx⟩
        · rcases first.domain x hx with hx | hx
          · exact .inl hx
          · exact .inr ⟨a, List.mem_cons_self, hx⟩
        · exact .inr ⟨c, List.mem_cons_of_mem _ hc, hx⟩

end

mutual

/-- Whatever larger substitution makes the pattern equal to the target, matching succeeds and asks
for no more than that. -/
theorem matchWith_complete {s t : Substitution} : (pattern : Expr) →
    pattern.isGround t = true → t.Extends s →
    ∃ s', matchWith s pattern (pattern.subst t) = some s' ∧ t.Extends s'
  | .var x, hg, he => by
    obtain ⟨e, ht⟩ := Registry.contains_iff.mp (isGround_iff.mp hg x List.mem_cons_self)
    rw [subst_var ht, matchWith]
    cases hs : s.get? x with
    | none => exact ⟨s.insert x e, rfl, he.of_insert ht⟩
    | some d =>
      have hd : d = e := Option.some.inj ((he x d hs).symm.trans ht)
      exact ⟨s, if_pos hd, he⟩
  | .app f as, hg, he => by
    rw [subst_app, matchWith, if_pos rfl]
    refine matchAll_complete as (fun a ha => ?_) he
    rw [isGround_iff] at hg ⊢
    exact fun x hx => hg x (mem_vars_app.mpr ⟨a, ha, hx⟩)

theorem matchAll_complete {s t : Substitution} : (patterns : List Expr) →
    (∀ a ∈ patterns, a.isGround t = true) → t.Extends s →
    ∃ s', matchAll s patterns (patterns.map (subst t)) = some s' ∧ t.Extends s'
  | [], _, he => ⟨s, rfl, he⟩
  | a :: as, hg, he => by
    obtain ⟨m, hm, hem⟩ := matchWith_complete a (hg a List.mem_cons_self) he
    obtain ⟨s', hs, hes⟩ := matchAll_complete as (fun c hc => hg c (List.mem_cons_of_mem _ hc)) hem
    exact ⟨s', by rw [List.map_cons, matchAll, hm, ← hs], hes⟩

end

/-- A match exists as soon as any larger substitution makes the pattern equal to the target, also
one that leaves variables of the pattern as they are. -/
theorem exists_matchWith {s t : Substitution} (pattern : Expr) (ht : t.Extends s) :
    ∃ out, matchWith s pattern (pattern.subst t) = some out := by
  have hground : pattern.isGround (t.fixing pattern.vars) = true :=
    isGround_iff.mpr Substitution.contains_fixing
  have hlarger : (t.fixing pattern.vars).Extends s := (t.fixing_extends pattern.vars).trans ht
  obtain ⟨out, hout, _⟩ := matchWith_complete pattern hground hlarger
  rw [Substitution.subst_fixing] at hout
  exact ⟨out, hout⟩

/-- The variables of a match are those that were known and those of the pattern. -/
theorem IsMatch.contains_iff {s out : Substitution} {pattern target : Expr}
    (h : IsMatch s pattern target out) (x : Name) :
    out.contains x = true ↔ s.contains x = true ∨ x ∈ pattern.vars := by
  refine ⟨h.domain x, fun hx => ?_⟩
  rcases hx with hx | hx
  · exact h.extends_start.contains hx
  · exact isGround_iff.mp h.ground x hx

/-- Matching succeeds if and only if some larger substitution with all variables of the pattern makes
it equal to the target. What it finds then is the least of these, and where it fails no larger
substitution makes the pattern equal to the target, whichever variables it has. -/
theorem matchWith_least (pattern target : Expr) (s : Substitution) :
    ((∃ out, matchWith s pattern target = some out) ↔
      ∃ t : Substitution, t.Extends s ∧ pattern.isGround t = true ∧ pattern.subst t = target) ∧
    (∀ out, matchWith s pattern target = some out →
      (∀ x, s.contains x = true → out.get? x = s.get? x) ∧
      (∀ x, out.contains x = true ↔ s.contains x = true ∨ x ∈ pattern.vars) ∧
      pattern.subst out = target ∧
      ∀ t : Substitution, t.Extends s → pattern.isGround t = true → pattern.subst t = target →
        t.Extends out) ∧
    (matchWith s pattern target = none →
      ∀ t : Substitution, t.Extends s → pattern.subst t ≠ target) := by
  refine ⟨⟨?_, ?_⟩, ?_, ?_⟩
  · intro ⟨out, hout⟩
    have h := matchWith_sound pattern target hout
    exact ⟨out, h.extends_start, h.ground, h.subst_eq⟩
  · rintro ⟨t, ht, _, rfl⟩
    exact exists_matchWith pattern ht
  · intro out hout
    have h := matchWith_sound pattern target hout
    refine ⟨fun x hx => h.extends_start.get?_eq hx, h.contains_iff, h.subst_eq, ?_⟩
    rintro t ht hground rfl
    obtain ⟨least, hleast, hextends⟩ := matchWith_complete pattern hground ht
    obtain rfl := Option.some.inj (hleast.symm.trans hout)
    exact hextends
  · rintro hnone t ht rfl
    obtain ⟨out, hout⟩ := exists_matchWith pattern ht
    cases hout.symm.trans hnone

/-- Variables of the target may be variables of the pattern: `im(x, not(y))` with `x` known for `y`
becomes `im(y, not(x))` under the substitution that swaps the two, and `im(x, x)` under none. -/
theorem swapped_matchWith_least :
    let im (a b : Expr) := app "im" [a, b]
    let not (a : Expr) := app "not" [a]
    let known : Substitution := .ofList [("y", var "x")]
    let swapping : Substitution := .ofList [("y", var "x"), ("x", var "y")]
    matchWith known (im (var "x") (not (var "y"))) (im (var "y") (not (var "x"))) = some swapping ∧
    (∀ t : Substitution, t.Extends known →
      (im (var "x") (not (var "y"))).isGround t = true →
      (im (var "x") (not (var "y"))).subst t = im (var "y") (not (var "x")) → t.Extends swapping) ∧
    ∀ t : Substitution, t.Extends known →
      (im (var "x") (var "x")).subst t ≠ im (var "y") (not (var "x")) := by
  intro im not known swapping
  have hswapping : matchWith known (im (var "x") (not (var "y"))) (im (var "y") (not (var "x"))) =
      some swapping := by decide
  obtain ⟨_, hleast, _⟩ :=
    matchWith_least (im (var "x") (not (var "y"))) (im (var "y") (not (var "x"))) known
  obtain ⟨_, _, hnone⟩ :=
    matchWith_least (im (var "x") (var "x")) (im (var "y") (not (var "x"))) known
  exact ⟨hswapping, (hleast swapping hswapping).2.2.2, hnone (by decide)⟩

end Deductive.Expr
