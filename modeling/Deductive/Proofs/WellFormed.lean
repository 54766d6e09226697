import Deductive.Diagnostic.Checks
import Deductive.Proofs.Sorting

/-!
What is known of the assertions of a theory in which the checks find no error.
-/
namespace Deductive

/-- Warnings may be among the findings. -/
def Clean (fs : List Finding) : Prop := ∀ f ∈ fs, f.complaint.severity ≠ .error

theorem clean_append {fs gs : List Finding} : Clean (fs ++ gs) ↔ Clean fs ∧ Clean gs :=
  List.forall_mem_append

theorem not_clean {f : Finding} {fs : List Finding} (hf : f.complaint.severity = .error) :
    ¬ Clean (f :: fs) :=
  fun h => h f List.mem_cons_self hf

/-- A check that reports every member of a list that fails a test finds all of them passing it. -/
theorem forall_of_clean {α : Type} {xs : List α} {p : α → Bool} {f : α → Finding}
    (hf : ∀ x, (f x).complaint.severity = .error) (h : Clean ((xs.filter p).map f)) :
    ∀ x ∈ xs, p x = false := by
  intro x hx
  cases hp : p x with
  | false => rfl
  | true => exact absurd (hf x) (h _ (List.mem_map_of_mem (List.mem_filter.mpr ⟨hx, hp⟩)))

theorem nodup_of_clean {binders : List Binder} {labels : List Name}
    (h : Clean (checkLocalNames binders labels)) :
    (binders.map Binder.name ++ labels).Nodup := by
  have hcount := forall_of_clean (fun _ => rfl) h
  rw [List.nodup_iff_count]
  intro n
  by_cases hn : n ∈ binders.map Binder.name ++ labels
  · simpa using hcount n (List.mem_eraseDups.mpr hn)
  · rw [List.count_eq_zero.mpr hn]
    exact Nat.zero_le 1

namespace Binder

theorem mem_boundNames {binders : List Binder} {x : Name} :
    x ∈ boundNames binders ↔ ∃ b ∈ binders, b.bound.holds = true ∧ b.name = x := by
  simp [boundNames, and_assoc]

theorem get?_scope_iff {binders : List Binder} (hn : (binders.map Binder.name).Nodup) {x : Name}
    {b : Binder} : (scope binders).get? x = some b ↔ b ∈ binders ∧ b.name = x := by
  rw [scope, Registry.get?_ofList_iff (by simpa [Function.comp_def] using hn)]
  constructor
  · intro h
    obtain ⟨b', hb, he⟩ := List.mem_map.mp h
    cases he
    exact ⟨hb, rfl⟩
  · intro h
    obtain ⟨hb, rfl⟩ := h
    exact List.mem_map.mpr ⟨b, hb, rfl⟩

/-- Also where names are repeated, what is in scope is a binder. -/
theorem of_get?_scope {binders : List Binder} {x : Name} {b : Binder}
    (h : (scope binders).get? x = some b) : b ∈ binders ∧ b.name = x := by
  obtain ⟨b', hb, he⟩ := List.mem_map.mp (Registry.mem_of_get?_ofList h)
  cases he
  exact ⟨hb, rfl⟩

end Binder

/-- What has a sort over binders has no other variables. -/
theorem HasSort.vars_binders {sig : Signature} {binders : List Binder} {e : Expr} {sort : SortName}
    (h : HasSort sig (Binder.scope binders) e sort) :
    ∀ x ∈ e.vars, ∃ b ∈ binders, b.name = x := by
  intro x hx
  obtain ⟨b, hb⟩ := h.vars_in_scope x hx
  exact ⟨b, Binder.of_get?_scope hb⟩

theorem Expr.isGround_of_binders {s : Substitution} {binders : List Binder} {e : Expr}
    (he : ∀ x ∈ e.vars, ∃ b ∈ binders, b.name = x)
    (hs : ∀ b ∈ binders, s.contains b.name = true) : e.isGround s = true := by
  refine isGround_iff.mpr fun x hx => ?_
  obtain ⟨b, hb, rfl⟩ := he x hx
  exact hs b hb

theorem Expr.subst_congr_binders {s s' : Substitution} {binders : List Binder} {e : Expr}
    (he : ∀ x ∈ e.vars, ∃ b ∈ binders, b.name = x)
    (hs : ∀ b ∈ binders, s.get? b.name = s'.get? b.name) : e.subst s = e.subst s' := by
  refine subst_congr fun x hx => ?_
  obtain ⟨b, hb, rfl⟩ := he x hx
  exact hs b hb

namespace Signature

variable {sig : Signature} {scope : Registry Name Binder}

theorem deps_of_clean {path : String} {i : Nat} {seen : List Name} {bs : List Binder}
    (h : Clean (sig.checkBindersFrom path i seen bs)) {pre post : List Binder} {b : Binder}
    (hbs : bs = pre ++ b :: post) : ∀ d ∈ b.deps, d ∈ seen ∨ d ∈ Binder.boundNames pre := by
  induction bs generalizing i seen pre with
  | nil => simp at hbs
  | cons b' bs ih =>
    rw [checkBindersFrom, clean_append, clean_append] at h
    obtain ⟨⟨_, hdeps⟩, hrest⟩ := h
    cases pre with
    | nil =>
      cases hbs
      intro d hd
      exact .inl (by simpa using forall_of_clean (fun _ => rfl) hdeps d hd)
    | cons c pre =>
      cases hbs
      intro d hd
      rcases ih hrest rfl d hd with hs | hp
      · split at hs
        · rename_i hb
          rcases List.mem_cons.mp hs with rfl | hs
          · exact .inr (Binder.mem_boundNames.mpr ⟨_, List.mem_cons_self, hb, rfl⟩)
          · exact .inl hs
        · exact .inl hs
      · obtain ⟨b', hb', hd⟩ := Binder.mem_boundNames.mp hp
        exact .inr (Binder.mem_boundNames.mpr ⟨b', List.mem_cons_of_mem _ hb', hd⟩)

theorem of_clean_checkArgument {term : Name} {i : Nat} {param : Binder} {arg : Expr}
    {sort : SortName} {path : Option String}
    (h : Clean ((checkArgument scope term i param arg (some sort)).map (⟨·, path⟩))) :
    sort = param.sort ∧ (param.bound.holds = true → ∃ x, arg = .var x ∧ IsBound scope x) := by
  unfold checkArgument at h
  rw [List.map_append, clean_append] at h
  obtain ⟨hsort, hbound⟩ := h
  constructor
  · dsimp only at hsort
    split at hsort
    · assumption
    · exact absurd hsort (not_clean rfl)
  · intro hp
    rw [if_pos hp] at hbound
    cases arg with
    | app f args => exact absurd hbound (not_clean rfl)
    | var x =>
      dsimp only at hbound
      split at hbound
      · rename_i hx
        exact ⟨x, rfl, by simpa [Option.any_eq_true, IsBound] using hx⟩
      · exact absurd hbound (not_clean rfl)

theorem of_clean_checkArguments {term : Name} {args : List Expr} {params : List Binder}
    {path : String} {i : Nat} (h : Clean (sig.checkArguments scope path term i args params)) :
    ∀ arg param, (arg, param) ∈ args.zip params →
      ∃ path i, Clean (sig.checkExpr scope path arg).1 ∧
        Clean ((checkArgument scope term i param arg (sig.checkExpr scope path arg).2).map
          (⟨·, some path⟩)) := by
  induction args generalizing params i with
  | nil => nofun
  | cons arg args ih =>
    cases params with
    | nil => nofun
    | cons param params =>
      rw [checkArguments, clean_append, clean_append] at h
      obtain ⟨⟨hexpr, harg⟩, hrest⟩ := h
      intro a p hm
      rcases List.mem_cons.mp hm with he | hm
      · cases he
        exact ⟨_, _, hexpr, harg⟩
      · exact ih hrest a p hm

theorem hasSort_of_clean {e : Expr} {path : String} (h : Clean (sig.checkExpr scope path e).1) :
    ∃ sort, (sig.checkExpr scope path e).2 = some sort ∧ HasSort sig scope e sort := by
  induction e generalizing path with
  | var x =>
    rw [checkExpr] at h ⊢
    cases hx : scope.get? x with
    | none =>
      rw [hx] at h
      exact absurd h (not_clean rfl)
    | some b => exact ⟨b.sort, rfl, .var hx⟩
  | app f args ih =>
    rw [checkExpr] at h ⊢
    cases hf : sig.terms.get? f with
    | none =>
      rw [hf] at h
      exact absurd h (not_clean rfl)
    | some term =>
      rw [hf] at h
      by_cases hl : args.length = term.arity
      · simp only [hl, ↓reduceIte] at h ⊢
        have hargs : ∀ arg param, (arg, param) ∈ args.zip term.binders →
            HasSort sig scope arg param.sort ∧
              (param.bound.holds = true → ∃ x, arg = .var x ∧ IsBound scope x) := by
          intro arg param hm
          obtain ⟨path, i, hexpr, harg⟩ := of_clean_checkArguments h arg param hm
          obtain ⟨sort, hs, hsort⟩ := ih arg (List.of_mem_zip hm).1 hexpr
          rw [hs] at harg
          obtain ⟨rfl, hbound⟩ := of_clean_checkArgument harg
          exact ⟨hsort, hbound⟩
        exact ⟨_, rfl, .app hf hl (fun a p hm => (hargs a p hm).1) fun a p hm => (hargs a p hm).2⟩
      · simp only [hl, ↓reduceIte] at h
        exact absurd h (not_clean rfl)

theorem hasSort_of_clean_statement {e : Expr} {path : String}
    (h : Clean (sig.checkStatement scope path e)) : ∃ sort, HasSort sig scope e sort := by
  obtain ⟨sort, _, hsort⟩ := hasSort_of_clean (clean_append.mp h).1
  exact ⟨sort, hsort⟩

theorem hasSort_of_clean_hypotheses {i : Nat} {hs : List Hypothesis}
    (h : Clean (sig.checkHypothesesFrom scope i hs)) :
    ∀ p ∈ hs, ∃ sort, HasSort sig scope p.formula sort := by
  induction hs generalizing i with
  | nil => nofun
  | cons p hs ih =>
    rw [checkHypothesesFrom, clean_append] at h
    exact List.forall_mem_cons.mpr ⟨hasSort_of_clean_statement h.1, ih h.2⟩

end Signature

/-- The formulas of an assertion have no variables but its binders. -/
structure Assertion.IsClosed (a : Assertion) : Prop where
  conclusion : ∀ x ∈ a.conclusion.vars, ∃ b ∈ a.binders, b.name = x
  hypotheses : ∀ h ∈ a.hypotheses, ∀ x ∈ h.formula.vars, ∃ b ∈ a.binders, b.name = x

/-- What checking, matching and replacing rely on in an assertion. -/
structure Assertion.WellFormed (sig : Signature) (a : Assertion) : Prop where
  names : (a.binders.map Binder.name ++ a.hypothesisLabels).Nodup
  deps : ∀ b ∈ a.binders, ∀ d ∈ b.deps, d ∈ Binder.boundNames a.binders
  hypotheses : ∀ h ∈ a.hypotheses, ∃ sort, HasSort sig (Binder.scope a.binders) h.formula sort
  conclusion : ∃ sort, HasSort sig (Binder.scope a.binders) a.conclusion sort

namespace Assertion.WellFormed

variable {sig : Signature} {a : Assertion}

theorem of_clean (h : Clean (sig.checkAssertion a)) : a.WellFormed sig := by
  rw [Signature.checkAssertion, clean_append, clean_append, clean_append, clean_append] at h
  obtain ⟨⟨⟨⟨hbinders, hnames⟩, hhyps⟩, hconcl⟩, _⟩ := h
  refine ⟨nodup_of_clean hnames, fun b hb d hd => ?_, Signature.hasSort_of_clean_hypotheses hhyps,
    Signature.hasSort_of_clean_statement hconcl⟩
  obtain ⟨pre, post, hbs⟩ := List.append_of_mem hb
  rcases Signature.deps_of_clean hbinders hbs d hd with hs | hp
  · cases hs
  · obtain ⟨c, hc, hcd⟩ := Binder.mem_boundNames.mp hp
    exact Binder.mem_boundNames.mpr ⟨c, hbs ▸ List.mem_append_left _ hc, hcd⟩

theorem nodup (h : a.WellFormed sig) : (a.binders.map Binder.name).Nodup :=
  (List.nodup_append.mp h.names).1

theorem conclusion_vars (h : a.WellFormed sig) :
    ∀ x ∈ a.conclusion.vars, ∃ b ∈ a.binders, b.name = x := by
  obtain ⟨sort, hsort⟩ := h.conclusion
  exact hsort.vars_binders

theorem hypothesis_vars (h : a.WellFormed sig) {p : Hypothesis} (hp : p ∈ a.hypotheses) :
    ∀ x ∈ p.formula.vars, ∃ b ∈ a.binders, b.name = x := by
  obtain ⟨sort, hsort⟩ := h.hypotheses p hp
  exact hsort.vars_binders

theorem isClosed (h : a.WellFormed sig) : a.IsClosed :=
  ⟨h.conclusion_vars, fun _ hp => h.hypothesis_vars hp⟩

end Assertion.WellFormed

namespace Theory

theorem wellFormed_of_mem {t : Theory} (h : t.isWellFormed = true) {a : Assertion}
    (ha : a ∈ t.assertions) : a.WellFormed t.signature := by
  refine .of_clean fun f hf => ?_
  have hd : (⟨some a.label, f⟩ : Diagnostic) ∈ t.findings :=
    List.mem_append_right _ (List.mem_flatMap.mpr ⟨a, ha, List.mem_map_of_mem hf⟩)
  have herror : Diagnostic.isError ⟨some a.label, f⟩ = false := by
    simpa using List.all_eq_true.mp h _ hd
  exact of_decide_eq_false herror

/-- Names are only put in order to be reported in it. -/
theorem checkNames_eq_nil {t : Theory}
    (h : ∀ n ∈ t.signature.sorts.keys ++ t.signature.terms.keys ++ t.assertions.map Assertion.label,
      [t.signature.sorts.keys, t.signature.terms.keys,
        t.assertions.map Assertion.label].countP (·.contains n) ≤ 1) :
    t.checkNames = [] := by
  unfold checkNames
  rw [List.map_eq_nil_iff, List.filter_eq_nil_iff]
  intro n hn hcount
  rw [Name.sorted, List.mem_mergeSort, List.mem_eraseDups] at hn
  exact absurd (h n hn) (Nat.not_le_of_lt (of_decide_eq_true hcount))

end Theory

namespace Generalization

private def regular (name : Name) (deps : List Name) : Binder := ⟨name, "wff", false, deps⟩

private def bound (name : Name) : Binder := ⟨name, "set", true, []⟩

def identity : Assertion :=
  ⟨.assumed, "id", [regular "p" []], [], .app "im" [.var "p", .var "p"]⟩

def rule : Assertion :=
  ⟨.assumed, "gen", [bound "x", regular "p" ["x"]], [⟨none, .var "p"⟩],
    .app "all" [.var "x", .var "p"]⟩

def repeated : Assertion :=
  ⟨.claimed, "gen_again", [bound "y", regular "q" ["y"]], [⟨some "h", .var "q"⟩],
    .app "all" [.var "y", .var "q"]⟩

def ofIdentity : Assertion :=
  ⟨.claimed, "gen_id", [bound "z", regular "r" []], [],
    .app "all" [.var "z", .app "im" [.var "r", .var "r"]]⟩

/-- A theory with a term that binds a variable, and with a theorem that is proved from another
one. -/
def theory : Theory :=
  { name := "generalization"
    signature := .ofDecls [⟨"wff", ⟨false, false, true, false⟩⟩, ⟨"set", .empty⟩]
      [⟨"im", [regular "a" [], regular "b" []], "wff", [], false, none⟩,
        ⟨"all", [bound "x", regular "p" ["x"]], "wff", [], false, none⟩] [] .empty
    assertions := [identity, rule, repeated, ofIdentity] }

theorem theory_isWellFormed : theory.isWellFormed = true := by
  rw [Theory.isWellFormed, Theory.findings, Theory.checkNames_eq_nil (by decide)]
  decide

end Generalization
end Deductive
