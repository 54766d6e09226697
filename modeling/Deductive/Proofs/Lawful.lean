import Deductive.Proofs.WellFormed

/-!
The laws of well-formed theories, and the checks as a decision of them: a theory is found to be
well-formed if and only if it keeps every law.
-/
namespace Deductive

/-- The sort of a binder is declared, and its modifiers allow the binder. -/
def Signature.AllowsBinder (sig : Signature) (b : Binder) : Prop :=
  ∃ decl, sig.sorts.get? b.sort = some decl ∧
    (b.bound.holds = true → decl.modifiers.strict = false) ∧
    (b.bound.holds = false → decl.modifiers.free = true → b.deps = [])

/-- The binders of one declaration. -/
structure Signature.LawfulBinders (sig : Signature) (binders : List Binder) : Prop where
  sorts : ∀ b ∈ binders, sig.AllowsBinder b
  deps : ∀ earlier b later, binders = earlier ++ b :: later →
    ∀ d ∈ b.deps, ∃ c ∈ earlier, c.bound.holds = true ∧ c.name = d

/-- The body of a definition that is declared after the terms of the keys `earlier`. -/
structure Signature.LawfulBody (sig : Signature) (earlier : List Name) (term : TermDecl)
    (body : Expr) : Prop where
  isDef : term.isDef.holds = true
  sort : HasSort sig (Binder.scope term.binders) body term.resultSort
  terms : ∀ f ∈ body.terms, f ∈ earlier

structure Signature.LawfulTerm (sig : Signature) (earlier : List Name) (term : TermDecl) :
    Prop where
  names : (term.binders.map Binder.name).Nodup
  binders : sig.LawfulBinders term.binders
  result : ∃ decl, sig.sorts.get? term.resultSort = some decl ∧ decl.modifiers.closed = false
  resultDeps : ∀ d ∈ term.resultDeps, ∃ b ∈ term.binders, b.bound.holds = true ∧ b.name = d
  body : ∀ body, term.body = some body → sig.LawfulBody earlier term body

/-- A hypothesis or conclusion: it has a sort over the binders, and the sort is provable. -/
def Signature.LawfulStatement (sig : Signature) (binders : List Binder) (e : Expr) : Prop :=
  ∃ sort decl, HasSort sig (Binder.scope binders) e sort ∧ sig.sorts.get? sort = some decl ∧
    decl.modifiers.provable = true

structure Signature.LawfulAssertion (sig : Signature) (a : Assertion) : Prop where
  names : (a.binders.map Binder.name ++ a.hypothesisLabels).Nodup
  binders : sig.LawfulBinders a.binders
  hypotheses : ∀ h ∈ a.hypotheses, sig.LawfulStatement a.binders h.formula
  conclusion : sig.LawfulStatement a.binders a.conclusion

structure Signature.Lawful (sig : Signature) : Prop where
  sortKeys : ∀ key decl, sig.sorts.get? key = some decl → decl.name = key
  termKeys : ∀ key term, sig.terms.get? key = some term → term.name = key
  terms : ∀ earlier key term later, sig.terms.entries = earlier ++ (key, term) :: later →
    sig.LawfulTerm (earlier.map Prod.fst) term
  notations : ∀ token n, sig.notations.get? token = some n →
    ∃ term, sig.terms.get? n.term = some term ∧ term.arity = n.fixity.arity

structure Theory.Lawful (t : Theory) : Prop where
  sortsTerms : ∀ n ∈ t.signature.sorts.keys, n ∉ t.signature.terms.keys
  sortsLabels : ∀ n ∈ t.signature.sorts.keys, n ∉ t.assertions.map Assertion.label
  termsLabels : ∀ n ∈ t.signature.terms.keys, n ∉ t.assertions.map Assertion.label
  labels : (t.assertions.map Assertion.label).Nodup
  signature : t.signature.Lawful
  assertions : ∀ a ∈ t.assertions, t.signature.LawfulAssertion a

/-! Findings of the forms that the checks make. -/

@[simp] theorem clean_nil : Clean [] := nofun

theorem clean_test_iff {c : Prop} [Decidable c] {f : Finding}
    (hf : f.complaint.severity = .error) : Clean (if c then [] else [f]) ↔ c := by
  split
  · simpa
  · rename_i hc
    exact iff_of_false (not_clean hf) hc

theorem clean_filter_iff {α : Type} {xs : List α} {p : α → Bool} {f : α → Finding}
    (hf : ∀ x, (f x).complaint.severity = .error) :
    Clean ((xs.filter p).map f) ↔ ∀ x ∈ xs, p x = false := by
  refine ⟨forall_of_clean hf, fun h g hg => ?_⟩
  obtain ⟨x, hx, _⟩ := List.mem_map.mp hg
  obtain ⟨hx, hp⟩ := List.mem_filter.mp hx
  rw [h x hx] at hp
  cases hp

theorem clean_flatMap_iff {α : Type} {xs : List α} {f : α → List Finding} :
    Clean (xs.flatMap f) ↔ ∀ x ∈ xs, Clean (f x) := by
  simp only [Clean, List.mem_flatMap]
  constructor
  · exact fun h x hx g hg => h g ⟨x, hx, hg⟩
  · exact fun h g ⟨x, hx, hg⟩ => h x hx g hg

theorem clean_checkDeps_iff {deps bound : List Name} {owner : Phrase} {path : String} :
    Clean (checkDeps deps bound owner path) ↔ ∀ d ∈ deps, d ∈ bound := by
  rw [checkDeps, clean_filter_iff fun _ => rfl]
  simp

theorem clean_checkLocalNames_iff {binders : List Binder} {labels : List Name} :
    Clean (checkLocalNames binders labels) ↔ (binders.map Binder.name ++ labels).Nodup := by
  refine ⟨nodup_of_clean, fun h => ?_⟩
  rw [checkLocalNames, clean_filter_iff fun _ => rfl]
  intro n _
  simpa using List.nodup_iff_count.mp h n

theorem Name.mem_sorted {names : List Name} {n : Name} : n ∈ Name.sorted names ↔ n ∈ names := by
  rw [Name.sorted, List.mem_mergeSort, List.mem_eraseDups]

theorem HasSort.terms_declared {sig : Signature} {scope : Registry Name Binder} {e : Expr}
    {sort : SortName} (h : HasSort sig scope e sort) :
    ∀ f ∈ e.terms, sig.terms.contains f = true := by
  induction h with
  | var => nofun
  | app declared arity _ _ ih =>
    intro f hf
    rw [Expr.terms, List.mem_cons, Expr.mem_termsAll] at hf
    rcases hf with rfl | ⟨arg, ha, hf⟩
    · exact Registry.contains_iff.mpr ⟨_, declared⟩
    · obtain ⟨param, hm⟩ := mem_zip_of_mem_left arity ha
      exact ih arg param hm f hf

namespace Signature

variable {sig : Signature} {scope : Registry Name Binder}

/-! Binders. -/

theorem clean_checkBinderSort_iff {b : Binder} {path : Option String} :
    Clean ((sig.checkBinderSort b).map (⟨·, path⟩)) ↔ sig.AllowsBinder b := by
  unfold checkBinderSort AllowsBinder
  cases sig.sorts.get? b.sort with
  | none => exact iff_of_false (not_clean rfl) (by simp)
  | some decl =>
    cases b.bound.holds with
    | true =>
      cases hs : decl.modifiers.strict with
      | true => simpa [hs] using not_clean rfl
      | false => simp [hs]
    | false =>
      cases hf : decl.modifiers.free with
      | false => simp [hf]
      | true =>
        cases b.deps with
        | nil => simp
        | cons d ds => simpa [hf] using not_clean rfl

theorem clean_checkBindersFrom_iff {path : String} {i : Nat} {seen : List Name}
    {bs : List Binder} :
    Clean (sig.checkBindersFrom path i seen bs) ↔
      (∀ b ∈ bs, sig.AllowsBinder b) ∧
        ∀ earlier b later, bs = earlier ++ b :: later →
          ∀ d ∈ b.deps, d ∈ seen ∨ d ∈ Binder.boundNames earlier := by
  constructor
  · intro h
    refine ⟨?_, fun earlier b later hbs => deps_of_clean h hbs⟩
    induction bs generalizing i seen with
    | nil => nofun
    | cons b bs ih =>
      rw [checkBindersFrom, clean_append, clean_append] at h
      exact List.forall_mem_cons.mpr ⟨clean_checkBinderSort_iff.mp h.1.1, ih h.2⟩
  · rintro ⟨hsorts, hdeps⟩
    induction bs generalizing i seen with
    | nil => exact clean_nil
    | cons b bs ih =>
      obtain ⟨hb, hbs⟩ := List.forall_mem_cons.mp hsorts
      rw [checkBindersFrom, clean_append, clean_append]
      refine ⟨⟨clean_checkBinderSort_iff.mpr hb, clean_checkDeps_iff.mpr fun d hd => ?_⟩,
        ih hbs fun earlier c later hc d hd => ?_⟩
      · rcases hdeps [] b bs rfl d hd with h | h
        · exact h
        · cases h
      -- A bound variable before `c` is `b` itself or stands between the two.
      · rcases hdeps (b :: earlier) c later (by rw [hc, List.cons_append]) d hd with h | h
        · left
          split
          · exact List.mem_cons_of_mem _ h
          · exact h
        · obtain ⟨b', hb', hbound, rfl⟩ := Binder.mem_boundNames.mp h
          rcases List.mem_cons.mp hb' with rfl | hb'
          · left
            rw [if_pos hbound]
            exact List.mem_cons_self
          · exact .inr (Binder.mem_boundNames.mpr ⟨b', hb', hbound, rfl⟩)

theorem clean_checkBinders_iff {binders : List Binder} {path : String} :
    Clean (sig.checkBinders binders path) ↔ sig.LawfulBinders binders := by
  rw [checkBinders, clean_checkBindersFrom_iff]
  simp only [List.not_mem_nil, false_or, Binder.mem_boundNames]
  exact ⟨fun h => ⟨h.1, h.2⟩, fun h => ⟨h.sorts, h.deps⟩⟩

/-! Expressions. What is found of an expression with a sort is nothing but the sort. -/

theorem clean_checkArgument {term : Name} {i : Nat} {param : Binder} {arg : Expr}
    {path : Option String}
    (hb : param.bound.holds = true → ∃ x, arg = .var x ∧ IsBound scope x) :
    Clean ((checkArgument scope term i param arg (some param.sort)).map (⟨·, path⟩)) := by
  unfold checkArgument
  simp only [↓reduceIte, List.nil_append]
  split
  · rename_i hp
    obtain ⟨x, rfl, b, hx, hbound⟩ := hb hp
    simp [hx, hbound]
  · exact clean_nil

theorem clean_checkArguments {term : Name} {args : List Expr} {params : List Binder}
    {path : String} {i : Nat}
    (h : ∀ arg param, (arg, param) ∈ args.zip params → ∀ path,
      Clean (sig.checkExpr scope path arg).1 ∧
        (sig.checkExpr scope path arg).2 = some param.sort)
    (hb : ∀ arg param, (arg, param) ∈ args.zip params → param.bound.holds = true →
      ∃ x, arg = .var x ∧ IsBound scope x) :
    Clean (sig.checkArguments scope path term i args params) := by
  induction args generalizing params i with
  | nil => exact clean_nil
  | cons arg args ih =>
    cases params with
    | nil => exact clean_nil
    | cons param params =>
      obtain ⟨hexpr, hsort⟩ := h arg param List.mem_cons_self s!"{path}.args[{i}]"
      rw [checkArguments, clean_append, clean_append]
      refine ⟨⟨hexpr, ?_⟩, ih (fun a p hm => h a p (List.mem_cons_of_mem _ hm))
        fun a p hm => hb a p (List.mem_cons_of_mem _ hm)⟩
      rw [hsort]
      exact clean_checkArgument (hb arg param List.mem_cons_self)

theorem clean_of_hasSort {e : Expr} {sort : SortName} (h : HasSort sig scope e sort) :
    ∀ path, Clean (sig.checkExpr scope path e).1 ∧ (sig.checkExpr scope path e).2 = some sort := by
  induction h with
  | var found =>
    intro path
    rw [checkExpr, found]
    exact ⟨clean_nil, rfl⟩
  | app declared arity _ bound ih =>
    intro path
    rw [checkExpr, declared]
    simp only [arity, ↓reduceIte, and_true]
    exact clean_checkArguments ih bound

/-- The sort of a formula over lawful binders is declared, wherever the formula takes it from. -/
theorem sort_declared {binders : List Binder} {e : Expr} {sort : SortName}
    (h : HasSort sig (Binder.scope binders) e sort) (hb : ∀ b ∈ binders, sig.AllowsBinder b)
    (ht : ∀ f term, sig.terms.get? f = some term →
      ∃ decl, sig.sorts.get? term.resultSort = some decl) :
    ∃ decl, sig.sorts.get? sort = some decl := by
  cases h with
  | var found =>
    obtain ⟨decl, hd, _⟩ := hb _ (Binder.of_get?_scope found).1
    exact ⟨decl, hd⟩
  | app declared => exact ht _ _ declared

/-! Terms. -/

theorem clean_checkBody_iff {term : TermDecl} {earlier : List Name} {body : Expr} :
    Clean (sig.checkBody (Binder.scope term.binders) term earlier body) ↔
      sig.LawfulBody earlier term body := by
  unfold checkBody
  dsimp only
  rw [clean_append, clean_append, clean_append, clean_test_iff (by rfl),
    clean_filter_iff fun _ => rfl]
  constructor
  · rintro ⟨⟨⟨hdef, hlater⟩, hexpr⟩, hresult⟩
    obtain ⟨sort, hfound, hsort⟩ := hasSort_of_clean hexpr
    rw [hfound] at hresult
    obtain rfl := (clean_test_iff (by rfl)).mp hresult
    refine ⟨hdef, hsort, fun f hf => ?_⟩
    have hdeclared : sig.terms.contains f = true := hsort.terms_declared f hf
    simpa [hdeclared] using hlater f (Name.mem_sorted.mpr hf)
  · intro h
    obtain ⟨hexpr, hfound⟩ := clean_of_hasSort h.sort "body"
    refine ⟨⟨⟨h.isDef, fun f hf => ?_⟩, hexpr⟩, ?_⟩
    · simp [h.terms f (Name.mem_sorted.mp hf)]
    · rw [hfound]
      exact (clean_test_iff (by rfl)).mpr rfl

theorem clean_checkResult_iff {term : TermDecl} :
    Clean (sig.checkResult term) ↔
      (∃ decl, sig.sorts.get? term.resultSort = some decl ∧ decl.modifiers.closed = false) ∧
        ∀ d ∈ term.resultDeps, ∃ b ∈ term.binders, b.bound.holds = true ∧ b.name = d := by
  rw [checkResult, clean_append, clean_checkDeps_iff]
  simp only [Binder.mem_boundNames]
  refine and_congr_left fun _ => ?_
  cases sig.sorts.get? term.resultSort with
  | none => exact iff_of_false (not_clean rfl) (by simp)
  | some decl =>
    cases hc : decl.modifiers.closed with
    | true => simpa [hc] using not_clean rfl
    | false => simp [hc]

theorem clean_checkTerm_iff {earlier : List Name} {key : Name} {term : TermDecl} :
    Clean (sig.checkTerm earlier key term) ↔ term.name = key ∧ sig.LawfulTerm earlier term := by
  rw [checkTerm, clean_append, clean_append, clean_append, clean_append,
    clean_test_iff (by rfl), clean_checkBinders_iff, clean_checkLocalNames_iff, List.append_nil,
    clean_checkResult_iff]
  constructor
  · rintro ⟨⟨⟨⟨hkey, hbinders⟩, hnames⟩, hresult, hdeps⟩, hbody⟩
    refine ⟨hkey.symm, hnames, hbinders, hresult, hdeps, fun body hb => ?_⟩
    rw [hb] at hbody
    exact clean_checkBody_iff.mp hbody
  · rintro ⟨hkey, h⟩
    refine ⟨⟨⟨⟨hkey.symm, h.binders⟩, h.names⟩, h.result, h.resultDeps⟩, ?_⟩
    split
    · rename_i body hb
      exact clean_checkBody_iff.mpr (h.body body hb)
    · exact clean_nil

/-! Statements. That the sort of a statement is declared is found where the sort comes from. -/

theorem clean_checkStatement_iff {binders : List Binder} {path : String} {e : Expr}
    (hb : ∀ b ∈ binders, sig.AllowsBinder b)
    (ht : ∀ f term, sig.terms.get? f = some term →
      ∃ decl, sig.sorts.get? term.resultSort = some decl) :
    Clean (sig.checkStatement (Binder.scope binders) path e) ↔ sig.LawfulStatement binders e := by
  rw [checkStatement, clean_append]
  constructor
  · rintro ⟨hexpr, hprovable⟩
    obtain ⟨sort, hfound, hsort⟩ := hasSort_of_clean hexpr
    obtain ⟨decl, hd⟩ := sort_declared hsort hb ht
    rw [hfound, Option.bind_some, hd] at hprovable
    exact ⟨sort, decl, hsort, hd, (clean_test_iff (by rfl)).mp hprovable⟩
  · rintro ⟨sort, decl, hsort, hd, hprovable⟩
    obtain ⟨hexpr, hfound⟩ := clean_of_hasSort hsort path
    refine ⟨hexpr, ?_⟩
    rw [hfound, Option.bind_some, hd]
    exact (clean_test_iff (by rfl)).mpr hprovable

theorem clean_checkHypothesesFrom_iff {binders : List Binder} {i : Nat} {hs : List Hypothesis}
    (hb : ∀ b ∈ binders, sig.AllowsBinder b)
    (ht : ∀ f term, sig.terms.get? f = some term →
      ∃ decl, sig.sorts.get? term.resultSort = some decl) :
    Clean (sig.checkHypothesesFrom (Binder.scope binders) i hs) ↔
      ∀ h ∈ hs, sig.LawfulStatement binders h.formula := by
  induction hs generalizing i with
  | nil => simp [checkHypothesesFrom]
  | cons h hs ih =>
    rw [checkHypothesesFrom, clean_append, clean_checkStatement_iff hb ht, ih,
      List.forall_mem_cons]

theorem clean_checkAssertion_iff {a : Assertion}
    (ht : ∀ f term, sig.terms.get? f = some term →
      ∃ decl, sig.sorts.get? term.resultSort = some decl) :
    Clean (sig.checkAssertion a) ↔ sig.LawfulAssertion a := by
  have hunused : Clean a.checkUnused := by
    intro f hf
    obtain ⟨b, _, rfl⟩ := List.mem_map.mp hf
    nofun
  rw [checkAssertion, clean_append, clean_append, clean_append, clean_append,
    clean_checkBinders_iff, clean_checkLocalNames_iff]
  constructor
  · rintro ⟨⟨⟨⟨hbinders, hnames⟩, hhyps⟩, hconcl⟩, _⟩
    exact ⟨hnames, hbinders, (clean_checkHypothesesFrom_iff hbinders.sorts ht).mp hhyps,
      (clean_checkStatement_iff hbinders.sorts ht).mp hconcl⟩
  · intro h
    exact ⟨⟨⟨⟨h.binders, h.names⟩, (clean_checkHypothesesFrom_iff h.binders.sorts ht).mpr
      h.hypotheses⟩, (clean_checkStatement_iff h.binders.sorts ht).mpr h.conclusion⟩, hunused⟩

end Signature

/-- Warnings may be among the diagnostics. -/
def Harmless (ds : List Diagnostic) : Prop := ∀ d ∈ ds, d.isError = false

theorem harmless_append {ds es : List Diagnostic} :
    Harmless (ds ++ es) ↔ Harmless ds ∧ Harmless es :=
  List.forall_mem_append

theorem harmless_map_iff {fs : List Finding} {owner : Option Name} :
    Harmless (fs.map (⟨owner, ·⟩)) ↔ Clean fs := by
  rw [Harmless, List.forall_mem_map]
  exact forall₂_congr fun f _ => decide_eq_false_iff_not

theorem harmless_flatMap_iff {α : Type} {xs : List α} {f : α → List Diagnostic} :
    Harmless (xs.flatMap f) ↔ ∀ x ∈ xs, Harmless (f x) := by
  simp only [Harmless, List.mem_flatMap]
  constructor
  · exact fun h x hx g hg => h g ⟨x, hx, hg⟩
  · exact fun h g ⟨x, hx, hg⟩ => h x hx g hg

namespace Signature

variable {sig : Signature}

theorem LawfulTerm.congr {earlier keys : List Name} {term : TermDecl}
    (h : sig.LawfulTerm earlier term) (he : ∀ n ∈ earlier, n ∈ keys) :
    sig.LawfulTerm keys term :=
  { h with
    body := fun body hb =>
      let ⟨hdef, hsort, hterms⟩ := h.body body hb
      ⟨hdef, hsort, fun f hf => he f (hterms f hf)⟩ }

/-- The terms are gone through with the keys of those before them, the nearest first. -/
theorem harmless_checkTermsFrom_iff {keys : List Name} {entries : List (Name × TermDecl)} :
    Harmless (sig.checkTermsFrom keys entries) ↔
      ∀ earlier key term later, entries = earlier ++ (key, term) :: later →
        term.name = key ∧ sig.LawfulTerm (keys ++ earlier.map Prod.fst) term := by
  induction entries generalizing keys with
  | nil => simp [checkTermsFrom, Harmless]
  | cons entry entries ih =>
    obtain ⟨key, term⟩ := entry
    rw [checkTermsFrom, harmless_append, harmless_map_iff, clean_checkTerm_iff, ih]
    have hswap (earlier : List (Name × TermDecl)) (n : Name) :
        n ∈ key :: keys ++ earlier.map Prod.fst ↔
          n ∈ keys ++ ((key, term) :: earlier).map Prod.fst := by
      simp [or_left_comm]
    constructor
    · rintro ⟨hfirst, hrest⟩ earlier k t later hentries
      cases earlier with
      | nil =>
        cases hentries
        simpa using hfirst
      | cons e earlier =>
        cases hentries
        obtain ⟨hname, hterm⟩ := hrest earlier k t later rfl
        exact ⟨hname, hterm.congr fun n hn => (hswap earlier n).mp hn⟩
    · intro h
      refine ⟨by simpa using h [] key term entries rfl, fun earlier k t later hentries => ?_⟩
      obtain ⟨hname, hterm⟩ := h ((key, term) :: earlier) k t later (by rw [hentries]; rfl)
      exact ⟨hname, hterm.congr fun n hn => (hswap earlier n).mpr hn⟩

theorem clean_checkSortKeys_iff :
    Clean sig.checkSortKeys ↔ ∀ key decl, sig.sorts.get? key = some decl → decl.name = key := by
  rw [checkSortKeys, clean_filter_iff fun _ => rfl]
  simp only [Registry.get?_eq_some_iff]
  constructor
  · intro h key decl hm
    have hkey : key = decl.name := by simpa using h (key, decl) hm
    exact hkey.symm
  · intro h entry hm
    simp [h entry.1 entry.2 hm]

theorem clean_checkNotation_iff {token : Name} {n : Notation} :
    Clean (sig.checkNotation token n) ↔
      ∃ term, sig.terms.get? n.term = some term ∧ term.arity = n.fixity.arity := by
  unfold checkNotation
  cases sig.terms.get? n.term with
  | none => exact iff_of_false (not_clean rfl) (by simp)
  | some term => simpa using clean_test_iff (by rfl)

theorem harmless_check_iff : Harmless sig.check ↔ sig.Lawful := by
  rw [check, harmless_append, harmless_append, harmless_map_iff, harmless_map_iff,
    clean_flatMap_iff, clean_checkSortKeys_iff, harmless_checkTermsFrom_iff]
  simp only [Prod.forall, clean_checkNotation_iff, ← Registry.get?_eq_some_iff, List.nil_append]
  constructor
  · rintro ⟨⟨hsorts, hterms⟩, hnotations⟩
    refine ⟨hsorts, fun key term hm => ?_, fun earlier key term later he =>
      (hterms earlier key term later he).2, hnotations⟩
    obtain ⟨earlier, later, he⟩ := List.append_of_mem (Registry.get?_eq_some_iff.mp hm)
    exact (hterms earlier key term later he).1
  · intro h
    refine ⟨⟨h.sortKeys, fun earlier key term later he => ⟨?_, h.terms earlier key term later he⟩⟩,
      h.notations⟩
    exact h.termKeys key term (Registry.get?_eq_some_iff.mpr (he ▸ by simp))

theorem Lawful.term (h : sig.Lawful) {f : Name} {term : TermDecl}
    (hf : sig.terms.get? f = some term) : ∃ earlier, sig.LawfulTerm earlier term := by
  obtain ⟨earlier, later, he⟩ := List.append_of_mem (Registry.get?_eq_some_iff.mp hf)
  exact ⟨_, h.terms earlier f term later he⟩

theorem Lawful.result_declared (h : sig.Lawful) :
    ∀ f term, sig.terms.get? f = some term →
      ∃ decl, sig.sorts.get? term.resultSort = some decl := by
  intro f term hf
  obtain ⟨earlier, hterm⟩ := h.term hf
  obtain ⟨decl, hd, _⟩ := hterm.result
  exact ⟨decl, hd⟩

end Signature

namespace Theory

theorem clean_checkNames_iff {t : Theory} :
    Clean t.checkNames ↔
      (∀ n ∈ t.signature.sorts.keys, n ∉ t.signature.terms.keys) ∧
        (∀ n ∈ t.signature.sorts.keys, n ∉ t.assertions.map Assertion.label) ∧
        ∀ n ∈ t.signature.terms.keys, n ∉ t.assertions.map Assertion.label := by
  generalize hsorts : t.signature.sorts.keys = sorts
  generalize hterms : t.signature.terms.keys = terms
  generalize hlabels : t.assertions.map Assertion.label = labels
  have hcount (n : Name) : [sorts, terms, labels].countP (·.contains n) ≤ 1 ↔
      (n ∈ sorts → n ∉ terms) ∧ (n ∈ sorts → n ∉ labels) ∧ (n ∈ terms → n ∉ labels) := by
    by_cases hs : n ∈ sorts <;> by_cases ht : n ∈ terms <;> by_cases hl : n ∈ labels <;>
      simp [hs, ht, hl]
  rw [checkNames, clean_filter_iff fun _ => rfl, hsorts, hterms, hlabels]
  simp only [Name.mem_sorted, decide_eq_false_iff_not, Nat.not_lt, hcount]
  constructor
  · intro h
    exact ⟨fun n hn => (h n (by simp [hn])).1 hn, fun n hn => (h n (by simp [hn])).2.1 hn,
      fun n hn => (h n (by simp [hn])).2.2 hn⟩
  · exact fun h n _ => ⟨h.1 n, h.2.1 n, h.2.2 n⟩

theorem harmless_checkLabels_iff {t : Theory} :
    Harmless t.checkLabels ↔ (t.assertions.map Assertion.label).Nodup := by
  rw [List.nodup_iff_count, checkLabels, Harmless, List.forall_mem_map]
  simp only [List.mem_filter, List.mem_eraseDups, decide_eq_true_eq]
  constructor
  · intro h l
    by_cases hl : l ∈ t.assertions.map Assertion.label
    · refine Nat.le_of_not_lt fun hcount => ?_
      cases h l ⟨hl, hcount⟩
    · rw [List.count_eq_zero.mpr hl]
      exact Nat.zero_le 1
  · exact fun h l hl => absurd (h l) (Nat.not_le_of_lt hl.2)

theorem harmless_findings_iff {t : Theory} : Harmless t.findings ↔ t.Lawful := by
  rw [findings, harmless_append, harmless_append, harmless_append, harmless_map_iff,
    clean_checkNames_iff, Signature.harmless_check_iff, harmless_checkLabels_iff,
    harmless_flatMap_iff]
  simp only [harmless_map_iff]
  constructor
  · rintro ⟨⟨⟨⟨hst, hsl, htl⟩, hsig⟩, hlabels⟩, hassertions⟩
    exact ⟨hst, hsl, htl, hlabels, hsig, fun a ha =>
      (Signature.clean_checkAssertion_iff hsig.result_declared).mp (hassertions a ha)⟩
  · intro h
    exact ⟨⟨⟨⟨h.sortsTerms, h.sortsLabels, h.termsLabels⟩, h.signature⟩, h.labels⟩, fun a ha =>
      (Signature.clean_checkAssertion_iff h.signature.result_declared).mpr (h.assertions a ha)⟩

theorem isWellFormed_iff_harmless {t : Theory} : t.isWellFormed = true ↔ Harmless t.findings := by
  simp [isWellFormed, Harmless]

theorem lawful_of_isWellFormed {t : Theory} (h : t.isWellFormed = true) : t.Lawful :=
  harmless_findings_iff.mp (isWellFormed_iff_harmless.mp h)

/-- The checks report an error in just those theories that break a law. -/
theorem isWellFormed_iff_lawful (t : Theory) : t.isWellFormed = true ↔ t.Lawful :=
  isWellFormed_iff_harmless.trans harmless_findings_iff

end Theory
end Deductive
