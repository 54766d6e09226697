import Deductive.Proofs.Lawful
import Deductive.Proofs.Texts
import Deductive.Report

/-!
What is said of a theory that is checked. Each check says only names of what it looks at, so that the
report has no names but those of the theory.
-/
namespace Deductive

variable {P : Name → Prop}

section Kinds

variable (P : Name → Prop)

def Finding.AllNames (f : Finding) : Prop := f.complaint.phrase.AllNames P

structure Diagnostic.AllNames (d : Diagnostic) : Prop where
  owner : ∀ n, d.owner = some n → P n
  finding : d.finding.AllNames P

end Kinds

theorem Finding.AllNames.unowned {f : Finding} (h : f.AllNames P) :
    Diagnostic.AllNames P ⟨none, f⟩ := by
  refine ⟨fun n hn => ?_, h⟩
  cases hn

theorem Diagnostic.AllNames.line {d : Diagnostic} (h : d.AllNames P) : d.line.AllNames P := by
  have hfinding : d.phrase.AllNames P := h.finding
  simp only [Diagnostic.line, Phrase.allNames_append, Phrase.allNames_ofString, hfinding, and_true,
    true_and]
  split
  · rename_i n hn
    simp [h.owner n (Option.filter_eq_some_iff.mp hn).1]
  · exact Phrase.allNames_ofString _

/-! One declaration. -/

theorem checkDeps_names {deps : List Name} (hdeps : ∀ d ∈ deps, P d) (bound : List Name)
    {owner : Phrase} (howner : owner.AllNames P) (path : String) :
    ∀ f ∈ checkDeps deps bound owner path, f.AllNames P := by
  refine List.forall_mem_map.mpr fun d hd => ?_
  simp [Finding.AllNames, Complaint.phrase, hdeps d (List.mem_filter.mp hd).1, howner]

theorem checkLocalNames_names {binders : List Binder} (hbinders : ∀ b ∈ binders, b.AllNames P)
    {labels : List Name} (hlabels : ∀ n ∈ labels, P n) :
    ∀ f ∈ checkLocalNames binders labels, f.AllNames P := by
  refine List.forall_mem_map.mpr fun n hn => ?_
  have hn := List.mem_eraseDups.mp (List.mem_filter.mp hn).1
  have hname : P n := by
    rcases List.mem_append.mp hn with hn | hn
    · obtain ⟨b, hb, rfl⟩ := List.mem_map.mp hn
      exact (hbinders b hb).name
    · exact hlabels n hn
  simp [Finding.AllNames, Complaint.phrase, hname]

theorem Assertion.checkUnused_names {a : Assertion} (h : a.AllNames P) :
    ∀ f ∈ a.checkUnused, f.AllNames P := by
  refine List.forall_mem_map.mpr fun b hb => ?_
  simp [Finding.AllNames, Complaint.phrase, (h.binders b (List.mem_filter.mp hb).1).name]

/-- All binders in scope have names of the kind. -/
def ScopeAllNames (P : Name → Prop) (scope : Registry Name Binder) : Prop :=
  ∀ x b, scope.get? x = some b → b.AllNames P

theorem scope_allNames {binders : List Binder} (h : ∀ b ∈ binders, b.AllNames P) :
    ScopeAllNames P (Binder.scope binders) :=
  fun _ b hb => h b (Binder.of_get?_scope hb).1

theorem checkArgument_names {scope : Registry Name Binder} {term : Name} (hterm : P term) (i : Nat)
    {param : Binder} (hparam : param.AllNames P) (arg : Expr) {found : Option SortName}
    (hfound : ∀ sort, found = some sort → P sort) :
    ∀ c ∈ checkArgument scope term i param arg found, c.phrase.AllNames P := by
  have hnotBound : (Complaint.argumentNotBound i term).phrase.AllNames P := by
    simp [Complaint.phrase, hterm]
  refine List.forall_mem_append.mpr ⟨?_, ?_⟩
  · split
    · rename_i sort
      split
      · exact List.forall_mem_nil _
      · refine List.forall_mem_singleton.mpr ?_
        simp [Complaint.phrase, hterm, hparam.sort, hfound sort rfl]
    · exact List.forall_mem_nil _
  · split
    · split
      · split
        · exact List.forall_mem_nil _
        · exact List.forall_mem_singleton.mpr hnotBound
      · exact List.forall_mem_singleton.mpr hnotBound
    · exact List.forall_mem_nil _

namespace Signature

variable {sig : Signature}

theorem checkBinderSort_names {b : Binder} (hb : b.AllNames P) :
    ∀ c ∈ sig.checkBinderSort b, c.phrase.AllNames P := by
  unfold checkBinderSort
  split
  · simp [Complaint.phrase, hb.name, hb.sort]
  · split
    · split
      · simp [Complaint.phrase, hb.name, hb.sort]
      · exact List.forall_mem_nil _
    · split
      · simp [Complaint.phrase, hb.name, hb.sort]
      · exact List.forall_mem_nil _

theorem checkBindersFrom_names (path : String) (i : Nat) (seen : List Name) {bs : List Binder}
    (hbs : ∀ b ∈ bs, b.AllNames P) :
    ∀ f ∈ sig.checkBindersFrom path i seen bs, f.AllNames P := by
  induction bs generalizing i seen with
  | nil => exact List.forall_mem_nil _
  | cons b bs ih =>
    obtain ⟨hb, hbs⟩ := List.forall_mem_cons.mp hbs
    have howner : ("'" ++ b.name ++ "'" : Phrase).AllNames P := by simp [hb.name]
    refine List.forall_mem_append.mpr ⟨List.forall_mem_append.mpr ⟨?_, ?_⟩, ih _ _ hbs⟩
    · exact List.forall_mem_map.mpr (checkBinderSort_names hb)
    · exact checkDeps_names hb.deps seen howner _

theorem checkBinders_names (path : String) {bs : List Binder} (hbs : ∀ b ∈ bs, b.AllNames P) :
    ∀ f ∈ sig.checkBinders bs path, f.AllNames P :=
  checkBindersFrom_names path 0 [] hbs

mutual

theorem checkExpr_names (hs : sig.AllNames P) {scope : Registry Name Binder}
    (hscope : ScopeAllNames P scope) (path : String) : (e : Expr) → e.AllNames P →
    (∀ f ∈ (sig.checkExpr scope path e).1, f.AllNames P) ∧
      ∀ sort, (sig.checkExpr scope path e).2 = some sort → P sort
  | .var x, h => by
    rw [checkExpr]
    split
    · exact ⟨by simp [Finding.AllNames, Complaint.phrase, Expr.allNames_var.mp h], nofun⟩
    · rename_i b hb
      refine ⟨List.forall_mem_nil _, fun sort hsort => ?_⟩
      cases hsort
      exact (hscope x b hb).sort
  | .app f args, h => by
    obtain ⟨hf, hargs⟩ := Expr.allNames_app.mp h
    rw [checkExpr]
    split
    · exact ⟨by simp [Finding.AllNames, Complaint.phrase, hf], nofun⟩
    · rename_i term hterm
      have hterm := (hs.terms f term hterm).2
      have hresult : ∀ sort, some term.resultSort = some sort → P sort := by
        intro sort hsort
        cases hsort
        exact hterm.result _ List.mem_cons_self
      split
      · exact ⟨checkArguments_names hs hscope path hf 0 args term.binders hargs hterm.binders,
          hresult⟩
      · exact ⟨by simp [Finding.AllNames, Complaint.phrase, hf], hresult⟩

theorem checkArguments_names (hs : sig.AllNames P) {scope : Registry Name Binder}
    (hscope : ScopeAllNames P scope) (path : String) {term : Name} (hterm : P term) (i : Nat) :
    (args : List Expr) → (params : List Binder) → (∀ a ∈ args, a.AllNames P) →
    (∀ b ∈ params, b.AllNames P) → ∀ f ∈ sig.checkArguments scope path term i args params, f.AllNames P
  | [], _, _, _ => by simp [checkArguments]
  | _ :: _, [], _, _ => by simp [checkArguments]
  | arg :: args, param :: params, hargs, hparams => by
    obtain ⟨harg, hargs⟩ := List.forall_mem_cons.mp hargs
    obtain ⟨hparam, hparams⟩ := List.forall_mem_cons.mp hparams
    have hchecked := checkExpr_names hs hscope s!"{path}.args[{i}]" arg harg
    rw [checkArguments]
    refine List.forall_mem_append.mpr ⟨List.forall_mem_append.mpr ⟨hchecked.1, ?_⟩, ?_⟩
    · exact List.forall_mem_map.mpr (checkArgument_names hterm i hparam arg hchecked.2)
    · exact checkArguments_names hs hscope path hterm (i + 1) args params hargs hparams

end

section Declarations

variable (hs : sig.AllNames P)
include hs

theorem checkBody_names {scope : Registry Name Binder} (hscope : ScopeAllNames P scope)
    {term : TermDecl} (hterm : term.AllNames P) (earlier : List Name) {body : Expr}
    (hbody : body.AllNames P) : ∀ f ∈ sig.checkBody scope term earlier body, f.AllNames P := by
  have hresult : P term.resultSort := hterm.result _ List.mem_cons_self
  have hchecked := checkExpr_names hs hscope "body" body hbody
  refine List.forall_mem_append.mpr
    ⟨List.forall_mem_append.mpr ⟨List.forall_mem_append.mpr ⟨?_, ?_⟩, hchecked.1⟩, ?_⟩
  · split
    · exact List.forall_mem_nil _
    · simp [Finding.AllNames, Complaint.phrase, hterm.name]
  · refine List.forall_mem_map.mpr fun used hused => ?_
    have hused := Name.mem_sorted.mp (List.mem_filter.mp hused).1
    have hused := Expr.allNames_iff.mp hbody used (List.mem_append_right _ hused)
    simp [Finding.AllNames, Complaint.phrase, hused, hterm.name]
  · split
    · rename_i sort hsort
      split
      · exact List.forall_mem_nil _
      · simp [Finding.AllNames, Complaint.phrase, hchecked.2 sort hsort, hterm.name, hresult]
    · exact List.forall_mem_nil _

omit hs in
theorem checkResult_names {term : TermDecl} (hterm : term.AllNames P) :
    ∀ f ∈ sig.checkResult term, f.AllNames P := by
  obtain ⟨hresult, hdeps⟩ := List.forall_mem_cons.mp hterm.result
  refine List.forall_mem_append.mpr ⟨?_, ?_⟩
  · split
    · simp [Finding.AllNames, Complaint.phrase, hresult]
    · split
      · simp [Finding.AllNames, Complaint.phrase, hresult]
      · exact List.forall_mem_nil _
  · exact checkDeps_names hdeps _ (Phrase.allNames_ofString _) "result"

theorem checkTerm_names (earlier : List Name) {key : Name} (hkey : P key) {term : TermDecl}
    (hterm : term.AllNames P) : ∀ f ∈ sig.checkTerm earlier key term, f.AllNames P := by
  simp only [checkTerm, List.forall_mem_append]
  refine ⟨⟨⟨⟨?_, ?_⟩, ?_⟩, ?_⟩, ?_⟩
  · split
    · exact List.forall_mem_nil _
    · simp [Finding.AllNames, Complaint.phrase, hkey, hterm.name]
  · exact checkBinders_names "binders" hterm.binders
  · exact checkLocalNames_names hterm.binders (List.forall_mem_nil _)
  · exact checkResult_names hterm
  · split
    · rename_i body hbody
      exact checkBody_names hs (scope_allNames hterm.binders) hterm earlier (hterm.of_body hbody)
    · exact List.forall_mem_nil _

theorem checkStatement_names {scope : Registry Name Binder} (hscope : ScopeAllNames P scope)
    (path : String) {e : Expr} (he : e.AllNames P) :
    ∀ f ∈ sig.checkStatement scope path e, f.AllNames P := by
  have hchecked := checkExpr_names hs hscope path e he
  refine List.forall_mem_append.mpr ⟨hchecked.1, ?_⟩
  split
  · rename_i sort decl hsort
    obtain ⟨found, hfound, hdecl⟩ := Option.bind_eq_some_iff.mp hsort
    obtain ⟨_, _, he⟩ := Option.map_eq_some_iff.mp hdecl
    obtain ⟨rfl, rfl⟩ := Prod.mk.inj he
    split
    · exact List.forall_mem_nil _
    · simp [Finding.AllNames, Complaint.phrase, hchecked.2 _ hfound]
  · exact List.forall_mem_nil _

theorem checkHypothesesFrom_names {scope : Registry Name Binder} (hscope : ScopeAllNames P scope)
    (i : Nat) {hyps : List Hypothesis} (h : ∀ x ∈ hyps, x.formula.AllNames P) :
    ∀ f ∈ sig.checkHypothesesFrom scope i hyps, f.AllNames P := by
  induction hyps generalizing i with
  | nil => exact List.forall_mem_nil _
  | cons x hyps ih =>
    obtain ⟨hx, hhyps⟩ := List.forall_mem_cons.mp h
    exact List.forall_mem_append.mpr ⟨checkStatement_names hs hscope _ hx, ih (i + 1) hhyps⟩

theorem checkAssertion_names (hP : Name.IsTextual P) {a : Assertion} (ha : a.AllNames P) :
    ∀ f ∈ sig.checkAssertion a, f.AllNames P := by
  have hscope := scope_allNames ha.binders
  simp only [checkAssertion, List.forall_mem_append]
  refine ⟨⟨⟨⟨?_, ?_⟩, ?_⟩, ?_⟩, Assertion.checkUnused_names ha⟩
  · exact checkBinders_names "binders" ha.binders
  · exact checkLocalNames_names ha.binders (ha.hypothesisLabels hP)
  · exact checkHypothesesFrom_names hs hscope 0 ha.hypothesis
  · exact checkStatement_names hs hscope "conclusion" ha.conclusion

/-! All declarations. -/

theorem checkTermsFrom_names (earlier : List Name) {entries : List (Name × TermDecl)}
    (h : ∀ e ∈ entries, P e.1 ∧ e.2.AllNames P) :
    ∀ d ∈ sig.checkTermsFrom earlier entries, d.AllNames P := by
  induction entries generalizing earlier with
  | nil => exact List.forall_mem_nil _
  | cons e entries ih =>
    obtain ⟨⟨hkey, hterm⟩, hentries⟩ := List.forall_mem_cons.mp h
    refine List.forall_mem_append.mpr ⟨List.forall_mem_map.mpr fun f hf => ⟨?_, ?_⟩, ih _ hentries⟩
    · intro n hn
      cases hn
      exact hkey
    · exact checkTerm_names hs earlier hkey hterm f hf

omit hs in
theorem checkNotation_names {token : Name} (htoken : P token) {n : Notation} (hterm : P n.term) :
    ∀ f ∈ sig.checkNotation token n, f.AllNames P := by
  unfold checkNotation
  dsimp only
  split
  · simp [Finding.AllNames, Complaint.phrase, htoken, hterm]
  · split
    · exact List.forall_mem_nil _
    · simp [Finding.AllNames, Complaint.phrase, htoken, hterm]

theorem check_names : ∀ d ∈ sig.check, d.AllNames P := by
  simp only [check, List.forall_mem_append, List.forall_mem_map]
  refine ⟨⟨fun f hf => Finding.AllNames.unowned ?_, ?_⟩, fun f hf => Finding.AllNames.unowned ?_⟩
  · obtain ⟨⟨key, decl⟩, hentry, rfl⟩ := List.mem_map.mp hf
    obtain ⟨hkey, hname⟩ :=
      hs.sorts key decl (Registry.get?_eq_some_iff.mpr (List.mem_filter.mp hentry).1)
    simp [Finding.AllNames, Complaint.phrase, hkey, hname]
  · refine checkTermsFrom_names hs [] fun e he => ?_
    exact hs.terms e.1 e.2 (Registry.get?_eq_some_iff.mpr he)
  · obtain ⟨⟨token, n⟩, hentry, hf⟩ := List.mem_flatMap.mp hf
    obtain ⟨htoken, hterm, _⟩ := hs.notations token n (Registry.get?_eq_some_iff.mpr hentry)
    exact checkNotation_names htoken hterm f hf

end Declarations

end Signature

namespace Theory.AllNames

variable {t : Theory} (h : t.AllNames P) (hP : Name.IsTextual P)
include h hP

theorem findings : ∀ d ∈ t.findings, d.AllNames P := by
  have hnames : ∀ n ∈ t.signature.sorts.keys ++ t.signature.terms.keys ++
      t.assertions.map Assertion.label, P n :=
    List.forall_mem_append.mpr ⟨h.signature.keys, h.labels⟩
  simp only [Theory.findings, List.forall_mem_append]
  refine ⟨⟨⟨?_, Signature.check_names h.signature⟩, ?_⟩, ?_⟩
  · refine List.forall_mem_map.mpr fun f hf => Finding.AllNames.unowned ?_
    obtain ⟨n, hn, rfl⟩ := List.mem_map.mp hf
    simp [Finding.AllNames, Complaint.phrase,
      hnames n (Name.mem_sorted.mp (List.mem_filter.mp hn).1)]
  · refine List.forall_mem_map.mpr fun label hlabel => ?_
    have hlabel := h.labels label (List.mem_eraseDups.mp (List.mem_filter.mp hlabel).1)
    refine ⟨fun n hn => ?_, by simp [Finding.AllNames, Complaint.phrase, hlabel]⟩
    cases hn
    exact hlabel
  · intro d hd
    obtain ⟨a, ha, hd⟩ := List.mem_flatMap.mp hd
    obtain ⟨f, hf, rfl⟩ := List.mem_map.mp hd
    have ha := h.assertions a ha
    refine ⟨fun n hn => ?_, Signature.checkAssertion_names h.signature hP ha f hf⟩
    cases hn
    exact ha.label

/-- The names in the report on a theory. -/
theorem checkReport : ∀ n ∈ t.checkReport.names, n = t.name ∨ P n := by
  have hlines (title : String) {ds : List Diagnostic} (hds : ds ⊆ t.diagnostics) :
      ∀ line ∈ .ofString title :: ds.map Diagnostic.line, line.AllNames P := by
    refine List.forall_mem_cons.mpr ⟨Phrase.allNames_ofString _, ?_⟩
    refine List.forall_mem_map.mpr fun d hd => ?_
    exact (h.findings hP d (List.mem_mergeSort.mp (hds hd))).line
  intro n hn
  obtain ⟨line, hline, hn⟩ := List.mem_flatMap.mp hn
  simp only [List.cons_append, List.mem_cons, List.mem_append, List.not_mem_nil, or_false] at hline
  rcases hline with rfl | (hline | hline) | rfl
  · exact .inl (List.mem_singleton.mp hn)
  · split at hline
    · obtain rfl := List.mem_singleton.mp hline
      cases hn
    · exact .inr (hlines _ List.filter_sublist.subset line hline n hn)
  · split at hline
    · cases hline
    · exact .inr (hlines _ List.filter_sublist.subset line hline n hn)
  · cases hn

end Theory.AllNames

end Deductive
