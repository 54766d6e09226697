import Deductive.Proofs.Rendering
import Deductive.Theory.OfJson
import Deductive.Theory.ToJson

/-!
Theories that no text was read for, as those from JSON, can be written and read back all the same,
if their names, tokens and precedences can be told apart in a text. The rest of what is asked of
them is found by the checks.
-/
namespace Deductive

/-- All binders of terms and assertions. -/
def Theory.binders (t : Theory) : List Binder :=
  t.signature.terms.values.flatMap TermDecl.binders ++ t.assertions.flatMap Assertion.binders

/-- What a text can tell of a notation: the token is written without the key that it stands under. -/
structure Notation.Portable (key : Name) (n : Notation) : Prop where
  key : n.token = key
  token : ∀ s, n.token = .text s → ∀ c ∈ s.toList, Text.isBlank c = false ∧ c ≠ '$'
  prec : 0 ≤ n.prec ∧ n.prec ≤ maxPrec

structure Signature.Portable (sig : Signature) : Prop where
  sorts : ∀ decl ∈ sig.sorts.values, decl.name.IsWord
  terms : ∀ term ∈ sig.terms.values, term.name.IsWord
  notations : ∀ key n, sig.notations.get? key = some n → n.Portable key
  delimiters : sig.delimiters.IsSpelled
  parted : ∀ f g m n, sig.writtenAs? f = some m → sig.writtenAs? g = some n →
    m.fixity = .leftAssoc → n.fixity ≠ .leftAssoc → m.prec ≠ n.prec

/-- What a text can tell of a theory. Whether a formula means a term, a notation or a variable by a
token depends on the whole theory, as does where a token ends. -/
structure Theory.Portable (t : Theory) : Prop where
  signature : t.signature.Portable
  labels : ∀ a ∈ t.assertions, a.label.IsWord
  binders : ∀ b ∈ t.binders, b.name.IsWord ∧ (b.bound.holds = true → b.deps = [])
  hypotheses : ∀ a ∈ t.assertions, ∃ named arrows, a.hypotheses = named ++ arrows ∧
    (∀ h ∈ named, ∃ n, h.name = some n ∧ n.IsWord) ∧ ∀ h ∈ arrows, h.name = none
  symbols : ∀ x, x ∈ t.signature.notations.keys ∨ x ∈ t.signature.terms.keys ∨
    x ∈ t.binders.map Binder.name → t.signature.IsSymbol x
  termsNotations : ∀ x ∈ t.signature.terms.keys, x ∉ t.signature.notations.keys
  bindersTerms : ∀ x ∈ t.binders.map Binder.name, x ∉ t.signature.terms.keys
  bindersNotations : ∀ x ∈ t.binders.map Binder.name, x ∉ t.signature.notations.keys

/-- What says yes or no in a theory is a truth value, not only equal to one as a number can be. -/
structure Theory.HasTruthValues (t : Theory) : Prop where
  bound : ∀ b ∈ t.binders, ∃ v, b.bound = .bool v
  isDef : ∀ term ∈ t.signature.terms.values, ∃ v, term.isDef = .bool v

/-! Words of declarations are also words that a formula can have for a variable. -/

theorem isIdentifierStart_of_isLetter {c : Char} (h : isLetter c = true) :
    Text.isIdentifierStart c = true := by
  simp only [isLetter, Bool.or_eq_true, Bool.and_eq_true, decide_eq_true_eq] at h
  have hspan (lo hi : Nat) (hm : (lo, hi) ∈ Text.identifierStarts) (hlo : lo ≤ c.toNat)
      (hhi : c.toNat ≤ hi) : Text.isIdentifierStart c = true :=
    List.any_eq_true.mpr ⟨(lo, hi), hm, by simp [Text.Span.contains, hlo, hhi]⟩
  rcases h with (⟨hlo, hhi⟩ | ⟨hlo, hhi⟩) | rfl
  · exact hspan 65 90 List.mem_cons_self hlo hhi
  · exact hspan 97 122 (List.mem_cons_of_mem _ (List.mem_cons_of_mem _ List.mem_cons_self)) hlo hhi
  · exact hspan 95 95 (List.mem_cons_of_mem _ List.mem_cons_self) (by decide) (by decide)

theorem isIdentifierPart_of_isWordChar {c : Char} (h : isWordChar c = true) :
    Text.isIdentifierPart c = true := by
  rw [isWordChar, Bool.or_eq_true] at h
  rw [Text.isIdentifierPart, Bool.or_eq_true]
  rcases h with h | h
  · exact .inl (isIdentifierStart_of_isLetter h)
  · simp only [isDigit, Bool.and_eq_true, decide_eq_true_eq] at h
    refine .inr (List.any_eq_true.mpr ⟨(48, 57), List.mem_cons_self, ?_⟩)
    simp only [Text.Span.contains, Bool.and_eq_true, decide_eq_true_eq]
    exact h

theorem IsWord.isIdentifier {s : String} (h : IsWord s) : Text.isIdentifier s = true := by
  obtain ⟨c, w, hs, hc, hw⟩ := h
  rw [Text.isIdentifier, hs]
  dsimp only
  rw [Bool.and_eq_true, List.all_eq_true]
  exact ⟨isIdentifierStart_of_isLetter hc, fun c hc => isIdentifierPart_of_isWordChar (hw c hc)⟩

namespace Theory

variable {t : Theory}

theorem mem_binders_of_term {term : TermDecl} (h : term ∈ t.signature.terms.values) {b : Binder}
    (hb : b ∈ term.binders) : b ∈ t.binders :=
  List.mem_append_left _ (List.mem_flatMap.mpr ⟨term, h, hb⟩)

theorem mem_binders_of_assertion {a : Assertion} (h : a ∈ t.assertions) {b : Binder}
    (hb : b ∈ a.binders) : b ∈ t.binders :=
  List.mem_append_right _ (List.mem_flatMap.mpr ⟨a, h, hb⟩)

namespace Portable

/-! What such a theory declares can be written. Sorts and dependencies are names that are declared
elsewhere, and those are words. -/

theorem sort_isWord (hp : t.Portable) (hl : t.Lawful) {name : Name} {decl : SortDecl}
    (h : t.signature.sorts.get? name = some decl) : name.IsWord := by
  rw [← hl.signature.sortKeys name decl h]
  exact hp.signature.sorts decl (Registry.mem_values_iff.mpr ⟨name, h⟩)

theorem binder_isSpelled (hp : t.Portable) (hl : t.Lawful) (hv : t.HasTruthValues)
    {binders : List Binder} (hb : t.signature.LawfulBinders binders)
    (hmem : ∀ b ∈ binders, b ∈ t.binders) : ∀ b ∈ binders, b.IsSpelled := by
  intro b hbinder
  obtain ⟨hname, hdeps⟩ := hp.binders b (hmem b hbinder)
  obtain ⟨bound, hbound⟩ := hv.bound b (hmem b hbinder)
  obtain ⟨decl, hsort, _⟩ := hb.sorts b hbinder
  rw [hbound, Truth.holds_bool] at hdeps
  refine ⟨hname, hp.sort_isWord hl hsort, fun d hd => ?_, bound, hbound, hdeps⟩
  obtain ⟨earlier, later, rfl⟩ := List.append_of_mem hbinder
  obtain ⟨c, hc, _, rfl⟩ := hb.deps earlier b later rfl d hd
  exact (hp.binders c (hmem c (List.mem_append_left _ hc))).1

theorem term_isSpelled (hp : t.Portable) (hl : t.Lawful) (hv : t.HasTruthValues) {name : Name}
    {term : TermDecl} (h : t.signature.terms.get? name = some term) : term.IsSpelled := by
  have hvalue : term ∈ t.signature.terms.values := Registry.mem_values_iff.mpr ⟨name, h⟩
  obtain ⟨earlier, hlawful⟩ := hl.signature.term h
  obtain ⟨decl, hresult, _⟩ := hlawful.result
  obtain ⟨isDef, hdef⟩ := hv.isDef term hvalue
  refine ⟨hp.signature.terms term hvalue,
    hp.binder_isSpelled hl hv hlawful.binders fun _ => mem_binders_of_term hvalue,
    hp.sort_isWord hl hresult, fun d hd => ?_, isDef, hdef, ?_⟩
  · obtain ⟨b, hb, _, rfl⟩ := hlawful.resultDeps d hd
    exact (hp.binders b (mem_binders_of_term hvalue hb)).1
  · rintro rfl
    cases hbody : term.body with
    | none => rfl
    | some body =>
      have hholds := (hlawful.body body hbody).isDef
      rw [hdef] at hholds
      cases hholds

theorem notation_isSpelled (hp : t.Portable) (hl : t.Lawful) {key : Name} {n : Notation}
    (h : t.signature.notations.get? key = some n) : n.IsSpelled := by
  obtain ⟨hkey, hsolid, hprec⟩ := hp.signature.notations key n h
  obtain ⟨s, hs, htoken, _⟩ := hp.symbols key (.inl (Registry.mem_keys h))
  obtain ⟨term, hterm, _⟩ := hl.signature.notations key n h
  have hword : n.term.IsWord := by
    rw [← hl.signature.termKeys _ term hterm]
    exact hp.signature.terms term (Registry.mem_values_iff.mpr ⟨_, hterm⟩)
  rw [← hkey] at hs
  exact ⟨hword, ⟨s, hs, htoken.nonempty, hsolid s hs⟩, hprec⟩

theorem isSpelled (hp : t.Portable) (hl : t.Lawful) (hv : t.HasTruthValues) : t.IsSpelled where
  signature := {
    sorts := fun name decl h => ⟨hl.signature.sortKeys name decl h, hp.sort_isWord hl h⟩
    terms := fun name term h => ⟨hl.signature.termKeys name term h, hp.term_isSpelled hl hv h⟩
    notations := fun key n h => ⟨(hp.signature.notations key n h).key, hp.notation_isSpelled hl h⟩
    delimiters := hp.signature.delimiters }
  assertions := fun a ha => ⟨hp.labels a ha,
    hp.binder_isSpelled hl hv (hl.assertions a ha).binders fun _ => mem_binders_of_assertion ha,
    hp.hypotheses a ha⟩

/-! Every formula is legible in the notations of the whole theory. -/

theorem printable_signature (hp : t.Portable) (hl : t.Lawful) : t.signature.Printable where
  notations := by
    intro key n h
    obtain ⟨hkey, _, hprec⟩ := hp.signature.notations key n h
    exact ⟨hkey, hprec.1, hp.symbols key (.inl (Registry.mem_keys h)),
      hl.signature.notations key n h⟩
  terms := by
    intro name term h
    have hname := Registry.mem_keys h
    exact ⟨hl.signature.termKeys name term h, hp.symbols name (.inr (.inl hname)),
      Registry.get?_eq_none_iff.mpr (hp.termsNotations name hname)⟩
  delimiters := hp.signature.delimiters.areCharacters
  parted := hp.signature.parted

theorem printable_var (hp : t.Portable) {b : Binder} (hb : b ∈ t.binders) :
    (Expr.var b.name).Printable t.signature := by
  have hname : b.name ∈ t.binders.map Binder.name := List.mem_map_of_mem hb
  have hterm := Registry.get?_eq_none_iff.mpr (hp.bindersTerms _ hname)
  have hnotation := Registry.get?_eq_none_iff.mpr (hp.bindersNotations _ hname)
  obtain ⟨x, hx, htoken, _⟩ := hp.symbols _ (.inr (.inr hname))
  obtain ⟨x', hx', hword⟩ := (hp.binders b hb).1
  rw [hx] at hterm hnotation hx' ⊢
  cases hx'
  exact .var hword.isIdentifier hterm hnotation htoken

/-- What has a sort over binders is made of declared terms and the names of the binders. -/
theorem printable_of_hasSort (hp : t.Portable) {binders : List Binder} {e : Expr} {sort : SortName}
    (hmem : ∀ b ∈ binders, b ∈ t.binders) (h : HasSort t.signature (Binder.scope binders) e sort) :
    e.Printable t.signature := by
  induction h with
  | var found =>
    obtain ⟨hb, rfl⟩ := Binder.of_get?_scope found
    exact hp.printable_var (hmem _ hb)
  | app declared arity _ _ ih =>
    refine .app declared arity fun arg ha => ?_
    obtain ⟨param, hm⟩ := mem_zip_of_mem_left arity ha
    exact ih arg param hm

theorem printable_formulas (hp : t.Portable) (hl : t.Lawful) :
    ∀ e ∈ t.formulas, e.Printable t.signature := by
  intro e he
  rcases List.mem_append.mp he with he | he
  · obtain ⟨term, hterm, he⟩ := List.mem_flatMap.mp he
    obtain ⟨name, hname⟩ := Registry.mem_values_iff.mp hterm
    obtain ⟨earlier, hlawful⟩ := hl.signature.term hname
    have hbody := hlawful.body e (Option.mem_toList.mp he)
    exact hp.printable_of_hasSort (fun _ => mem_binders_of_term hterm) hbody.sort
  · obtain ⟨a, ha, he⟩ := List.mem_flatMap.mp he
    obtain ⟨_, _, hsort, _⟩ := statement_of_formula hl ha he
    exact hp.printable_of_hasSort (fun _ => mem_binders_of_assertion ha) hsort

theorem isLegible (hp : t.Portable) (hl : t.Lawful)
    (hnesting : ∀ e ∈ t.formulas, e.nesting t.signature 0 ≤ nestingLimit) : t.IsLegible where
  parentheses := (hp.printable_signature hl).plainParentheses
  formulas := fun e he => (hp.printable_formulas hl e he).legible (hp.printable_signature hl)
  nesting := hnesting

end Portable

/-- A theory of any origin is read back from the text that is written of it, if it is portable, no
formula in it is too deep, and what says yes or no in it is a truth value. Its sorts, terms and
assertions come back in their order. -/
theorem parse_write_portable {name : String} (hname : t.name = name) (hline : '\n' ∉ name.toList)
    (hwell : t.isWellFormed = true) (hp : t.Portable) (hv : t.HasTruthValues)
    (hnesting : ∀ e ∈ t.formulas, e.nesting t.signature 0 ≤ nestingLimit) :
    ∃ t', (parse t.write name).2 = .ok t' ∧ t'.sameContent t = true ∧
      t'.signature.sorts = t.signature.sorts ∧ t'.signature.terms = t.signature.terms ∧
      t'.assertions = t.assertions := by
  have hl := lawful_of_isWellFormed hwell
  have hspelled := hp.isSpelled hl hv
  refine ⟨t.regrouped, ?_, regrouped_sameContent hspelled hl, regrouped_sorts hspelled,
    regrouped_terms hspelled, rfl⟩
  rw [parse_write_eq hname hline hspelled hl (hp.isLegible hl hnesting)]

end Theory

/-! A theory with a flag that JSON may hold anything for. A text says no more of the flag than whether
it counts as yes or no. -/
namespace Flagged

private def wff (name : Name) : Binder := ⟨name, "wff", false, []⟩

def terms (flag : Truth) : List TermDecl :=
  [⟨"im", [wff "a", wff "b"], "wff", [], false, none⟩,
    ⟨"not", [⟨"a", "wff", flag, []⟩], "wff", [], false, none⟩]

/-- Implications and negations, where the flag says of negations whether they bind their variable. -/
def theory (flag : Truth) : Theory :=
  { name := "flags"
    signature := .ofDecls [⟨"wff", ⟨false, false, true, false⟩⟩] (terms flag)
      Implication.notations Implication.signature.delimiters
    assertions :=
      [⟨.assumed, "mp", [wff "p", wff "q"],
        [⟨some "major", .app "im" [.var "p", .var "q"]⟩, ⟨none, .var "p"⟩], .var "q"⟩] }

def words : List Name := ["im", "not"]

def tokens : List Name := ["->", "~"]

/-- The variables of the terms and of the axiom. -/
def letters : List Name := ["a", "b", "a", "p", "q"]

theorem signature_portable (flag : Truth) : (theory flag).signature.Portable where
  sorts := List.forall_mem_singleton.mpr (.of_chars rfl (by decide) (by decide))
  terms := List.forall_mem_cons.mpr ⟨.of_chars rfl (by decide) (by decide),
    List.forall_mem_singleton.mpr (.of_chars rfl (by decide) (by decide))⟩
  notations := by
    have hsolid {s : String} (h : s.toList.all (fun c => !Text.isBlank c && c != '$') = true) :
        ∀ c ∈ s.toList, Text.isBlank c = false ∧ c ≠ '$' := by
      simpa using h
    intro key n h
    have hmem := Registry.mem_of_get?_ofList h
    simp only [Implication.notations, List.map_cons, List.map_nil, List.mem_cons, List.not_mem_nil,
      or_false, Prod.mk.injEq] at hmem
    rcases hmem with ⟨rfl, rfl⟩ | ⟨rfl, rfl⟩
    · refine ⟨rfl, fun s hs => ?_, by decide⟩
      cases hs
      exact hsolid (by decide)
    · refine ⟨rfl, fun s hs => ?_, by decide⟩
      cases hs
      exact hsolid (by decide)
  delimiters := by
    refine ⟨⟨rfl, rfl⟩, fun s h => ?_⟩
    rcases Implication.mem_delimiters h with rfl | rfl | rfl
    · exact ⟨'(', rfl, by decide, by decide⟩
    · exact ⟨'~', rfl, by decide, by decide⟩
    · exact ⟨')', rfl, by decide, by decide⟩
  parted := Implication.signature_printable.parted

theorem isSymbol : ∀ x ∈ tokens ++ (words ++ letters), Implication.signature.IsSymbol x := by
  simp only [tokens, words, letters, List.cons_append, List.nil_append, List.forall_mem_cons]
  refine ⟨?_, .of_chars (by decide) (by decide) (.inl ⟨'~', rfl, by decide⟩) (by decide), ?_, ?_, ?_,
    ?_, ?_, ?_, ?_, nofun⟩
  all_goals exact .of_chars (by decide) (by decide) (.inr (by decide)) (by decide)

theorem letters_isWord : ∀ x ∈ letters, x.IsWord := by
  simp only [letters, List.forall_mem_cons]
  refine ⟨?_, ?_, ?_, ?_, ?_, nofun⟩
  all_goals exact .of_chars rfl (by decide) (by decide)

theorem theory_portable (flag : Truth) : (theory flag).Portable := by
  have hterms : (theory flag).signature.terms.keys = words := rfl
  have hnotations : (theory flag).signature.notations.keys = tokens := rfl
  have hnames : (theory flag).binders.map Binder.name = letters := rfl
  have hdeps : (theory flag).binders.map Binder.deps = List.replicate 5 [] := rfl
  refine ⟨signature_portable flag, ?_, ?_, ?_, ?_, ?_, ?_, ?_⟩
  · exact List.forall_mem_singleton.mpr (.of_chars rfl (by decide) (by decide))
  · intro b hb
    refine ⟨?_, fun _ => List.eq_of_mem_replicate (hdeps ▸ List.mem_map_of_mem hb)⟩
    exact letters_isWord _ (hnames ▸ List.mem_map_of_mem hb)
  · refine List.forall_mem_singleton.mpr ⟨[⟨some "major", .app "im" [.var "p", .var "q"]⟩],
      [⟨none, .var "p"⟩], rfl, ?_, List.forall_mem_singleton.mpr rfl⟩
    exact List.forall_mem_singleton.mpr ⟨"major", rfl, .of_chars rfl (by decide) (by decide)⟩
  · rw [hterms, hnotations, hnames]
    exact fun x hx => isSymbol x (List.mem_append.mpr (hx.imp_right List.mem_append.mpr))
  · rw [hterms, hnotations]
    decide
  · rw [hnames, hterms]
    decide
  · rw [hnames, hnotations]
    decide

theorem theory_nesting (flag : Truth) :
    ∀ e ∈ (theory flag).formulas, e.nesting (theory flag).signature 0 ≤ nestingLimit := by
  have hformulas : (theory flag).formulas = [.app "im" [.var "p", .var "q"], .var "p", .var "q"] := rfl
  have himp : (Expr.app "im" [.var "p", .var "q"]).nesting (theory flag).signature 0 = 2 := rfl
  have hvar (x : Name) : (Expr.var x).nesting (theory flag).signature 0 = 1 := rfl
  rw [hformulas, List.forall_mem_cons, List.forall_mem_cons, List.forall_mem_singleton, himp, hvar,
    hvar]
  decide

theorem theory_isWellFormed : (theory false).isWellFormed = true := by
  rw [Theory.isWellFormed, Theory.findings, Theory.checkNames_eq_nil (by decide)]
  decide +kernel

theorem theory_hasTruthValues : (theory false).HasTruthValues where
  bound := by
    have hbound : (theory false).binders.map Binder.bound = List.replicate 5 (.bool false) := rfl
    exact fun b hb => ⟨false, List.eq_of_mem_replicate (hbound ▸ List.mem_map_of_mem hb)⟩
  isDef := by
    have hdef : (theory false).signature.terms.values.map TermDecl.isDef =
        List.replicate 2 (.bool false) := rfl
    exact fun term hterm => ⟨false, List.eq_of_mem_replicate (hdef ▸ List.mem_map_of_mem hterm)⟩

theorem false_flag_read_back :
    (theory false).name = "flags" ∧ '\n' ∉ "flags".toList ∧ (theory false).isWellFormed = true ∧
      (theory false).Portable ∧ (theory false).HasTruthValues ∧
      (∀ e ∈ (theory false).formulas, e.nesting (theory false).signature 0 ≤ nestingLimit) ∧
      ∃ t', (Theory.parse (theory false).write "flags").2 = .ok t' ∧
        t'.sameContent (theory false) = true ∧
        t'.signature.sorts = (theory false).signature.sorts ∧
        t'.signature.terms = (theory false).signature.terms ∧
        t'.assertions = (theory false).assertions := by
  have hline : '\n' ∉ "flags".toList := by decide
  exact ⟨rfl, hline, theory_isWellFormed, theory_portable false, theory_hasTruthValues,
    theory_nesting false, Theory.parse_write_portable rfl hline theory_isWellFormed
      (theory_portable false) theory_hasTruthValues (theory_nesting false)⟩

/-- The flag is null, which counts as no. -/
def null : Truth := .value .null rfl

theorem theory_null_isWellFormed : (theory null).isWellFormed = true := by
  rw [Theory.isWellFormed, Theory.findings, Theory.checkNames_eq_nil (by decide)]
  decide +kernel

/-- The theory with null can come from JSON, but what is read back has a truth value instead, and
null is not equal to one. -/
theorem null_flag_lost :
    Theory.ofJson (theory null).toJson = .ok (theory null) ∧
      (theory null).name = "flags" ∧ '\n' ∉ "flags".toList ∧ (theory null).isWellFormed = true ∧
      (theory null).Portable ∧
      (∀ e ∈ (theory null).formulas, e.nesting (theory null).signature 0 ≤ nestingLimit) ∧
      (Theory.parse (theory null).write "flags").2 = .ok (theory false) ∧
      (theory false).sameContent (theory null) = false :=
  ⟨eq_ok_of_toOption (by decide +kernel), rfl, by decide, theory_null_isWellFormed,
    theory_portable null, theory_nesting null, eq_ok_of_toOption (by decide +kernel),
    by decide +kernel⟩

end Flagged

end Deductive
