import Deductive.Proofs.Growing
import Deductive.Proofs.Rereading
import Deductive.Proofs.Results

/-!
The text of a theory is read as the theory. It declares the delimiters and the sorts, then each term
with its notations after it, then the assertions, in whatever order a text declared them from which the
theory was read; so what is read may differ in the order of its notations. Where the formulas are
legible in the notations of the whole theory, nothing else differs.
-/
namespace Deductive

/-! Texts of legible formulas. -/

theorem dollar_not_mem_identifier {x : String} (h : Text.isIdentifier x = true) :
    '$' ∉ x.toList := by
  intro hmem
  unfold Text.isIdentifier at h
  split at h
  · cases h
  · rename_i c cs hx
    rw [Bool.and_eq_true, List.all_eq_true] at h
    rw [hx] at hmem
    rcases List.mem_cons.mp hmem with rfl | hmem
    · exact absurd h.1 (by decide +kernel)
    · exact absurd (h.2 _ hmem) (by decide +kernel)

theorem IsWord.dollar_not_mem {s : String} (h : IsWord s) : '$' ∉ s.toList := by
  obtain ⟨c, w, hs, hc, hw⟩ := h
  rw [hs]
  intro hmem
  rcases List.mem_cons.mp hmem with rfl | hmem
  · exact absurd hc (by decide)
  · exact absurd (hw _ hmem) (by decide)

/-- No legible formula ends the math string that it is written in. -/
theorem Expr.Legible.dollar_not_mem {sig : Signature} {e : Expr} (hs : sig.IsSpelled)
    (h : e.Legible sig) : '$' ∉ (e.format sig).toList := by
  intro hmem
  have htokens : ∀ t ∈ e.tokens sig 0, '$' ∉ t.toList := by
    apply h.forall_tokens (P := fun t => '$' ∉ t.toList) (by decide) (by decide)
    · exact fun x _ hx => dollar_not_mem_identifier hx
    · intro f term _ hterm
      obtain ⟨hname, hspelled⟩ := hs.terms _ _ hterm
      obtain ⟨s, hf, hs⟩ := hspelled.name
      rw [hname] at hf
      cases hf
      exact hs.dollar_not_mem
    · intro n s hn hc
      obtain ⟨hname, hspelled⟩ := hs.notations _ _ hn.notated
      obtain ⟨s', hs', _, hsolid⟩ := hspelled.token
      rw [hname] at hs'
      cases hs'
      exact (hsolid _ hc).2 rfl
  rcases mem_joinMath hmem with hspace | ⟨t, ht, hc⟩
  · cases hspace
  · exact htokens t ht hc

theorem Delimiters.IsSpelled.areCharacters {d : Delimiters} (h : d.IsSpelled) : d.AreCharacters := by
  intro s hs
  obtain ⟨c, hc, _⟩ := h.members s hs
  exact ⟨c, hc⟩

/-- A formula that is legible in the whole signature is read back as soon as its terms are
declared. -/
theorem Signature.Agrees.readsBack {small large : Signature} {known : List Name} {e : Expr}
    (hs : small.Agrees large known) (hd : large.delimiters.IsSpelled)
    (hp : Grammar.PlainParentheses large) (he : e.Legible large)
    (hdepth : e.nesting large 0 ≤ nestingLimit) (hknown : ∀ f ∈ e.terms, f ∈ known) :
    small.ReadsBack large e := by
  intro start
  have hplain : Grammar.PlainParentheses small :=
    ⟨hs.notations.get?_eq_none hp.opening, hs.notations.get?_eq_none hp.closing,
      hs.terms.get?_eq_none hp.openingTerm, hs.terms.get?_eq_none hp.closingTerm⟩
  have hblank : ∀ c ∈ [' '], Text.isBlank c = true := by simp; decide
  have htext : (" " ++ e.format large ++ " ").toList =
      [' '] ++ ((e.format small).toList ++ [' ']) := by
    simp [Expr.format_eq hs hknown]
  rw [← Expr.nesting_eq hs hknown 0] at hdepth
  have hchars : small.delimiters.AreCharacters := hs.delimiters ▸ hd.areCharacters
  exact ((he.agrees hs hknown).parseMath hplain hchars start htext hblank hblank).1 hdepth

/-! Declarations are read one after the other. -/

namespace Draft

/-- Under what is declared before them, the declarations are read from the tokens that they are written
with, and make one draft out of the other. -/
inductive Reads (written : Signature) : Draft → List Declaration → Draft → Prop
  | done (d : Draft) : Reads written d [] d
  | add {d d' : Draft} {x : Declaration} {xs : List Declaration} (spelled : x.IsSpelled)
      (readable : x.IsReadable d.signature written) (others : Reads written (d.add x) xs d') :
      Reads written d (x :: xs) d'

namespace Reads

variable {written : Signature} {d d' d'' : Draft} {x : Declaration} {xs ys : List Declaration}

theorem append (h : Reads written d xs d') (h' : Reads written d' ys d'') :
    Reads written d (xs ++ ys) d'' := by
  induction h with
  | done => exact h'
  | add spelled readable _ ih => exact .add spelled readable (ih h')

theorem spelled (h : Reads written d xs d') : ∀ x ∈ xs, x.IsSpelled := by
  induction h with
  | done => nofun
  | add spelled _ _ ih => exact List.forall_mem_cons.mpr ⟨spelled, ih⟩

theorem run (h : Reads written d xs d') {n : Nat} (hn : xs.length ≤ n) {ts : List Token}
    (hts : ts.map Token.lexeme = xs.flatMap (Declaration.lexemes written)) (stop : Position) :
    TheoryParser.run n ⟨d, ⟨ts, stop⟩⟩ = (xs, .ok d') := by
  induction h generalizing n ts with
  | done d =>
    obtain rfl := List.map_eq_nil_iff.mp hts
    cases n <;> rfl
  | @add d d' x xs spelled readable _ ih =>
    obtain ⟨n, rfl⟩ := Nat.exists_eq_succ_of_ne_zero (Nat.ne_zero_of_lt hn)
    rw [List.flatMap_cons] at hts
    obtain ⟨ts₁, ts₂, rfl, hx, hxs⟩ := List.map_eq_append_iff.mp hts
    obtain ⟨x', rfl, hread⟩ :=
      Declaration.reads_statement spelled readable ts₁ ts₂ stop hx rfl
    have hstatement : TheoryParser.statement ⟨d, ⟨ts₁ ++ ts₂, stop⟩⟩ =
        .ok x' ⟨d.add x', ⟨ts₂, stop⟩⟩ :=
      TheoryParser.statement_eq_ok_iff.mpr ⟨hread, rfl⟩
    have hsome : ts₁ ≠ [] := by
      rintro rfl
      exact absurd hx.symm (Declaration.lexemes_ne_nil written x')
    have hend : TokenStream.isAtEnd ⟨ts₁ ++ ts₂, stop⟩ = false := by
      simp [TokenStream.isAtEnd, hsome]
    rw [TheoryParser.run, if_neg (by simp [hend]), hstatement]
    dsimp only
    rw [ih (Nat.le_of_succ_le_succ hn) hxs]

theorem one (spelled : x.IsSpelled) (readable : x.IsReadable d.signature written) :
    Reads written d [x] (d.add x) :=
  .add spelled readable (.done _)

/-- Items are declared one after the other; the draft depends on those that are declared. -/
theorem each {α : Type} (state : List α → Draft) {declare : α → List Declaration} {all : List α}
    (h : ∀ done a later, all = done ++ a :: later →
      Reads written (state done) (declare a) (state (done ++ [a]))) :
    Reads written (state []) (all.flatMap declare) (state all) := by
  have hlater (done later : List α) (hall : all = done ++ later) :
      Reads written (state done) (later.flatMap declare) (state all) := by
    induction later generalizing done with
    | nil =>
      rw [hall, List.append_nil]
      exact .done _
    | cons a later ih =>
      rw [List.flatMap_cons]
      apply (h done a later hall).append
      apply ih
      simp [hall]
  exact hlater [] all rfl

end Reads

section

variable {sorts : List SortDecl} {terms : List TermDecl} {notations : List Notation}
  {delimiters : Delimiters} {assertions : List Assertion}

theorem add_sort (decl : SortDecl) :
    add ⟨.ofDecls sorts terms notations delimiters, assertions⟩ (.sort decl) =
      ⟨.ofDecls (sorts ++ [decl]) terms notations delimiters, assertions⟩ := by
  simp [add, insertSort, Signature.ofDecls, Registry.ofList_concat]

theorem add_term (t : TermDecl) :
    add ⟨.ofDecls sorts terms notations delimiters, assertions⟩ (.term t) =
      ⟨.ofDecls sorts (terms ++ [t]) notations delimiters, assertions⟩ := by
  simp [add, insertTerm, Signature.ofDecls, Registry.ofList_concat]

theorem add_notation (n : Notation) :
    add ⟨.ofDecls sorts terms notations delimiters, assertions⟩ (.notated n) =
      ⟨.ofDecls sorts terms (notations ++ [n]) delimiters, assertions⟩ := by
  simp [add, insertNotation, Signature.ofDecls, Registry.ofList_concat]

theorem add_delimiters (h : delimiters.IsSpelled) :
    empty.add (.delimiters delimiters) = ⟨.ofDecls [] [] [] delimiters, []⟩ := by
  obtain ⟨left, right, strayLeft, strayRight⟩ := delimiters
  obtain ⟨rfl, rfl⟩ := h.strays
  have hunion (t : StringSet) : StringSet.empty.union t = t := by
    apply StringSet.ext
    intro s
    rw [StringSet.mem_union]
    exact or_iff_right (fun hs => nomatch hs)
  simp only [add, addLeft, addRight, empty, Signature.empty, Delimiters.empty, hunion]
  rfl

/-- What is declared last is not declared yet. -/
theorem new_of_nodup {α : Type} {f : α → Name} {done later : List α} {a : α}
    (h : ((done ++ a :: later).map f).Nodup) : f a ∉ done.map f := by
  intro hmem
  rw [List.map_append, List.nodup_append] at h
  exact h.2.2 _ hmem _ List.mem_cons_self rfl

theorem contains_ofList_eq_false {α : Type} {f : α → Name} {values : List α} {name : Name}
    (h : name ∉ values.map f) :
    (Registry.ofList (values.map fun v => (f v, v))).contains name = false := by
  have hkeys : name ∉ (values.map fun v => (f v, v)).map Prod.fst := by
    rw [List.map_map]
    exact h
  rw [Registry.contains, Registry.get?_ofList_eq_none_iff.mpr hkeys]
  rfl

variable {written : Signature}

theorem reads_sorts (hwords : ∀ decl ∈ sorts, decl.name.IsWord)
    (hn : (sorts.map SortDecl.name).Nodup) :
    Reads written ⟨.ofDecls [] [] [] delimiters, []⟩ (sorts.map .sort)
      ⟨.ofDecls sorts [] [] delimiters, []⟩ := by
  rw [List.map_eq_flatMap]
  apply Reads.each fun sorts => ⟨.ofDecls sorts [] [] delimiters, []⟩
  rintro done decl later rfl
  rw [← add_sort]
  apply Reads.one
  · exact hwords decl (by simp)
  · exact ⟨nofun, contains_ofList_eq_false (new_of_nodup hn)⟩

theorem reads_notations {added : List Notation} (hspelled : ∀ n ∈ added, n.IsSpelled)
    (hn : ((notations ++ added).map Notation.token).Nodup) :
    Reads written ⟨.ofDecls sorts terms notations delimiters, assertions⟩ (added.map .notated)
      ⟨.ofDecls sorts terms (notations ++ added) delimiters, assertions⟩ := by
  have hstart : notations = notations ++ [] := (List.append_nil _).symm
  rw [List.map_eq_flatMap]
  conv => arg 2; rw [hstart]
  apply Reads.each fun added =>
    ⟨.ofDecls sorts terms (notations ++ added) delimiters, assertions⟩
  rintro done n later rfl
  rw [← List.append_assoc, ← add_notation]
  rw [← List.append_assoc] at hn
  apply Reads.one
  · exact hspelled n (by simp)
  · exact ⟨nofun, contains_ofList_eq_false (new_of_nodup hn)⟩

end
end Draft

namespace Theory

/-- The formulas of a theory. -/
def formulas (t : Theory) : List Expr :=
  t.signature.terms.values.flatMap TermDecl.formulas ++ t.assertions.flatMap Assertion.formulas

/-- The formulas are legible in the notations of the whole theory, and not too deep to be read. -/
structure IsLegible (t : Theory) : Prop where
  parentheses : Grammar.PlainParentheses t.signature
  formulas : ∀ e ∈ t.formulas, e.Legible t.signature
  nesting : ∀ e ∈ t.formulas, e.nesting t.signature 0 ≤ nestingLimit

/-- The theory with its notations in the order of their terms. -/
def regrouped (t : Theory) : Theory :=
  { t with signature := t.signature.upTo t.signature.terms.values }

variable {t : Theory}

theorem IsLegible.readsBack (hlegible : t.IsLegible) (h : t.IsSpelled) {small : Signature}
    {known : List Name} (hs : small.Agrees t.signature known) {e : Expr} (he : e ∈ t.formulas)
    (hknown : ∀ f ∈ e.terms, f ∈ known) : small.ReadsBack t.signature e :=
  hs.readsBack h.signature.delimiters hlegible.parentheses (hlegible.formulas e he)
    (hlegible.nesting e he) hknown

theorem mem_formulas_of_term {term : TermDecl} {e : Expr} (ht : term ∈ t.signature.terms.values)
    (he : e ∈ term.formulas) : e ∈ t.formulas :=
  List.mem_append_left _ (List.mem_flatMap.mpr ⟨term, ht, he⟩)

theorem mem_formulas_of_assertion {a : Assertion} {e : Expr} (ha : a ∈ t.assertions)
    (he : e ∈ a.formulas) : e ∈ t.formulas :=
  List.mem_append_right _ (List.mem_flatMap.mpr ⟨a, ha, he⟩)

theorem reads_delimiterDeclarations (h : t.signature.delimiters.IsSpelled) :
    Draft.Reads t.signature .empty t.signature.delimiterDeclarations
      ⟨.ofDecls [] [] [] t.signature.delimiters, []⟩ := by
  unfold Signature.delimiterDeclarations
  split
  · rename_i hnone
    have hempty : t.signature.delimiters = .empty := by
      obtain ⟨hleft, hright⟩ := h.members_eq
      obtain ⟨hstrayLeft, hstrayRight⟩ := h.strays
      rw [hleft, hright] at hnone
      simp only [Bool.and_eq_true, List.isEmpty_iff, List.map_eq_nil_iff] at hnone
      generalize t.signature.delimiters = d at hnone hstrayLeft hstrayRight
      obtain ⟨⟨left, _⟩, ⟨right, _⟩, _, _⟩ := d
      cases hnone.1
      cases hnone.2
      cases hstrayLeft
      cases hstrayRight
      rfl
    rw [hempty]
    exact .done _
  · rw [← Draft.add_delimiters h]
    exact .one h ⟨nofun, trivial⟩

/-- A body uses terms that are declared before it, which all that is read until then says. -/
theorem reads_termDeclarations (h : t.IsSpelled) (hlawful : t.Lawful) (hlegible : t.IsLegible) :
    Draft.Reads t.signature ⟨t.signature.upTo [], []⟩
      (t.signature.termDeclarations t.signature.terms.values)
      ⟨t.signature.upTo t.signature.terms.values, []⟩ := by
  have hsig := h.signature
  apply Draft.Reads.each fun terms => ⟨t.signature.upTo terms, []⟩
  intro done term later hall
  have hterm : term ∈ t.signature.terms.values := by simp [hall]
  have hnames := hsig.nodup_names
  rw [hall] at hnames
  have hdone : ((done ++ [term]).map TermDecl.name).Nodup := by
    have hprefix := hnames
    rw [List.append_cons, List.map_append] at hprefix
    exact (List.nodup_append.mp hprefix).1
  have htokens := hsig.nodup_tokens hdone
  have hsplit : t.signature.notationsOfAll (done ++ [term]) =
      t.signature.notationsOfAll done ++ t.signature.notationsOf term.name := by
    simp [Signature.notationsOfAll]
  have hbody : ∀ e ∈ term.formulas, (t.signature.upTo done).ReadsBack t.signature e := by
    intro e he
    have hlawfulTerm : t.signature.LawfulTerm (done.map TermDecl.name) term := by
      have hentries := Registry.entries_eq_map hsig.name_eq
      rw [hall, List.map_append, List.map_cons] at hentries
      have := hlawful.signature.terms _ _ _ _ hentries
      rwa [List.map_map] at this
    have hknown := (hlawfulTerm.body e (Option.mem_toList.mp he)).terms
    exact hlegible.readsBack h (hsig.upTo_agrees hall) (mem_formulas_of_term hterm he) hknown
  -- The term is new, and so are the tokens of its notations beside those of the terms before it.
  apply Draft.Reads.add
  · exact (hsig.terms _ _ (hsig.get?_name.mp hterm)).2
  · exact ⟨hbody, Draft.contains_ofList_eq_false (Draft.new_of_nodup hnames)⟩
  · rw [Signature.upTo, Draft.add_term, Signature.upTo, hsplit]
    rw [hsplit] at htokens
    apply Draft.reads_notations _ htokens
    intro n hn
    have hvalue := (List.mem_filter.mp hn).1
    exact (hsig.notations _ _ (hsig.get?_token.mp hvalue)).2

theorem statement_of_formula (hlawful : t.Lawful) {a : Assertion} (ha : a ∈ t.assertions) {e : Expr}
    (he : e ∈ a.formulas) : t.signature.LawfulStatement a.binders e := by
  obtain ⟨_, _, hhypotheses, hconclusion⟩ := hlawful.assertions a ha
  rcases List.mem_append.mp he with he | he
  · obtain ⟨p, hp, rfl⟩ := List.mem_map.mp he
    exact hhypotheses p hp
  · rw [List.mem_singleton.mp he]
    exact hconclusion

theorem reads_assertions (h : t.IsSpelled) (hlawful : t.Lawful) (hlegible : t.IsLegible) :
    Draft.Reads t.signature ⟨t.signature.upTo t.signature.terms.values, []⟩
      (t.assertions.map .assertion) ⟨t.signature.upTo t.signature.terms.values, t.assertions⟩ := by
  have hsig := h.signature
  rw [List.map_eq_flatMap]
  apply Draft.Reads.each fun assertions =>
    ⟨t.signature.upTo t.signature.terms.values, assertions⟩
  intro done a later hall
  have ha : a ∈ t.assertions := by simp [hall]
  refine .one (x := .assertion a) (h.assertions a ha) ⟨fun e he => ?_, trivial⟩
  have hagrees := hsig.upTo_agrees (List.append_nil t.signature.terms.values).symm
  apply hlegible.readsBack h hagrees (mem_formulas_of_assertion ha he)
  obtain ⟨_, _, hsort, _⟩ := statement_of_formula hlawful ha he
  intro f hf
  obtain ⟨term, hterm⟩ := Registry.contains_iff.mp (hsort.terms_declared f hf)
  rw [← hsig.name_eq f term hterm]
  exact List.mem_map_of_mem (Registry.mem_values_iff.mpr ⟨f, hterm⟩)

theorem reads_declarations (h : t.IsSpelled) (hlawful : t.Lawful) (hlegible : t.IsLegible) :
    Draft.Reads t.signature .empty t.declarations ⟨t.regrouped.signature, t.assertions⟩ := by
  have hsorts : ∀ decl ∈ t.signature.sorts.values, decl.name.IsWord := by
    intro decl hdecl
    obtain ⟨name, hname⟩ := Registry.mem_values_iff.mp hdecl
    obtain ⟨rfl, hword⟩ := h.signature.sorts _ _ hname
    exact hword
  have hkeys : (t.signature.sorts.values.map SortDecl.name).Nodup :=
    Registry.nodup_map_values fun name decl hdecl => (h.signature.sorts name decl hdecl).1
  apply (reads_delimiterDeclarations h.signature.delimiters).append
  apply (Draft.reads_sorts hsorts hkeys).append
  exact (reads_termDeclarations h hlawful hlegible).append (reads_assertions h hlawful hlegible)

theorem mem_formulas {d : Declaration} {e : Expr} (hd : d ∈ t.declarations) (he : e ∈ d.formulas) :
    e ∈ t.formulas := by
  cases d with
  | sort decl => cases he
  | notated n => cases he
  | delimiters d => cases he
  | term term =>
    apply mem_formulas_of_term _ he
    simp only [declarations, Signature.delimiterDeclarations, Signature.termDeclarations] at hd
    simpa using hd
  | assertion a =>
    apply mem_formulas_of_assertion _ he
    simp only [declarations, Signature.delimiterDeclarations, Signature.termDeclarations] at hd
    simpa using hd

/-- The text of a theory is read as the theory, with its notations in the order of their terms. -/
theorem parse_write_eq {name : String} (hname : t.name = name) (hline : '\n' ∉ name.toList)
    (h : t.IsSpelled) (hlawful : t.Lawful) (hlegible : t.IsLegible) :
    parse t.write name = (t.declarations, .ok t.regrouped) := by
  have hreads := reads_declarations h hlawful hlegible
  have hlexes := write_lexes hname hline hreads.spelled fun d hd e he =>
    (hlegible.formulas e (mem_formulas hd he)).dollar_not_mem h.signature
  obtain ⟨ts, stop, hlex, hts⟩ := hlexes.lex .start
  have htokens : tokenize t.write = .ok ⟨ts, stop⟩ := by
    rw [tokenize, hlex]
    rfl
  have hlength : t.declarations.length ≤ ts.length := by
    have hlexemes : ∀ d ∈ t.declarations, d.lexemes t.signature ≠ [] :=
      fun d _ => d.lexemes_ne_nil t.signature
    have hle := Reads.length_le_length_flatMap hlexemes
    rw [← hts, List.length_map] at hle
    exact hle
  rw [parse, htokens]
  dsimp only
  rw [hreads.run hlength hts stop]
  simp only [Except.map, Draft.toTheory, regrouped, hname]

/-! Theories are compared without the order of their declarations. -/

theorem isEqv_self {α : Type} {same : α → α → Bool} {as : List α}
    (h : ∀ a ∈ as, same a a = true) : as.isEqv as same = true := by
  induction as with
  | nil => rfl
  | cons a as ih =>
    obtain ⟨ha, has⟩ := List.forall_mem_cons.mp h
    simp [List.isEqv, ha, ih has]

theorem same_bool (b : Bool) : (Truth.bool b).same (.bool b) = true := by
  cases b <;> decide

theorem same_binder {b : Binder} (h : b.IsSpelled) : b.same b = true := by
  obtain ⟨bound, hbound, _⟩ := h.bound
  simp [Binder.same, hbound, same_bool]

theorem same_term {term : TermDecl} (h : term.IsSpelled) : term.same term = true := by
  obtain ⟨isDef, hdef, _⟩ := h.isDef
  have hbinders := isEqv_self fun b hb => same_binder (h.binders b hb)
  simp [TermDecl.same, hdef, same_bool, hbinders]

theorem same_assertion {a : Assertion} (h : a.IsSpelled) : a.same a = true := by
  have hbinders := isEqv_self fun b hb => same_binder (h.binders b hb)
  simp [Assertion.same, hbinders]

theorem regrouped_sorts (h : t.IsSpelled) : t.regrouped.signature.sorts = t.signature.sorts :=
  Registry.ofList_values fun name decl hdecl => (h.signature.sorts name decl hdecl).1

theorem regrouped_terms (h : t.IsSpelled) : t.regrouped.signature.terms = t.signature.terms :=
  Registry.ofList_values h.signature.name_eq

theorem regrouped_sameContent (h : t.IsSpelled) (hlawful : t.Lawful) :
    t.regrouped.sameContent t = true := by
  have hsig := h.signature
  have hnotations (token : Name) :
      t.regrouped.signature.notations.get? token = t.signature.notations.get? token := by
    apply Option.ext
    intro n
    refine (hsig.get?_upTo_notations hsig.nodup_names).trans (and_iff_left_of_imp fun hn => ?_)
    obtain ⟨term, hterm, _⟩ := hlawful.signature.notations token n hn
    rw [← hsig.name_eq _ term hterm]
    exact List.mem_map_of_mem (Registry.mem_values_iff.mpr ⟨_, hterm⟩)
  have hsignature : t.regrouped.signature.sameContent t.signature = true := by
    simp only [Signature.sameContent, Bool.and_eq_true, decide_eq_true_eq]
    refine ⟨⟨⟨?_, ?_⟩, ?_⟩, rfl⟩
    · rw [regrouped_sorts h]
      exact Registry.sameValues_of_get?_eq (fun _ => rfl) fun _ _ _ => beq_self_eq_true _
    · rw [regrouped_terms h]
      exact Registry.sameValues_of_get?_eq (fun _ => rfl) fun name term hterm =>
        same_term (hsig.terms name term hterm).2
    · exact Registry.sameValues_of_get?_eq hnotations fun _ _ _ => beq_self_eq_true _
  have hassertions := isEqv_self fun a ha => same_assertion (h.assertions a ha)
  simp only [sameContent, Bool.and_eq_true, decide_eq_true_eq]
  exact ⟨⟨rfl, hsignature⟩, hassertions⟩

/-- A theory that is read from a text without errors, and of which every formula is legible in the
notations of the whole theory, is read back from the text that is written of it. -/
theorem parse_write {text name : String} (hline : '\n' ∉ name.toList)
    (hparse : (parse text name).2 = .ok t) (hwell : t.isWellFormed = true)
    (hlegible : t.IsLegible) :
    ∃ t', (parse t.write name).2 = .ok t' ∧ t'.sameContent t = true := by
  obtain ⟨hname, hspelled⟩ := parse_isSpelled hparse
  have hlawful := lawful_of_isWellFormed hwell
  refine ⟨t.regrouped, ?_, regrouped_sameContent hspelled hlawful⟩
  rw [parse_write_eq hname hline hspelled hlawful hlegible]

end Theory

namespace Implication

/-- An axiom that is declared before the delimiters, which are written before everything else. -/
def text : String :=
  "provable sort wff; term im (a b: wff): wff; term not (a: wff): wff;" ++
    "infixr im: $ -> $ prec 25; prefix not: $ ~ $ prec 40;" ++
    "axiom ax (p q r: wff): $ ( ~ p -> q ) -> r $; delimiter $ ( ~ $ $ ) $;"

def theory : Theory :=
  ⟨"implication", signature,
    [⟨.assumed, "ax", ["p", "q", "r"].map fun x => ⟨.text x, "wff", false, []⟩, [], nested⟩]⟩

theorem theory_isLegible : theory.IsLegible := by
  have hformulas : theory.formulas = [nested] := by decide +kernel
  refine ⟨plainParentheses, ?_, ?_⟩
  · rw [hformulas, List.forall_mem_singleton]
    exact nested_printable.legible signature_printable
  · rw [hformulas, List.forall_mem_singleton]
    decide +kernel

theorem theory_isWellFormed : theory.isWellFormed = true := by
  rw [Theory.isWellFormed, Theory.findings, Theory.checkNames_eq_nil (by decide)]
  decide +kernel

theorem theory_parse_write :
    (Theory.parse text "implication").2 = .ok theory ∧ theory.isWellFormed = true ∧
      ∃ t', (Theory.parse theory.write "implication").2 = .ok t' ∧ t'.sameContent theory = true := by
  have hparse : (Theory.parse text "implication").2 = .ok theory :=
    eq_ok_of_toOption (by decide +kernel)
  have hline : '\n' ∉ "implication".toList := by decide
  exact ⟨hparse, theory_isWellFormed,
    Theory.parse_write hline hparse theory_isWellFormed theory_isLegible⟩

end Implication
/-! Where a negation binds just as tightly as an implication to the left, what is written is not what
was read: the parentheses around the negation are left out, though it would take in the implication. -/
namespace Clash

def text : String :=
  "provable sort wff; term im (a b: wff): wff; term not (a: wff): wff;" ++
    "infixl im: $->$ prec 25; prefix not: $~$ prec 25; axiom ax (a b: wff): $ ( ~ a ) -> b $;"

def theory (conclusion : Expr) : Theory :=
  ⟨"clash",
    .ofDecls [⟨"wff", ⟨false, false, true, false⟩⟩] Implication.terms
      [⟨"im", "->", .leftAssoc, 25⟩, ⟨"not", "~", .prefixed, 25⟩] .empty,
    [⟨.assumed, "ax", ["a", "b"].map fun x => ⟨.text x, "wff", false, []⟩, [], conclusion⟩]⟩

/-- An implication from a negation. -/
def declared : Theory := theory (.app "im" [.app "not" [.var "a"], .var "b"])

/-- A negation of an implication. -/
def reread : Theory := theory (.app "not" [.app "im" [.var "a", .var "b"]])

theorem declared_isWellFormed : declared.isWellFormed = true := by
  rw [Theory.isWellFormed, Theory.findings, Theory.checkNames_eq_nil (by decide)]
  decide +kernel

theorem declared_not_read_back :
    (Theory.parse text "clash").2 = .ok declared ∧ declared.isWellFormed = true ∧
      (Theory.parse declared.write "clash").2 = .ok reread ∧
      reread.sameContent declared = false :=
  ⟨eq_ok_of_toOption (by decide +kernel), declared_isWellFormed,
    eq_ok_of_toOption (by decide +kernel), by decide +kernel⟩

end Clash
end Deductive
