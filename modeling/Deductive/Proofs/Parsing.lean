import Deductive.Proofs.Declaring
import Deductive.Proofs.Registry
import Deductive.Proofs.Spelling

/-!
What is read from a text can be written again: every name is a word of the text, every token and
every delimiter stood between dollar signs, and everything is declared under its own name.
-/
namespace Deductive

open TokenReader

/-- Words and math strings are as they are cut off a text. -/
structure Token.IsLexical (t : Token) : Prop where
  word : t.kind = .word → IsWord t.text
  math : t.kind = .math → '$' ∉ t.text.toList

def TokenStream.IsLexical (s : TokenStream) : Prop := ∀ t ∈ s.pending, t.IsLexical

theorem TokenStream.IsLexical.peek {s : TokenStream} (h : s.IsLexical) : s.peek.IsLexical := by
  unfold TokenStream.peek
  cases hs : s.pending with
  | nil => exact ⟨nofun, nofun⟩
  | cons t ts => exact h t (hs ▸ List.mem_cons_self)

theorem piece?_isLexical {c : Char} {cs : List Char} {piece : Piece} {kind : TokenKind}
    {text : String} (h : piece? c cs = some piece) (htoken : piece.token = some (kind, text))
    (p : Position) : Token.IsLexical ⟨kind, text, p⟩ := by
  unfold piece? at h
  split at h
  · cases h
    cases htoken
  split at h
  · cases h
    cases htoken
  split at h
  · dsimp only at h
    split at h
    · cases h
      cases htoken
      refine ⟨nofun, fun _ hmem => ?_⟩
      rw [String.toList_ofList] at hmem
      have hinner := List.all_eq_true.mp (List.all_takeWhile (p := (· ≠ '$')) (l := cs)) '$' hmem
      exact absurd rfl (of_decide_eq_true hinner)
    · cases h
  split at h
  · rename_i hletter
    cases h
    cases htoken
    refine ⟨fun _ => ⟨c, cs.takeWhile isWordChar, String.toList_ofList, hletter, ?_⟩, nofun⟩
    exact List.all_eq_true.mp List.all_takeWhile
  split at h
  · cases h
    cases htoken
    exact ⟨nofun, nofun⟩
  split at h
  · cases h
    cases htoken
    exact ⟨nofun, nofun⟩
  · cases h

theorem lex_isLexical {p stop : Position} {cs : List Char} {ts : List Token}
    (h : lex p cs = .ok (ts, stop)) : ∀ t ∈ ts, t.IsLexical := by
  fun_induction lex p cs generalizing ts stop with
  | case1 p =>
    cases h
    nofun
  | case2 => cases h
  | case3 => cases h
  | case4 p c cs piece hpiece _ ts' stop' hrest htoken ih =>
    cases h
    exact ih hrest
  | case5 p c cs piece hpiece _ ts' stop' hrest kind text htoken ih =>
    cases h
    exact List.forall_mem_cons.mpr ⟨piece?_isLexical hpiece htoken p, ih hrest⟩

theorem tokenize_isLexical {text : String} {s : TokenStream} (h : tokenize text = .ok s) :
    s.IsLexical := by
  unfold tokenize at h
  cases hlex : lex .start text.toList with
  | error e =>
    rw [hlex] at h
    cases h
  | ok result =>
    rw [hlex] at h
    cases h
    exact lex_isLexical hlex

/-- A value that the reader finds in lexical tokens has the property. -/
def Yields {α : Type} (r : TokenReader α) (P : α → Prop) : Prop :=
  ∀ s a s', s.IsLexical → r s = .ok a s' → P a ∧ s'.IsLexical

namespace Yields

section

variable {α β : Type} {r : TokenReader α} {k : α → TokenReader β} {P P' : α → Prop} {Q : β → Prop}

theorem pure {a : α} (h : P a) : Yields (pure a) P := by
  intro s a' s' hs hr
  obtain ⟨rfl, rfl⟩ := reader_pure_eq_ok_iff.mp hr
  exact ⟨h, hs⟩

theorem bind (h : Yields r P) (h' : ∀ a, P a → Yields (k a) Q) : Yields (r >>= k) Q := by
  intro s b s' hs hr
  obtain ⟨a, s₁, hr, hk⟩ := reader_bind_eq_ok_iff.mp hr
  obtain ⟨ha, hs₁⟩ := h s a s₁ hs hr
  exact h' a ha s₁ b s' hs₁ hk

theorem mono (h : Yields r P) (h' : ∀ a, P a → P' a) : Yields r P' := by
  intro s a s' hs hr
  obtain ⟨ha, hs'⟩ := h s a s' hs hr
  exact ⟨h' a ha, hs'⟩

theorem fail {position : Position} {cause : ParseCause} : Yields (TokenReader.fail position cause) P :=
  fun _ _ _ _ hr => nomatch hr

end

theorem peek : Yields TokenReader.peek Token.IsLexical := by
  intro s t s' hs hr
  cases hr
  exact ⟨hs.peek, hs⟩

theorem advance : Yields TokenReader.advance Token.IsLexical := by
  intro s t s' hs hr
  cases hr
  exact ⟨hs.peek, fun t ht => hs t (List.mem_of_mem_tail ht)⟩

theorem expect {test : Token → Bool} {what : String} :
    Yields (TokenReader.expect test what) fun t => test t = true ∧ t.IsLexical := by
  refine advance.bind fun t ht => ?_
  split
  · rename_i htest
    exact pure ⟨htest, ht⟩
  · exact fail

theorem expectWord {what : String} : Yields (TokenReader.expectWord what) fun t => IsWord t.text :=
  expect.mono fun _ ⟨htest, ht⟩ => ht.word (of_decide_eq_true htest)

theorem expectMath : Yields TokenReader.expectMath fun t => '$' ∉ t.text.toList :=
  expect.mono fun _ ⟨htest, ht⟩ => ht.math (of_decide_eq_true htest)

theorem words : Yields TokenReader.words fun ts => ∀ t ∈ ts, IsWord t.text := by
  intro s ts s' hs hr
  cases hr
  refine ⟨fun t ht => ?_, fun t ht => hs t ((List.dropWhile_sublist _).mem ht)⟩
  have hlexical := hs t ((List.takeWhile_sublist _).mem ht)
  exact hlexical.word (of_decide_eq_true (List.all_eq_true.mp List.all_takeWhile t ht))

section

variable {α : Type} {test : Token → Bool} {item : TokenReader α} {P : α → Prop}

theorem whileNext (h : Yields item P) (n : Nat) :
    Yields (TokenReader.whileNext test item n) fun as => ∀ a ∈ as, P a := by
  induction n with
  | zero => exact pure nofun
  | succ n ih =>
    refine peek.bind fun t _ => ?_
    split
    · exact h.bind fun a ha => ih.bind fun as has => pure (List.forall_mem_cons.mpr ⟨ha, has⟩)
    · exact pure nofun

theorem manyWhile (h : Yields item P) :
    Yields (TokenReader.manyWhile test item) fun as => ∀ a ∈ as, P a :=
  fun s => h.whileNext (s.pending.length + 1) s

end
end Yields

def TypeContent.IsSpelled : TypeContent → Prop
  | .sort name deps => name.IsWord ∧ ∀ d ∈ deps, d.IsWord
  | .formula _ => True

structure BinderEntry.IsSpelled (b : BinderEntry) : Prop where
  name : IsWord b.name
  type : b.type.content.IsSpelled
  bound : b.bound = true → ∃ name, b.type.content = .sort name []

namespace Declaration

variable {sig : Signature}

theorem words_isWord {ts : List Token} (h : ∀ t ∈ ts, IsWord t.text) :
    ∀ n ∈ ts.map fun t => Name.text t.text, n.IsWord := by
  intro n hn
  obtain ⟨t, ht, rfl⟩ := List.mem_map.mp hn
  exact ⟨t.text, rfl, h t ht⟩

theorem formula_yields {t : Token} : Yields (formula sig t) fun _ => True := by
  intro s e s' hs hr
  unfold formula at hr
  split at hr
  · cases hr
    exact ⟨trivial, hs⟩
  · cases hr

theorem typeSpec_yields : Yields (typeSpec sig) fun t => t.content.IsSpelled := by
  refine Yields.peek.bind fun t _ => ?_
  split
  · exact Yields.advance.bind fun _ _ => formula_yields.bind fun e _ => .pure trivial
  · exact Yields.expectWord.bind fun name hname => Yields.words.bind fun deps hdeps =>
      .pure ⟨⟨_, rfl, hname⟩, words_isWord hdeps⟩

theorem forall_ofList {P : TypeSpec → Prop} {first : TypeSpec} {more : List TypeSpec}
    (hfirst : P first) (hmore : ∀ t ∈ more, P t) :
    (∀ t ∈ (ArrowType.ofList first more).arguments, P t) ∧ P (ArrowType.ofList first more).result := by
  induction more generalizing first with
  | nil => exact ⟨nofun, hfirst⟩
  | cons t more ih =>
    obtain ⟨ht, hmore⟩ := List.forall_mem_cons.mp hmore
    obtain ⟨harguments, hresult⟩ := ih ht hmore
    exact ⟨List.forall_mem_cons.mpr ⟨hfirst, harguments⟩, hresult⟩

theorem arrowType_yields : Yields (arrowType sig) fun a =>
    (∀ t ∈ a.arguments, t.content.IsSpelled) ∧ a.result.content.IsSpelled := by
  refine typeSpec_yields.bind fun first hfirst => ?_
  refine (Yields.advance.bind fun _ _ => typeSpec_yields).manyWhile.bind fun more hmore => ?_
  exact .pure (forall_ofList (P := fun t => t.content.IsSpelled) hfirst hmore)

theorem binderGroup_yields : Yields (binderGroup sig) fun es => ∀ b ∈ es, b.IsSpelled := by
  refine Yields.advance.bind fun opening _ => ?_
  refine Yields.expectWord.bind fun first hfirst => ?_
  refine Yields.words.bind fun more hmore => ?_
  refine Yields.expect.bind fun _ _ => ?_
  refine typeSpec_yields.bind fun type htype => ?_
  refine Yields.expect.bind fun _ _ => ?_
  have hentries {bound : Bool} (hbound : bound = true → ∃ name, type.content = .sort name []) :
      ∀ b ∈ (first :: more).map fun t => (⟨t.text, bound, type⟩ : BinderEntry), b.IsSpelled := by
    intro b hb
    obtain ⟨t, ht, rfl⟩ := List.mem_map.mp hb
    refine ⟨?_, htype, hbound⟩
    rcases List.mem_cons.mp ht with rfl | ht
    · exact hfirst
    · exact hmore t ht
  cases hcontent : type.content with
  | formula e =>
    dsimp only
    split
    · exact .fail
    · rename_i hfree
      exact .pure (hentries fun hbound => absurd hbound hfree)
  | sort name deps =>
    dsimp only
    split
    · exact .fail
    · rename_i hdeps
      refine .pure (hentries fun hbound => ⟨name, ?_⟩)
      have : deps = [] := by simpa [hbound] using hdeps
      rw [hcontent, this]

theorem binderEntries_yields : Yields (binderEntries sig) fun es => ∀ b ∈ es, b.IsSpelled := by
  refine binderGroup_yields.manyWhile.bind fun groups hgroups => .pure fun b hb => ?_
  obtain ⟨group, hgroup, hb⟩ := List.mem_flatten.mp hb
  exact hgroups group hgroup b hb

theorem sortOf_yields {cause : ParseCause} {t : TypeSpec} (ht : t.content.IsSpelled) :
    Yields (sortOf cause t) fun p => t.content = .sort p.1 p.2 ∧ p.1.IsWord ∧ ∀ d ∈ p.2, d.IsWord := by
  unfold sortOf
  split
  · exact .fail
  · rename_i name deps hcontent
    rw [hcontent] at ht
    exact .pure ⟨hcontent, ht⟩

theorem sortedBinders_yields {es : List BinderEntry} (hes : ∀ b ∈ es, b.IsSpelled) :
    Yields (sortedBinders es) fun bs => ∀ b ∈ bs, b.IsSpelled := by
  induction es with
  | nil => exact .pure nofun
  | cons e es ih =>
    obtain ⟨he, hes⟩ := List.forall_mem_cons.mp hes
    refine (sortOf_yields he.type).bind fun p hp => (ih hes).bind fun bs hbs => .pure ?_
    obtain ⟨hcontent, hrange, hdeps⟩ := hp
    refine List.forall_mem_cons.mpr ⟨⟨⟨_, rfl, he.name⟩, hrange, hdeps, _, rfl, fun hbound => ?_⟩, hbs⟩
    obtain ⟨name, hname⟩ := he.bound hbound
    rw [hcontent] at hname
    exact (TypeContent.sort.inj hname).2

theorem isWord_argument (n : Nat) : IsWord s!"_{n}" := by
  have htext : s!"_{n}".toList = '_' :: Nat.toDigits 10 n := by
    simp [toString, Nat.toList_repr]
  refine ⟨'_', Nat.toDigits 10 n, htext, by decide, fun c hc => ?_⟩
  have hdigit := Nat.isDigit_of_mem_toDigits (by decide) (by decide) hc
  have : isDigit c = true := by simpa [Char.isDigit, isDigit, Char.le_def] using hdigit
  simp [isWordChar, this]

theorem arrowBinders_yields {ts : List TypeSpec} (hts : ∀ t ∈ ts, t.content.IsSpelled) (n : Nat) :
    Yields (arrowBinders n ts) fun bs => ∀ b ∈ bs, b.IsSpelled := by
  induction ts generalizing n with
  | nil => exact .pure nofun
  | cons t ts ih =>
    obtain ⟨ht, hts⟩ := List.forall_mem_cons.mp hts
    refine (sortOf_yields ht).bind fun p hp => (ih hts (n + 1)).bind fun bs hbs => .pure ?_
    obtain ⟨_, hrange, hdeps⟩ := hp
    exact List.forall_mem_cons.mpr
      ⟨⟨⟨_, rfl, isWord_argument n⟩, hrange, hdeps, false, rfl, nofun⟩, hbs⟩

theorem modifierRun_yields (n : Nat) (m : SortModifiers) :
    Yields (modifierRun n m) fun _ => True := by
  induction n generalizing m with
  | zero => exact .pure trivial
  | succ n ih =>
    refine Yields.peek.bind fun t _ => ?_
    split
    · exact .pure trivial
    · refine Yields.advance.bind fun _ _ => ?_
      split
      · exact .fail
      · exact ih _

theorem sortStatement_yields : Yields (sortStatement sig) IsSpelled := by
  refine (modifierRun_yields _ _).bind fun _ _ => Yields.expect.bind fun _ _ => ?_
  refine Yields.expectWord.bind fun name hname => Yields.expect.bind fun _ _ => ?_
  split
  · exact .fail
  · exact .pure ⟨_, rfl, hname⟩

theorem newTerm_yields {name : Token} {decl : TermDecl} (h : decl.IsSpelled) :
    Yields (newTerm sig name decl) IsSpelled := by
  unfold newTerm
  split
  · exact .fail
  · exact .pure h

theorem termStatement_yields : Yields (termStatement sig) IsSpelled := by
  refine Yields.advance.bind fun _ _ => Yields.expectWord.bind fun name hname => ?_
  refine binderEntries_yields.bind fun es hes => (sortedBinders_yields hes).bind fun bs hbs => ?_
  refine Yields.expect.bind fun _ _ => arrowType_yields.bind fun arrow harrow => ?_
  obtain ⟨harguments, hresult⟩ := harrow
  refine (arrowBinders_yields harguments 1).bind fun args hargs => ?_
  refine (sortOf_yields hresult).bind fun p hp => Yields.expect.bind fun _ _ => ?_
  obtain ⟨_, hrange, hdeps⟩ := hp
  exact newTerm_yields ⟨⟨_, rfl, hname⟩, List.forall_mem_append.mpr ⟨hbs, hargs⟩, hrange, hdeps,
    false, rfl, fun _ => rfl⟩

theorem definitionBody_yields : Yields (definitionBody sig) fun _ => True := by
  refine Yields.peek.bind fun t _ => ?_
  split
  · exact Yields.advance.bind fun _ _ => Yields.expect.bind fun _ _ =>
      formula_yields.bind fun _ _ => .pure trivial
  · exact .pure trivial

theorem definitionStatement_yields : Yields (definitionStatement sig) IsSpelled := by
  refine Yields.advance.bind fun _ _ => Yields.expectWord.bind fun name hname => ?_
  refine binderEntries_yields.bind fun es hes => (sortedBinders_yields hes).bind fun bs hbs => ?_
  refine Yields.expect.bind fun _ _ => typeSpec_yields.bind fun type htype => ?_
  refine (sortOf_yields htype).bind fun p hp => definitionBody_yields.bind fun body _ => ?_
  obtain ⟨_, hrange, hdeps⟩ := hp
  refine Yields.expect.bind fun _ _ => newTerm_yields ?_
  exact ⟨⟨_, rfl, hname⟩, hbs, hrange, hdeps, true, rfl, nofun⟩

theorem entryBinders_isSpelled {es : List BinderEntry} (hes : ∀ b ∈ es, b.IsSpelled) :
    ∀ b ∈ entryBinders es, b.IsSpelled := by
  intro b hb
  obtain ⟨e, he, hsome⟩ := List.mem_filterMap.mp hb
  obtain ⟨hname, htype, hbound⟩ := hes e he
  split at hsome
  · rename_i range deps hcontent
    cases hsome
    rw [hcontent] at htype
    refine ⟨⟨_, rfl, hname⟩, htype.1, htype.2, _, rfl, fun htrue => ?_⟩
    obtain ⟨name, hsort⟩ := hbound htrue
    rw [hcontent] at hsort
    exact (TypeContent.sort.inj hsort).2
  · cases hsome

theorem entryHypotheses_isSpelled {es : List BinderEntry} (hes : ∀ b ∈ es, b.IsSpelled) :
    ∀ h ∈ entryHypotheses es, ∃ n, h.name = some n ∧ n.IsWord := by
  intro h hh
  obtain ⟨e, he, hsome⟩ := List.mem_filterMap.mp hh
  split at hsome
  · cases hsome
  · cases hsome
    exact ⟨_, rfl, _, rfl, (hes e he).name⟩

theorem statementOf_yields {kind : AssertionKind} {label : String} {t : TypeSpec} :
    Yields (statementOf kind label t) fun _ => True := by
  unfold statementOf
  split
  · exact .pure trivial
  · exact .fail

theorem arrowHypotheses_yields {kind : AssertionKind} {label : String} (ts : List TypeSpec) :
    Yields (arrowHypotheses kind label ts) fun hs => ∀ h ∈ hs, h.name = none := by
  induction ts with
  | nil => exact .pure nofun
  | cons t ts ih =>
    exact statementOf_yields.bind fun _ _ => ih.bind fun hs hhs =>
      .pure (List.forall_mem_cons.mpr ⟨rfl, hhs⟩)

theorem assertionStatement_yields {kind : AssertionKind} :
    Yields (assertionStatement sig kind) IsSpelled := by
  refine Yields.advance.bind fun _ _ => Yields.expectWord.bind fun label hlabel => ?_
  refine binderEntries_yields.bind fun es hes => Yields.expect.bind fun _ _ => ?_
  refine arrowType_yields.bind fun arrow _ => ?_
  refine (arrowHypotheses_yields arrow.arguments).bind fun arrows harrows => ?_
  refine statementOf_yields.bind fun conclusion _ => Yields.expect.bind fun _ _ => .pure ?_
  exact ⟨⟨_, rfl, hlabel⟩, entryBinders_isSpelled hes, _, _, rfl, entryHypotheses_isSpelled hes,
    harrows⟩

theorem mem_of_mem_strip {text : String} {c : Char} (h : c ∈ (Text.strip text).toList) :
    c ∈ text.toList := by
  rw [Text.strip, String.toList_ofList, Text.trim, List.mem_reverse] at h
  have := (List.dropWhile_sublist _).mem h
  rw [List.mem_reverse] at this
  exact (List.dropWhile_sublist _).mem this

theorem precedence_yields : Yields precedence fun _ => True := by
  refine Yields.advance.bind fun t _ => ?_
  split
  · refine Yields.bind (P := fun _ => True) ?_ fun n _ => .pure trivial
    unfold decimalOf
    dsimp only
    split
    · exact .fail
    · exact .pure trivial
  · split
    · exact .pure trivial
    · exact .fail

theorem levelOf_yields {position : Position} (written : Option Nat) :
    Yields (levelOf position written) fun prec => 0 ≤ prec ∧ prec ≤ maxPrec := by
  unfold levelOf
  split
  · exact .pure (by decide)
  · rename_i n
    split
    · exact .fail
    · rename_i hlow
      exact .pure ⟨Int.natCast_nonneg n, Int.le_of_lt (Int.not_le.mp hlow)⟩

theorem notationStatement_yields {fixity : Fixity} : Yields (notationStatement sig fixity) IsSpelled := by
  refine Yields.advance.bind fun _ _ => Yields.expectWord.bind fun term hterm => ?_
  refine Yields.expect.bind fun _ _ => Yields.expectMath.bind fun math hmath => ?_
  dsimp only
  split
  · exact .fail
  rename_i hword
  obtain ⟨hne, hblank⟩ := Bool.or_eq_false_iff.mp (Bool.eq_false_iff.mpr hword)
  refine Yields.expect.bind fun _ _ => Yields.peek.bind fun level _ => ?_
  refine precedence_yields.bind fun written _ => Yields.expect.bind fun _ _ => ?_
  split
  · exact .fail
  refine (levelOf_yields written).bind fun prec hprec => .pure ⟨⟨_, rfl, hterm⟩, ?_, hprec⟩
  refine ⟨_, rfl, by simpa using hne, fun c hc => ⟨?_, ?_⟩⟩
  · exact Bool.eq_false_iff.mpr (List.any_eq_false.mp hblank c hc)
  · rintro rfl
    exact hmath (mem_of_mem_strip hc)

theorem charsOf_isSpelled {text : String} (h : '$' ∉ text.toList) :
    ∀ s ∈ Delimiters.charsOf text, ∃ c, s = String.singleton c ∧ Text.isBlank c = false ∧ c ≠ '$' := by
  intro s hs
  obtain ⟨c, hc, rfl⟩ := List.mem_map.mp (StringSet.mem_ofList.mp hs)
  obtain ⟨hc, hblank⟩ := List.mem_filter.mp hc
  refine ⟨c, rfl, by simpa using hblank, ?_⟩
  rintro rfl
  exact h hc

theorem delimiterStatement_yields : Yields delimiterStatement IsSpelled := by
  refine Yields.advance.bind fun _ _ => Yields.expectMath.bind fun left hleft => ?_
  refine Yields.peek.bind fun t _ => ?_
  have hrest {right : Token} (hright : '$' ∉ right.text.toList) :
      IsSpelled (.delimiters
        { left := Delimiters.charsOf left.text, right := Delimiters.charsOf right.text }) := by
    refine ⟨⟨rfl, rfl⟩, fun s hs => ?_⟩
    rcases hs with hs | hs
    · exact charsOf_isSpelled hleft s hs
    · exact charsOf_isSpelled hright s hs
  split
  · exact Yields.expectMath.bind fun right hright => Yields.expect.bind fun _ _ =>
      .pure (hrest hright)
  · refine (Yields.pure (P := (· = left)) rfl).bind fun right hright => ?_
    exact Yields.expect.bind fun _ _ => .pure (hrest (hright ▸ hleft))

/-- Every declaration that is read can be written. -/
theorem statement_yields (sig : Signature) : Yields (statement sig) IsSpelled := by
  refine Yields.peek.bind fun t _ => ?_
  split
  · exact .fail
  split
  · exact sortStatement_yields
  split
  · exact termStatement_yields
  split
  · exact definitionStatement_yields
  split
  · exact delimiterStatement_yields
  split
  · exact assertionStatement_yields
  · exact notationStatement_yields
  · split
    · exact .fail
    · exact .fail

end Declaration

/-- Everything is declared under its own name, and can be written. -/
structure Signature.IsSpelled (sig : Signature) : Prop where
  sorts : ∀ name decl, sig.sorts.get? name = some decl → decl.name = name ∧ name.IsWord
  terms : ∀ name term, sig.terms.get? name = some term → term.name = name ∧ term.IsSpelled
  notations : ∀ token n, sig.notations.get? token = some n → n.token = token ∧ n.IsSpelled
  delimiters : sig.delimiters.IsSpelled

structure Draft.IsSpelled (d : Draft) : Prop where
  signature : d.signature.IsSpelled
  assertions : ∀ a ∈ d.assertions, a.IsSpelled

namespace Draft

theorem empty_isSpelled : empty.IsSpelled where
  signature := ⟨nofun, nofun, nofun, ⟨rfl, rfl⟩, fun _ hs => hs.elim nofun nofun⟩
  assertions := nofun

/-- What holds of the new entry and of the others holds of all. -/
theorem forall_insert {α : Type} {r : Registry Name α} {name : Name} {value : α}
    {P : Name → α → Prop} (hnew : P name value) (h : ∀ key v, r.get? key = some v → P key v) :
    ∀ key v, (r.insert name value).get? key = some v → P key v := by
  intro key v hv
  rw [Registry.get?_insert] at hv
  split at hv
  · rename_i he
    cases hv
    exact he ▸ hnew
  · exact h key v hv

theorem IsSpelled.add {d : Draft} {declaration : Declaration} (h : d.IsSpelled)
    (hd : declaration.IsSpelled) : (d.add declaration).IsSpelled := by
  obtain ⟨⟨hsorts, hterms, hnotations, hdelimiters⟩, hassertions⟩ := h
  cases declaration with
  | sort decl =>
    exact ⟨⟨forall_insert ⟨rfl, hd⟩ hsorts, hterms, hnotations, hdelimiters⟩, hassertions⟩
  | term decl =>
    exact ⟨⟨hsorts, forall_insert ⟨rfl, hd⟩ hterms, hnotations, hdelimiters⟩, hassertions⟩
  | notated n =>
    exact ⟨⟨hsorts, hterms, forall_insert ⟨rfl, hd⟩ hnotations, hdelimiters⟩, hassertions⟩
  | delimiters more =>
    refine ⟨⟨hsorts, hterms, hnotations, hdelimiters.strays, fun s hs => ?_⟩, hassertions⟩
    have hmember : (s ∈ d.signature.delimiters.left ∨ s ∈ d.signature.delimiters.right) ∨
        s ∈ more.left ∨ s ∈ more.right := by
      rcases hs with hs | hs
      · exact (StringSet.mem_union.mp hs).imp .inl .inl
      · exact (StringSet.mem_union.mp hs).imp .inr .inr
    exact hmember.elim (hdelimiters.members s) (hd.members s)
  | assertion a =>
    refine ⟨⟨hsorts, hterms, hnotations, hdelimiters⟩, ?_⟩
    exact List.forall_mem_append.mpr ⟨hassertions, List.forall_mem_singleton.mpr hd⟩

end Draft

theorem TheoryParser.run_isSpelled {n : Nat} {p : TheoryParser} {d : Draft}
    (hp : p.draft.IsSpelled) (hs : p.tokens.IsLexical) (h : (run n p).2 = .ok d) : d.IsSpelled := by
  induction n generalizing p with
  | zero =>
    cases h
    exact hp
  | succ n ih =>
    rw [run] at h
    split at h
    · cases h
      exact hp
    · split at h
      · cases h
      · rename_i declaration p₁ hstatement
        obtain ⟨hread, hdraft⟩ := statement_eq_ok_iff.mp hstatement
        obtain ⟨hdeclaration, hs₁⟩ := Declaration.statement_yields _ _ _ _ hs hread
        exact ih (hdraft ▸ hp.add hdeclaration) hs₁ h

structure Theory.IsSpelled (t : Theory) : Prop where
  signature : t.signature.IsSpelled
  assertions : ∀ a ∈ t.assertions, a.IsSpelled

/-- A theory that is read from a text can be written. -/
theorem Theory.parse_isSpelled {text name : String} {t : Theory}
    (h : (parse text name).2 = .ok t) : t.name = name ∧ t.IsSpelled := by
  unfold parse at h
  split at h
  · cases h
  · rename_i s htokens
    dsimp only at h
    obtain ⟨d, hrun, rfl⟩ := map_eq_ok_iff.mp h
    have hd := TheoryParser.run_isSpelled Draft.empty_isSpelled (tokenize_isLexical htokens) hrun
    exact ⟨rfl, hd.signature, hd.assertions⟩

end Deductive
