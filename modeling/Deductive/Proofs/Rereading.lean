import Deductive.Proofs.Declaring
import Deductive.Proofs.Digits
import Deductive.Proofs.TokenReading

/-!
Declarations are read from the tokens that they are written with.
-/
namespace Deductive

open TokenReader

/-! Types, binders and formulas are read under one signature as they are written under another. -/

/-- The formula that is written in the notations of `written` is read back. -/
def Signature.ReadsBack (sig written : Signature) (e : Expr) : Prop :=
  ∀ start, parseMath (" " ++ e.format written ++ " ") sig start = .ok e

def TypeContent.IsReadable (sig written : Signature) : TypeContent → Prop
  | .sort name deps => name.IsWord ∧ ∀ d ∈ deps, d.IsWord
  | .formula e => sig.ReadsBack written e

structure Group.IsReadable (sig written : Signature) (g : Group) : Prop where
  nonempty : g.names ≠ []
  names : ∀ n ∈ g.names, n.IsWord
  type : g.type.IsReadable sig written
  bound : g.bound = true → ∃ name, g.type = .sort name []

/-- What an entry says, but for the place of its type. -/
def BinderEntry.view (b : BinderEntry) : Name × Bool × TypeContent := (b.name, b.bound, b.type.content)

def Group.entries (g : Group) : List (Name × Bool × TypeContent) :=
  g.names.map fun n => (n, g.bound, g.type)

namespace Declaration

variable {sig written : Signature} {rest : List Lexeme} {l : Lexeme}

theorem map_text_of_isWord {ns : List Name} (h : ∀ n ∈ ns, n.IsWord) :
    (ns.map toString).map Name.text = ns := by
  induction ns with
  | nil => rfl
  | cons n ns ih =>
    obtain ⟨⟨s, rfl, _⟩, hns⟩ := List.forall_mem_cons.mp h
    rw [List.map_cons, List.map_cons, ih hns]
    rfl

theorem map_lexeme_eq (ns : List Name) : ns.map Name.lexeme = (ns.map toString).map Lexeme.word :=
  (List.map_map).symm

theorem reads_words {ns : List Name} (h : ∀ n ∈ ns, n.IsWord) (hl : l.1 ≠ .word) :
    Reads words (ns.map Name.lexeme) (l :: rest)
      (fun ts => ts.map (fun t => Name.text t.text) = ns) := by
  rw [map_lexeme_eq]
  refine (Reads.words hl).mono fun ts hts => ?_
  rw [← map_text_of_isWord h, ← hts, List.map_map]
  rfl

theorem reads_formula {e : Expr} {t : Token} (he : sig.ReadsBack written e)
    (ht : t.lexeme = e.lexeme written) : Reads (formula sig t) [] rest (· = e) := by
  intro ts more stop hts _
  obtain rfl := List.map_eq_nil_iff.mp hts
  refine ⟨e, rfl, ?_⟩
  have htext : t.text = " " ++ e.format written ++ " " := Reads.lexeme_text ht
  unfold formula
  rw [htext, he]
  rfl

theorem reads_typeSpec_formula {e : Expr} (he : sig.ReadsBack written e) :
    Reads (typeSpec sig) [e.lexeme written] rest (fun t => t.content = .formula e) := by
  unfold typeSpec
  refine .peek (l := e.lexeme written) (fun t ht => ?_) rfl
  have hkind : t.kind = .math := Reads.lexeme_kind ht
  rw [if_pos hkind]
  refine Reads.advance.cons_bind fun _ _ => ?_
  refine (reads_formula he ht).nil_bind fun e' he' => .pure ?_
  rw [he']

theorem reads_typeSpec {c : TypeContent} (hc : c.IsReadable sig written) (hl : l.1 ≠ .word) :
    Reads (typeSpec sig) (c.lexemes written) (l :: rest) (fun t => t.content = c) := by
  cases c with
  | formula e => exact reads_typeSpec_formula hc
  | sort name deps =>
    obtain ⟨⟨s, rfl, _⟩, hdeps⟩ := hc
    unfold typeSpec
    refine .peek (l := .word s) (fun t ht => ?_) rfl
    rw [if_neg (by simp [Reads.lexeme_kind ht, Lexeme.word])]
    refine Reads.expectWord.cons_bind fun t ht => ?_
    refine (reads_words hdeps hl).last_bind fun ts hts => .pure ?_
    rw [Reads.lexeme_text ht, hts]
    rfl

theorem reads_binderGroup {g : Group} (hg : g.IsReadable sig written) :
    Reads (binderGroup sig) (g.lexemes written) rest (fun es => es.map BinderEntry.view = g.entries) := by
  obtain ⟨names, bound, type⟩ := g
  obtain ⟨hne, hnames, htype, hbound⟩ := hg
  obtain ⟨first, more, rfl⟩ := List.exists_cons_of_ne_nil hne
  obtain ⟨⟨s, rfl, _⟩, hmore⟩ := List.forall_mem_cons.mp hnames
  refine Reads.advance.cons_bind fun opening hopening => ?_
  have hopens : (opening.text == "\x7b") = bound := by
    rw [Reads.lexeme_text hopening]
    cases bound <;> rfl
  rw [hopens]
  refine Reads.expectWord.cons_bind fun first' hfirst' => ?_
  refine (reads_words hmore (by decide)).bind fun more' hmore' => ?_
  refine Reads.expectMark.cons_bind fun _ _ => ?_
  refine (reads_typeSpec htype (by simp [Lexeme.mark])).bind fun type' htype' => ?_
  refine Reads.expectMark.cons_bind fun _ _ => ?_
  change type'.content = type at htype'
  have hentries : ((first' :: more').map fun t => (⟨t.text, bound, type'⟩ : BinderEntry)).map
      BinderEntry.view = Group.entries ⟨.text s :: more, bound, type⟩ := by
    have hview (t : Token) : BinderEntry.view ⟨t.text, bound, type'⟩ = (.text t.text, bound, type) := by
      rw [← htype']
      rfl
    obtain rfl : first'.text = s := Reads.lexeme_text hfirst'
    simp only [Group.entries, List.map_cons, ← hmore', List.map_map, Function.comp_def, hview]
  cases type with
  | formula e =>
    have hfree : bound = false := by
      refine Bool.eq_false_iff.mpr fun hb => ?_
      obtain ⟨_, he⟩ := hbound hb
      cases he
    rw [htype']
    dsimp only
    rw [if_neg (by simp [hfree])]
    exact .pure hentries
  | sort name deps =>
    have hdeps : (bound && !deps.isEmpty) = false := by
      cases bound with
      | false => rfl
      | true =>
        obtain ⟨_, he⟩ := hbound rfl
        cases he
        rfl
    rw [htype']
    dsimp only
    rw [if_neg (by simp [hdeps])]
    exact .pure hentries

theorem reads_binderEntries {gs : List Group} (hgs : ∀ g ∈ gs, g.IsReadable sig written)
    (hl : l ≠ .mark "(" ∧ l ≠ .mark "\x7b") :
    Reads (binderEntries sig) (gs.flatMap (Group.lexemes written)) (l :: rest)
      (fun es => es.map BinderEntry.view = gs.flatMap Group.entries) := by
  have hfirst : ∀ g ∈ gs, ∃ l ls, g.lexemes written = l :: ls ∧
      ∀ t : Token, t.lexeme = l → (t.isMark "(" || t.isMark "\x7b") = true := by
    intro g _
    refine ⟨_, _, rfl, fun t ht => ?_⟩
    have hopening := Reads.isMark_iff.mpr ht
    cases hb : g.bound with
    | true =>
      rw [hb] at hopening
      exact Bool.or_eq_true_iff.mpr (.inr hopening)
    | false =>
      rw [hb] at hopening
      exact Bool.or_eq_true_iff.mpr (.inl hopening)
  have hend : ∀ t : Token, t.lexeme = l → (t.isMark "(" || t.isMark "\x7b") = false := by
    intro t ht
    refine Bool.eq_false_iff.mpr fun htest => ?_
    rcases Bool.or_eq_true _ _ ▸ htest with htest | htest
    · exact hl.1 (ht.symm.trans (Reads.isMark_iff.mp htest))
    · exact hl.2 (ht.symm.trans (Reads.isMark_iff.mp htest))
  have hgroups : Reads _ (gs.flatMap (Group.lexemes written)) (l :: rest) _ :=
    Reads.manyWhile (fun g hg _ => reads_binderGroup (hgs g hg)) hfirst hend
  refine hgroups.last_bind fun groups hgroups => .pure ?_
  rw [List.map_flatten, hgroups, List.flatMap_def]

/-! What the entries are of which binders and hypotheses are made. -/

/-- The view of the entry of a binder. -/
def binderView (b : Binder) : Name × Bool × TypeContent := (b.name, b.bound.holds, .sort b.sort b.deps)

/-- The view of the entry of a hypothesis with a name. -/
def hypothesisView (p : Name × Hypothesis) : Name × Bool × TypeContent :=
  (p.1, false, .formula p.2.formula)

theorem entries_written {binders : List Binder} (h : ∀ b ∈ binders, b.IsSpelled) :
    (Binder.written binders).flatMap Group.entries = binders.map binderView := by
  unfold Binder.written
  induction binders with
  | nil => rfl
  | cons b binders ih =>
    obtain ⟨hb, hbinders⟩ := List.forall_mem_cons.mp h
    have hrest := ih hbinders
    rw [Binder.groups]
    split
    · rename_i names first rest hgroups
      rw [hgroups] at hrest
      have hfirst := (Binder.mem_groups (hgroups ▸ List.mem_cons_self)).1
      split
      · rename_i hsame
        -- The binder joins the group after it, which is of the same type.
        simp only [Binder.sameType, Bool.and_eq_true, decide_eq_true_eq] at hsame
        obtain ⟨⟨hbound, hsort⟩, hdeps⟩ := hsame
        have hbound : b.bound.holds = first.bound.holds := by
          obtain ⟨x, hx, _⟩ := hb.bound
          obtain ⟨y, hy, _⟩ := (hbinders first hfirst).bound
          rw [hx, hy] at hbound ⊢
          cases x <;> cases y <;> first | rfl | cases hbound
        simp only [List.map_cons, List.flatMap_cons] at hrest ⊢
        rw [← hrest, hbound, hsort, hdeps]
        simp [Group.entries, binderView, hbound, hsort, hdeps]
      · rw [List.map_cons, List.flatMap_cons, hrest]
        rfl
    · rename_i hgroups
      rw [hgroups] at hrest
      change _ = binderView b :: binders.map binderView
      rw [← hrest]
      rfl

theorem reads_sortedBinders {es : List BinderEntry} {binders : List Binder}
    (h : ∀ b ∈ binders, b.IsSpelled) (hes : es.map BinderEntry.view = binders.map binderView) :
    Reads (sortedBinders es) [] rest (· = binders) := by
  induction binders generalizing es with
  | nil =>
    obtain rfl := List.map_eq_nil_iff.mp hes
    exact .pure rfl
  | cons b binders ih =>
    obtain ⟨hb, hbinders⟩ := List.forall_mem_cons.mp h
    obtain ⟨e, es, rfl, he, hothers⟩ := List.map_eq_cons_iff.mp hes
    obtain ⟨name, range, bound, deps⟩ := b
    obtain ⟨name', bound', type, place⟩ := e
    simp only [BinderEntry.view, binderView, Prod.mk.injEq] at he
    obtain ⟨rfl, hbound, rfl⟩ := he
    obtain ⟨x, hx, _⟩ := hb.bound
    obtain rfl : bound = .bool x := hx
    obtain rfl : bound' = x := hbound
    rw [sortedBinders]
    refine Reads.nil_bind (P := (· = (range, deps))) (.pure rfl) fun _ hrange => ?_
    subst hrange
    refine (ih hbinders hothers).nil_bind fun more hmore => .pure ?_
    rw [hmore]

/-- The binder, if any, that an entry with such a view stands for. -/
def binderOf? (v : Name × Bool × TypeContent) : Option Binder :=
  match v.2.2 with
  | .sort range deps => some ⟨v.1, range, v.2.1, deps⟩
  | .formula _ => none

def hypothesisOf? (v : Name × Bool × TypeContent) : Option Hypothesis :=
  match v.2.2 with
  | .sort _ _ => none
  | .formula e => some ⟨some v.1, e⟩

theorem entryBinders_eq {es : List BinderEntry} {binders : List Binder}
    {hypotheses : List (Name × Hypothesis)} (h : ∀ b ∈ binders, b.IsSpelled)
    (hes : es.map BinderEntry.view = binders.map binderView ++ hypotheses.map hypothesisView) :
    entryBinders es = binders := by
  have hview : entryBinders es = (es.map BinderEntry.view).filterMap binderOf? := by
    rw [List.filterMap_map]
    rfl
  have hbinders : (binders.map binderView).filterMap binderOf? = binders := by
    have hsome : ∀ b ∈ binders, (binderOf? ∘ binderView) b = some (id b) := by
      intro b hb
      obtain ⟨x, hx, _⟩ := (h b hb).bound
      obtain ⟨name, range, bound, deps⟩ := b
      obtain rfl : bound = .bool x := hx
      rfl
    rw [List.filterMap_map, List.filterMap_eq_map_iff_forall_eq_some.mpr hsome, List.map_id]
  have hothers : (hypotheses.map hypothesisView).filterMap binderOf? = [] := by
    rw [List.filterMap_map, List.filterMap_eq_nil_iff]
    exact fun _ _ => rfl
  rw [hview, hes, List.filterMap_append, hbinders, hothers, List.append_nil]

theorem entryHypotheses_eq {es : List BinderEntry} {binders : List Binder}
    {hypotheses : List (Name × Hypothesis)} (h : ∀ p ∈ hypotheses, p.2.name = some p.1)
    (hes : es.map BinderEntry.view = binders.map binderView ++ hypotheses.map hypothesisView) :
    entryHypotheses es = hypotheses.map Prod.snd := by
  have hview : entryHypotheses es = (es.map BinderEntry.view).filterMap hypothesisOf? := by
    rw [List.filterMap_map]
    rfl
  have hbinders : (binders.map binderView).filterMap hypothesisOf? = [] := by
    rw [List.filterMap_map, List.filterMap_eq_nil_iff]
    exact fun _ _ => rfl
  have hothers : (hypotheses.map hypothesisView).filterMap hypothesisOf? =
      hypotheses.map Prod.snd := by
    rw [List.filterMap_map]
    refine List.filterMap_eq_map_iff_forall_eq_some.mpr fun p hp => ?_
    obtain ⟨label, name, formula⟩ := p
    obtain rfl : name = some label := h _ hp
    rfl
  rw [hview, hes, List.filterMap_append, hbinders, hothers, List.nil_append]

/-! Statements. -/

theorem not_word_of_arrows (es : List Expr) (rest : List Lexeme) (hl : l.1 ≠ .word) :
    ∃ l' rest', (es.flatMap fun e => [Lexeme.mark ">", e.lexeme written]) ++ l :: rest = l' :: rest' ∧
      l'.1 ≠ .word := by
  cases es with
  | nil => exact ⟨l, rest, rfl, hl⟩
  | cons e es => exact ⟨.mark ">", _, rfl, by simp [Lexeme.mark]⟩

theorem arrowType_contents (first : TypeSpec) (more : List TypeSpec) :
    (ArrowType.ofList first more).arguments.map TypeSpec.content ++
      [(ArrowType.ofList first more).result.content] = (first :: more).map TypeSpec.content := by
  induction more generalizing first with
  | nil => rfl
  | cons t ts ih => exact congrArg (first.content :: ·) (ih t)

theorem reads_arrowType {c : TypeContent} (es : List Expr) (hc : c.IsReadable sig written)
    (hes : ∀ e ∈ es, sig.ReadsBack written e) (hl : l.1 ≠ .word) (harrow : l ≠ .mark ">") :
    Reads (arrowType sig)
      (c.lexemes written ++ es.flatMap fun e => [.mark ">", e.lexeme written]) (l :: rest)
      (fun a => a.arguments.map TypeSpec.content ++ [a.result.content] = c :: es.map .formula) := by
  unfold arrowType
  have hfirst : Reads (typeSpec sig) (c.lexemes written)
      ((es.flatMap fun e => [.mark ">", e.lexeme written]) ++ l :: rest) (fun t => t.content = c) := by
    obtain ⟨l', rest', hnext, hl'⟩ := not_word_of_arrows es rest hl
    rw [hnext]
    exact reads_typeSpec hc hl'
  refine hfirst.bind fun first hfirst => ?_
  have hitem : ∀ e ∈ es, ∀ rest, Reads (do let _ ← advance; typeSpec sig)
      [.mark ">", e.lexeme written] rest (fun t => t.content = .formula e) := fun e he _ =>
    Reads.advance.cons_bind fun _ _ => reads_typeSpec_formula (hes e he)
  have hbegins : ∀ e ∈ es, ∃ l ls, [Lexeme.mark ">", e.lexeme written] = l :: ls ∧
      ∀ t : Token, t.lexeme = l → t.isMark ">" = true := fun e _ =>
    ⟨_, _, rfl, fun _ => Reads.isMark_iff.mpr⟩
  have hend : ∀ t : Token, t.lexeme = l → t.isMark ">" = false := fun t ht =>
    Bool.eq_false_iff.mpr fun htest => harrow (ht.symm.trans (Reads.isMark_iff.mp htest))
  have hmore : Reads (manyWhile (·.isMark ">") (do let _ ← advance; typeSpec sig))
      (es.flatMap fun e => [.mark ">", e.lexeme written]) (l :: rest)
      (fun ts => ts.map TypeSpec.content = es.map .formula) := Reads.manyWhile hitem hbegins hend
  refine hmore.last_bind fun more hmore => .pure ?_
  rw [arrowType_contents, List.map_cons, hfirst, hmore]

theorem reads_statementOf {kind : AssertionKind} {label : String} {t : TypeSpec} {e : Expr}
    (ht : t.content = .formula e) : Reads (statementOf kind label t) [] rest (· = e) := by
  unfold statementOf
  rw [ht]
  exact .pure rfl

theorem reads_sortOf {cause : ParseCause} {t : TypeSpec} {name : SortName} {deps : List Name}
    (ht : t.content = .sort name deps) : Reads (sortOf cause t) [] rest (· = (name, deps)) := by
  unfold sortOf
  rw [ht]
  exact .pure rfl

theorem reads_arrowHypotheses {kind : AssertionKind} {label : String} {ts : List TypeSpec}
    {hs : List Hypothesis} (hnone : ∀ h ∈ hs, h.name = none)
    (hts : ts.map TypeSpec.content = hs.map fun h => .formula h.formula) :
    Reads (arrowHypotheses kind label ts) [] rest (· = hs) := by
  induction hs generalizing ts with
  | nil =>
    obtain rfl := List.map_eq_nil_iff.mp hts
    exact .pure rfl
  | cons h hs ih =>
    obtain ⟨hh, hhs⟩ := List.forall_mem_cons.mp hnone
    obtain ⟨t, ts, rfl, ht, hothers⟩ := List.map_eq_cons_iff.mp hts
    rw [arrowHypotheses]
    refine (reads_statementOf ht).nil_bind fun e he => ?_
    refine (ih hhs hothers).nil_bind fun more hmore => .pure ?_
    obtain ⟨name, formula⟩ := h
    obtain rfl : name = none := hh
    rw [he, hmore]

/-- A modifier that is not among those before it. -/
theorem reads_modifier {n : Nat} {m modifier : SortModifiers} {s : String} {ls : List Lexeme}
    {P : SortModifiers → Prop} (hs : SortModifiers.ofKeyword? s = some modifier)
    (hnew : m.union modifier ≠ m) (h : Reads (modifierRun n (m.union modifier)) ls rest P) :
    Reads (modifierRun (n + 1) m) (.word s :: ls) rest P := by
  rw [modifierRun]
  refine .peek (l := .word s) (fun t ht => ?_) rfl
  rw [if_pos (Reads.isWord_iff.mpr (Reads.lexeme_kind ht)), Reads.lexeme_text ht]
  simp only [Lexeme.word, hs]
  refine Reads.advance.cons_bind fun _ _ => ?_
  rw [if_neg hnew]
  exact h

theorem reads_modifiers_end {n : Nat} {m : SortModifiers} :
    Reads (modifierRun (n + 1) m) [] (.word "sort" :: rest) (· = m) := by
  rw [modifierRun]
  refine .peek (l := .word "sort") (fun t ht => ?_) rfl
  rw [Reads.lexeme_text ht]
  have hnone : (if t.isWord then SortModifiers.ofKeyword? "sort" else none) = none := by
    split <;> rfl
  simp only [Lexeme.word, hnone]
  exact .pure rfl

theorem reads_modifiers (m : SortModifiers) :
    Reads modifiers (m.keywords.map Lexeme.word) (.word "sort" :: rest) (· = m) := by
  unfold modifiers
  obtain ⟨closed, strict, provable, free⟩ := m
  cases closed <;> cases strict <;> cases provable <;> cases free <;>
    repeat first
      | exact reads_modifiers_end
      | refine reads_modifier rfl (by decide) ?_

theorem reads_sortStatement {decl : SortDecl} (hname : decl.name.IsWord)
    (hnew : sig.sorts.contains decl.name = false) :
    Reads (sortStatement sig) decl.lexemes rest (· = .sort decl) := by
  obtain ⟨name, modifiers⟩ := decl
  obtain ⟨s, rfl, _⟩ := hname
  unfold sortStatement
  refine (reads_modifiers modifiers).bind fun modifiers' hmodifiers => ?_
  refine Reads.expectKeyword.cons_bind fun _ _ => ?_
  refine Reads.expectWord.cons_bind fun name' hname' => ?_
  refine Reads.expectMark.cons_bind fun _ _ => ?_
  obtain rfl : name'.text = s := Reads.lexeme_text hname'
  rw [if_neg (by simp [hnew]), hmodifiers]
  exact .pure rfl

/-- Binders are readable in the groups in which they are written. -/
theorem written_isReadable {binders : List Binder} (h : ∀ b ∈ binders, b.IsSpelled) :
    ∀ g ∈ Binder.written binders, g.IsReadable sig written := by
  intro g hg
  obtain ⟨⟨names, b⟩, hmem, rfl⟩ := List.mem_map.mp hg
  obtain ⟨hb, hnames⟩ := Binder.mem_groups hmem
  have hspelled := h b hb
  refine ⟨Binder.groups_nonempty hmem, fun n hn => ?_, ⟨hspelled.sort, hspelled.deps⟩, fun hbound => ?_⟩
  · obtain ⟨b', hb', rfl⟩ := hnames n hn
    exact (h b' hb').name
  · obtain ⟨x, hx, hdeps⟩ := hspelled.bound
    change b.bound.holds = true at hbound
    rw [hx] at hbound
    exact ⟨b.sort, congrArg (TypeContent.sort b.sort) (hdeps hbound)⟩

theorem reads_newTerm {name : Token} {decl : TermDecl} {s : String} (hs : name.text = s)
    (hnew : sig.terms.contains s = false) : Reads (newTerm sig name decl) [] rest (· = .term decl) := by
  unfold newTerm
  rw [if_neg (by simp [hs, hnew])]
  exact .pure rfl

theorem reads_termStatement {t : TermDecl} (h : t.IsSpelled) (hterm : t.isDef.holds = false)
    (hnew : sig.terms.contains t.name = false) :
    Reads (termStatement sig) (t.lexemes written) rest (· = .term t) := by
  obtain ⟨name, binders, range, deps, isDef, body⟩ := t
  obtain ⟨x, hisDef, hbody⟩ := h.isDef
  obtain rfl : isDef = .bool x := hisDef
  obtain rfl : x = false := hterm
  obtain rfl : body = none := hbody rfl
  obtain ⟨s, rfl, _⟩ := h.name
  have htype : TypeContent.IsReadable sig written (.sort range deps) := ⟨h.resultSort, h.resultDeps⟩
  unfold termStatement
  refine Reads.advance.cons_bind fun _ _ => ?_
  refine Reads.expectWord.cons_bind fun name hname => ?_
  refine (reads_binderEntries (l := .mark ":") (written_isReadable h.binders) (by decide)).bind
    fun es hes => ?_
  refine (reads_sortedBinders h.binders (hes.trans (entries_written h.binders))).nil_bind
    fun binders' hbinders => ?_
  refine Reads.expectMark.cons_bind fun _ _ => ?_
  have harrow : Reads (arrowType sig) ((range :: deps).map Name.lexeme) (.mark ";" :: rest)
      (fun a => a.arguments = [] ∧ a.result.content = .sort range deps) := by
    have hread : Reads _ _ (.mark ";" :: rest) _ :=
      reads_arrowType [] htype nofun (by decide) (by decide)
    rw [List.flatMap_nil, List.append_nil] at hread
    refine hread.mono fun a ha => ?_
    change _ = [] ++ [TypeContent.sort range deps] at ha
    obtain ⟨harguments, hresult⟩ := List.append_inj' ha rfl
    exact ⟨List.map_eq_nil_iff.mp harguments, (List.cons.inj hresult).1⟩
  refine harrow.bind fun arrow harrow => ?_
  rw [harrow.1]
  refine Reads.nil_bind (P := (· = [])) (.pure rfl) fun _ harguments => ?_
  refine (reads_sortOf harrow.2).nil_bind fun _ hresult => ?_
  refine Reads.expectMark.cons_bind fun _ _ => ?_
  subst harguments hresult hbinders
  have hname : name.text = s := Reads.lexeme_text hname
  simp only [List.append_nil, hname]
  exact reads_newTerm hname hnew

theorem reads_definitionBody {body : Option Expr} (hbody : ∀ e ∈ body, sig.ReadsBack written e)
    (hl : l ≠ .mark "=") :
    Reads (definitionBody sig) (bodyLexemes written body) (l :: rest) (· = body) := by
  unfold definitionBody
  cases body with
  | none =>
    refine .peek (l := l) (fun t ht => ?_) rfl
    rw [if_neg fun htest => hl (ht.symm.trans (Reads.isMark_iff.mp htest))]
    exact .pure rfl
  | some e =>
    refine .peek (l := .mark "=") (fun t ht => ?_) rfl
    rw [if_pos (Reads.isMark_iff.mpr ht)]
    refine Reads.advance.cons_bind fun _ _ => ?_
    refine Reads.expectMath.cons_bind fun math hmath => ?_
    refine (reads_formula (hbody e rfl) hmath).nil_bind fun _ he => .pure ?_
    rw [he]

theorem reads_definitionStatement {t : TermDecl} (h : t.IsSpelled) (hdef : t.isDef.holds = true)
    (hnew : sig.terms.contains t.name = false) (hbody : ∀ e ∈ t.body, sig.ReadsBack written e) :
    Reads (definitionStatement sig) (t.lexemes written) rest (· = .term t) := by
  obtain ⟨name, binders, range, deps, isDef, body⟩ := t
  obtain ⟨x, hisDef, _⟩ := h.isDef
  obtain rfl : isDef = .bool x := hisDef
  obtain rfl : x = true := hdef
  obtain ⟨s, rfl, _⟩ := h.name
  have htype : TypeContent.IsReadable sig written (.sort range deps) := ⟨h.resultSort, h.resultDeps⟩
  unfold definitionStatement
  refine Reads.advance.cons_bind fun _ _ => ?_
  refine Reads.expectWord.cons_bind fun name hname => ?_
  refine (reads_binderEntries (l := .mark ":") (written_isReadable h.binders) (by decide)).bind
    fun es hes => ?_
  refine (reads_sortedBinders h.binders (hes.trans (entries_written h.binders))).nil_bind
    fun binders' hbinders => ?_
  refine Reads.expectMark.cons_bind fun _ _ => ?_
  have hread : Reads (typeSpec sig) ((range :: deps).map Name.lexeme)
      (bodyLexemes written body ++ [.mark ";"] ++ rest)
      (fun t => t.content = .sort range deps) := by
    cases body with
    | none => exact reads_typeSpec htype (by simp [Lexeme.mark])
    | some e => exact reads_typeSpec htype (by simp [Lexeme.mark])
  refine hread.bind fun type htype => ?_
  refine (reads_sortOf htype).nil_bind fun _ hresult => ?_
  refine (reads_definitionBody (l := .mark ";") hbody (by decide)).bind fun _ hbody' => ?_
  refine Reads.expectMark.cons_bind fun _ _ => ?_
  subst hresult hbinders hbody'
  have hname : name.text = s := Reads.lexeme_text hname
  rw [hname]
  exact reads_newTerm hname hnew

theorem strip_math {s : String} (hne : s.toList ≠ []) (hs : ∀ c ∈ s.toList, Text.isBlank c = false) :
    Text.strip (" " ++ s ++ " ") = s := by
  have hhead : ∀ cs : List Char, cs ≠ [] → (∀ c ∈ cs, Text.isBlank c = false) → ∀ ds,
      (' ' :: (cs ++ ds)).dropWhile Text.isBlank = cs ++ ds := by
    intro cs hcs hsolid ds
    obtain ⟨c, cs, rfl⟩ := List.exists_cons_of_ne_nil hcs
    have hc := hsolid c List.mem_cons_self
    rw [List.dropWhile_cons_of_pos (by decide), List.cons_append,
      List.dropWhile_cons_of_neg (by simp [hc])]
  have htext : (" " ++ s ++ " ").toList = ' ' :: (s.toList ++ [' ']) := by simp
  have hlast := hhead s.toList.reverse (by simpa using hne) (by simpa using hs) []
  rw [Text.strip, Text.trim, htext, hhead s.toList hne hs [' '], List.reverse_append]
  simp only [List.append_nil] at hlast
  rw [List.reverse_singleton, List.singleton_append, hlast, List.reverse_reverse,
    String.ofList_toList]

theorem decimalOf_toString {n : Nat} (hn : n < 65536) :
    Text.ofDigits ((toString (n : Int)).toList.map fun c => c.toNat - '0'.toNat) = n ∧
      ((toString (n : Int)).toList.map fun c => c.toNat - '0'.toNat).length ≤ Text.maxDigits := by
  have hdigits : (toString (n : Int)).toList = Nat.toDigits 10 n := Nat.toList_repr
  rw [hdigits, List.length_map]
  constructor
  · exact Text.ofDigits_toDigits n
  · have hlength : (Nat.toDigits 10 n).length ≤ 5 :=
      (Nat.length_toDigits_le_iff (by decide) (by decide)).mpr (Nat.lt_trans hn (by decide))
    exact Nat.le_trans hlength (by decide)

theorem reads_precedence {prec : Int} (h : 0 ≤ prec ∧ prec ≤ maxPrec) :
    Reads precedence [if prec = maxPrec then .word "max" else (.number, toString prec)] rest
      (fun written => ∀ place rest, Reads (levelOf place written) [] rest (· = prec)) := by
  unfold precedence
  by_cases hmax : prec = maxPrec
  · rw [if_pos hmax]
    refine Reads.advance.last_bind fun t ht => ?_
    rw [if_neg (by simp [Reads.lexeme_kind ht, Lexeme.word]),
      if_pos (Reads.isKeyword_iff.mpr ht)]
    exact .pure fun _ _ => .pure hmax.symm
  · rw [if_neg hmax]
    obtain ⟨n, rfl⟩ := Int.eq_ofNat_of_zero_le h.1
    have hn : n < 65536 := by
      have : (n : Int) ≤ 65536 := h.2
      have : (n : Int) ≠ 65536 := hmax
      omega
    obtain ⟨hvalue, hlength⟩ := decimalOf_toString hn
    refine Reads.advance.last_bind fun t ht => ?_
    have hkind : t.kind = .number := Reads.lexeme_kind ht
    have htext : t.text = toString (n : Int) := Reads.lexeme_text ht
    rw [if_pos hkind]
    have hdecimal : ∀ rest, Reads (decimalOf t) [] rest (· = n) := by
      intro rest
      unfold decimalOf
      dsimp only
      rw [htext, if_neg (Nat.not_lt.mpr hlength), hvalue]
      exact .pure rfl
    refine (hdecimal _).nil_bind fun n' hn' => .pure fun place rest => ?_
    subst hn'
    unfold levelOf
    dsimp only
    rw [if_neg (Int.not_le.mpr (by change (n' : Int) < 65536; omega))]
    exact .pure rfl

theorem reads_notationStatement {n : Notation} (h : n.IsSpelled)
    (hnew : sig.notations.contains n.token = false) :
    Reads (notationStatement sig n.fixity) n.lexemes rest (· = .notated n) := by
  obtain ⟨term, token, fixity, prec⟩ := n
  obtain ⟨s, rfl, hne, hsolid⟩ := h.token
  obtain ⟨f, rfl, _⟩ := h.term
  have hblank : ∀ c ∈ s.toList, Text.isBlank c = false := fun c hc => (hsolid c hc).1
  unfold notationStatement
  refine Reads.advance.cons_bind fun _ _ => ?_
  refine Reads.expectWord.cons_bind fun term hterm => ?_
  refine Reads.expectMark.cons_bind fun _ _ => ?_
  refine Reads.expectMath.cons_bind fun math hmath => ?_
  have htoken : Text.strip math.text = s := by
    rw [Reads.lexeme_text hmath]
    exact strip_math hne hblank
  have hword : (s.isEmpty || s.toList.any Text.isBlank) = false := by
    rw [Bool.or_eq_false_iff]
    refine ⟨?_, ?_⟩
    · simpa using hne
    · simpa using hblank
  dsimp only
  rw [htoken, if_neg (by simp [hword])]
  refine Reads.expectKeyword.cons_bind fun _ _ => ?_
  refine .peek (fun level hlevel => ?_) rfl
  refine (reads_precedence h.prec).cons_bind fun written hwritten => ?_
  refine Reads.expectMark.cons_bind fun _ _ => ?_
  rw [if_neg (by simp [hnew])]
  refine (hwritten _ _).nil_bind fun prec' hprec => .pure ?_
  rw [hprec, Reads.lexeme_text hterm]
  rfl

/-- Of the characters in the text of single characters one finds the same set. -/
theorem charsOf_math {t : StringSet} (h : ∀ s ∈ t.toList, ∃ c, s = String.singleton c ∧
    Text.isBlank c = false) :
    Delimiters.charsOf (" " ++ joinNames (t.toList.map Name.text) ++ " ") = t := by
  apply StringSet.ext
  intro s
  have htext : (" " ++ joinNames (t.toList.map Name.text) ++ " ").toList =
      ' ' :: ((joinNames (t.toList.map Name.text)).toList ++ [' ']) := by simp
  have hwords : (t.toList.map Name.text).map toString = t.toList := by
    rw [List.map_map]
    exact List.map_id _
  rw [Delimiters.charsOf, StringSet.mem_ofList, htext, joinNames, hwords, List.mem_map]
  constructor
  · rintro ⟨c, hc, rfl⟩
    rw [List.mem_filter, Bool.not_eq_true'] at hc
    obtain ⟨hmem, hblank⟩ := hc
    have hspace : c ≠ ' ' := by
      rintro rfl
      cases hblank
    have hinner : c ∈ (joinWords t.toList).toList := by simpa [hspace] using hmem
    rcases mem_joinWords hinner with rfl | ⟨w, hw, hcw⟩
    · exact absurd rfl hspace
    · obtain ⟨c', rfl, _⟩ := h w hw
      rw [String.toList_singleton, List.mem_singleton] at hcw
      rw [hcw]
      exact hw
  · intro hs
    obtain ⟨c, rfl, hblank⟩ := h s hs
    refine ⟨c, List.mem_filter.mpr ⟨?_, by simp [hblank]⟩, rfl⟩
    have hinner : c ∈ (joinWords t.toList).toList :=
      mem_joinWords_of_mem hs (by simp [String.toList_singleton])
    simp [hinner]

theorem reads_delimiterStatement {d : Delimiters} (h : d.IsSpelled) :
    Reads delimiterStatement d.lexemes rest (· = .delimiters d) := by
  obtain ⟨left, right, strayLeft, strayRight⟩ := d
  obtain ⟨hl, hr⟩ := h.members_eq
  obtain ⟨rfl, rfl⟩ := h.strays
  have hmember {t : StringSet} (ht : ∀ s ∈ t.toList, s ∈ left ∨ s ∈ right) : ∀ s ∈ t.toList,
      ∃ c, s = String.singleton c ∧ Text.isBlank c = false := by
    intro s hs
    obtain ⟨c, hc, hblank, _⟩ := h.members s (ht s hs)
    exact ⟨c, hc, hblank⟩
  have hleft := charsOf_math (hmember fun s hs => .inl hs)
  have hright := charsOf_math (hmember fun s hs => .inr hs)
  unfold delimiterStatement Delimiters.lexemes
  rw [hl, hr]
  dsimp only
  refine Reads.advance.cons_bind fun _ _ => ?_
  refine Reads.expectMath.cons_bind fun l hltext => ?_
  have hlchars : Delimiters.charsOf l.text = left := by
    rw [Reads.lexeme_text hltext]
    exact hleft
  by_cases hsame : left.toList.map Name.text = right.toList.map Name.text
  · rw [if_pos hsame, List.nil_append]
    refine .peek (l := .mark ";") (fun t ht => ?_) rfl
    rw [if_neg (by simp [Reads.lexeme_kind ht, Lexeme.mark])]
    refine Reads.nil_bind (P := (· = l)) (.pure rfl) fun _ he => ?_
    refine Reads.expectMark.cons_bind fun _ _ => .pure ?_
    rw [he, hlchars]
    have : Delimiters.charsOf l.text = right := by
      rw [Reads.lexeme_text hltext, Lexeme.math, hsame]
      exact hright
    rw [← this, hlchars]
  · rw [if_neg hsame, List.singleton_append]
    refine .peek (fun t ht => ?_) rfl
    have hkind : t.kind = .math := Reads.lexeme_kind ht
    rw [if_pos hkind]
    refine Reads.expectMath.cons_bind fun r hrtext => ?_
    refine Reads.expectMark.cons_bind fun _ _ => .pure ?_
    have hrchars : Delimiters.charsOf r.text = right := by
      rw [Reads.lexeme_text hrtext]
      exact hright
    rw [hlchars, hrchars]

theorem intercalate_arrows (e : Expr) (es : List Expr) :
    [Lexeme.mark ">"].intercalate ((e :: es).map fun e => [e.lexeme written]) =
      e.lexeme written :: es.flatMap fun e => [.mark ">", e.lexeme written] := by
  induction es generalizing e with
  | nil => simp
  | cons e' es ih =>
    simp only [List.map_cons, List.intercalate_cons_cons] at ih ⊢
    rw [ih e']
    rfl

/-- Where hypotheses with names come first, they are those that are written with their labels. -/
theorem labelled_hypotheses {named arrows : List Hypothesis} {i : Nat}
    (h : ∀ h ∈ named, ∃ n, h.name = some n ∧ n.IsWord) :
    ((hypothesisLabels i (named ++ arrows)).zip named).map Prod.snd = named := by
  induction named generalizing i with
  | nil => simp
  | cons h₀ named ih =>
    obtain ⟨⟨n, hn, _⟩, hnamed⟩ := List.forall_mem_cons.mp h
    rw [List.cons_append, hypothesisLabels, List.zip_cons_cons, List.map_cons, ih hnamed]

/-- The groups of hypotheses under their labels. -/
theorem labelled_isReadable {labelled : List (Name × Hypothesis)}
    (hwords : ∀ p ∈ labelled, p.1.IsWord) (hformulas : ∀ p ∈ labelled, sig.ReadsBack written p.2.formula) :
    ∀ g ∈ labelled.map fun p => p.2.written p.1, g.IsReadable sig written := by
  intro g hg
  obtain ⟨p, hp, rfl⟩ := List.mem_map.mp hg
  exact ⟨List.cons_ne_nil _ _, List.forall_mem_singleton.mpr (hwords p hp), hformulas p hp, nofun⟩

theorem entries_labelled (labelled : List (Name × Hypothesis)) :
    (labelled.map fun p => p.2.written p.1).flatMap Group.entries = labelled.map hypothesisView := by
  rw [List.flatMap_map]
  exact List.map_eq_flatMap.symm

/-- The formulas between the arrows, and the conclusion after them. -/
theorem reads_statements {arrows : List Hypothesis} {conclusion : Expr}
    (h : ∀ e ∈ arrows.map Hypothesis.formula ++ [conclusion], sig.ReadsBack written e) :
    Reads (arrowType sig) ([.mark ">"].intercalate
        ((arrows.map Hypothesis.formula ++ [conclusion]).map fun e => [e.lexeme written]))
      (.mark ";" :: rest) (fun a => a.arguments.map TypeSpec.content =
        arrows.map (fun h => .formula h.formula) ∧ a.result.content = .formula conclusion) := by
  obtain ⟨first, others, hlist⟩ := List.exists_cons_of_ne_nil
    (List.append_ne_nil_of_right_ne_nil (arrows.map Hypothesis.formula) (List.cons_ne_nil conclusion []))
  rw [hlist] at h
  obtain ⟨hfirst, hothers⟩ := List.forall_mem_cons.mp h
  rw [hlist, intercalate_arrows]
  refine (reads_arrowType (c := .formula first) others hfirst hothers (by decide) (by decide)).mono
    fun a ha => ?_
  change _ = (first :: others).map TypeContent.formula at ha
  rw [← hlist, List.map_append, List.map_map] at ha
  obtain ⟨harguments, hresult⟩ := List.append_inj' ha rfl
  exact ⟨harguments, (List.cons.inj hresult).1⟩

theorem reads_assertionStatement {a : Assertion} (h : a.IsSpelled)
    (hformulas : ∀ e ∈ a.formulas, sig.ReadsBack written e) :
    Reads (assertionStatement sig a.kind) (a.lexemes written) rest (· = .assertion a) := by
  obtain ⟨kind, label, binders, hypotheses, conclusion⟩ := a
  obtain ⟨named, arrows, hhyps, hnamed, harrows⟩ := h.hypotheses
  obtain rfl : hypotheses = named ++ arrows := hhyps
  obtain ⟨s, rfl, _⟩ := h.label
  have hsplit := splitNamed_append hnamed harrows
  obtain ⟨labelled, hlabelled⟩ : ∃ labelled, labelled =
      (hypothesisLabels 1 (named ++ arrows)).zip named := ⟨_, rfl⟩
  have hzip : ∀ p ∈ labelled, p.2 ∈ named ∧ p.2.name = some p.1 ∧ p.1.IsWord := by
    rw [hlabelled]
    exact hypothesisLabels_zip hnamed
  have hfirst : labelled.map Prod.snd = named := by
    rw [hlabelled]
    exact labelled_hypotheses hnamed
  simp only [Assertion.formulas, List.map_append, List.append_assoc] at hformulas
  obtain ⟨hlabels, hstatements⟩ := List.forall_mem_append.mp hformulas
  have hgroups : ∀ g ∈ Binder.written binders ++ labelled.map fun p => p.2.written p.1,
      g.IsReadable sig written :=
    List.forall_mem_append.mpr ⟨written_isReadable h.binders,
      labelled_isReadable (fun p hp => (hzip p hp).2.2)
        fun p hp => hlabels _ (List.mem_map_of_mem (hzip p hp).1)⟩
  unfold assertionStatement Assertion.lexemes
  dsimp only
  rw [hsplit]
  dsimp only [Assertion.hypothesisLabels]
  rw [← hlabelled]
  refine Reads.advance.cons_bind fun _ _ => ?_
  refine Reads.expectWord.cons_bind fun label hlabel => ?_
  refine (reads_binderEntries (l := .mark ":") hgroups (by decide)).bind fun es hes => ?_
  refine Reads.expectMark.cons_bind fun _ _ => ?_
  refine (reads_statements hstatements).bind fun arrow harrow => ?_
  refine (reads_arrowHypotheses harrows harrow.1).nil_bind fun more hmore => ?_
  refine (reads_statementOf harrow.2).nil_bind fun result hresult => ?_
  refine Reads.expectMark.cons_bind fun _ _ => .pure ?_
  rw [List.flatMap_append, entries_written h.binders, entries_labelled] at hes
  rw [hmore, hresult, entryBinders_eq h.binders hes,
    entryHypotheses_eq (fun p hp => (hzip p hp).2.1) hes, hfirst, Reads.lexeme_text hlabel]
  rfl

/-- What a declaration needs to be read under the signature when it is written under another. -/
def IsReadable (sig written : Signature) (d : Declaration) : Prop :=
  (∀ e ∈ d.formulas, sig.ReadsBack written e) ∧
    match d with
    | .sort decl => sig.sorts.contains decl.name = false
    | .term t => sig.terms.contains t.name = false
    | .notated n => sig.notations.contains n.token = false
    | .delimiters _ => True
    | .assertion _ => True

theorem sort_begins (decl : SortDecl) : ∃ k ls, decl.lexemes = .word k :: ls ∧
    (k = "sort" || (SortModifiers.ofKeyword? k).isSome) = true := by
  obtain ⟨name, closed, strict, provable, free⟩ := decl
  cases closed <;> cases strict <;> cases provable <;> cases free <;>
    exact ⟨_, _, rfl, by decide⟩

theorem reads_statement {d : Declaration} (h : d.IsSpelled) (hd : d.IsReadable sig written) :
    Reads (statement sig) (d.lexemes written) rest (· = d) := by
  obtain ⟨hformulas, hnew⟩ := hd
  have hword {t : Token} {k : String} (ht : t.lexeme = .word k) : ¬ (!t.isWord) = true := by
    simp [Reads.isWord_iff.mpr (Reads.lexeme_kind ht)]
  unfold statement
  cases d with
  | sort decl =>
    obtain ⟨k, ls, hbegins, hkeyword⟩ := sort_begins decl
    refine .peek (l := .word k) (fun t ht => ?_) (congrArg (· ++ rest) hbegins)
    rw [if_neg (hword ht), if_pos (by rw [Reads.lexeme_text ht]; exact hkeyword)]
    exact reads_sortStatement h hnew
  | term decl =>
    refine .peek (fun t ht => ?_) rfl
    have htext : t.text = if decl.isDef.holds then "def" else "term" := Reads.lexeme_text ht
    rw [if_neg (hword ht)]
    cases hdef : decl.isDef.holds with
    | true =>
      rw [hdef, if_pos rfl] at htext
      rw [htext, if_neg (by decide), if_neg (by decide), if_pos rfl]
      exact reads_definitionStatement h hdef hnew fun e he => hformulas e (Option.mem_toList.mpr he)
    | false =>
      rw [hdef, if_neg Bool.false_ne_true] at htext
      rw [htext, if_neg (by decide), if_pos rfl]
      exact reads_termStatement h hdef hnew
  | notated n =>
    refine .peek (fun t ht => ?_) rfl
    have htext : t.text = n.fixity.keyword := Reads.lexeme_text ht
    have hother : (n.fixity.keyword = "sort" ||
        (SortModifiers.ofKeyword? n.fixity.keyword).isSome) = false ∧ n.fixity.keyword ≠ "term" ∧
        n.fixity.keyword ≠ "def" ∧ n.fixity.keyword ≠ "delimiter" ∧
        AssertionKind.ofKeyword? n.fixity.keyword = none := by
      cases n.fixity <;> decide
    have hfixity : Fixity.ofKeyword? n.fixity.keyword = some n.fixity := by
      cases n.fixity <;> rfl
    obtain ⟨hsort, hterm, hdef, hdelimiter, hkind⟩ := hother
    rw [if_neg (hword ht), htext, if_neg (by simp [hsort]), if_neg hterm, if_neg hdef,
      if_neg hdelimiter, hkind, hfixity]
    exact reads_notationStatement h hnew
  | delimiters d =>
    refine .peek (fun t ht => ?_) rfl
    have htext : t.text = "delimiter" := Reads.lexeme_text ht
    rw [if_neg (hword ht), htext, if_neg (by decide), if_neg (by decide), if_neg (by decide),
      if_pos rfl]
    exact reads_delimiterStatement h
  | assertion a =>
    refine .peek (fun t ht => ?_) rfl
    have htext : t.text = a.kind.keyword := Reads.lexeme_text ht
    have hother : (a.kind.keyword = "sort" ||
        (SortModifiers.ofKeyword? a.kind.keyword).isSome) = false ∧ a.kind.keyword ≠ "term" ∧
        a.kind.keyword ≠ "def" ∧ a.kind.keyword ≠ "delimiter" ∧
        AssertionKind.ofKeyword? a.kind.keyword = some a.kind := by
      cases a.kind <;> decide
    obtain ⟨hsort, hterm, hdef, hdelimiter, hkind⟩ := hother
    rw [if_neg (hword ht), htext, if_neg (by simp [hsort]), if_neg hterm, if_neg hdef,
      if_neg hdelimiter, hkind]
    exact reads_assertionStatement h hformulas

end Declaration
end Deductive
