import Deductive.Proofs.Parsing
import Deductive.Proofs.Printing
import Deductive.Proofs.Reported
import Deductive.Theory.Demands

/-!
Theories in which all names are of a kind. Whatever is asked of the names of a theory is given where
they can be joined, and the names of a theory that is read from a declaration file are texts.
-/
namespace Deductive

namespace Name

theorem isKey_of_isText {n : Name} (h : n.isText = true) : n.isKey = true := by
  unfold isText at h
  unfold isKey
  split at h
  · rename_i hn
    rw [hn]
  · cases h

theorem areOrdered_of_isText {names : List Name} (h : ∀ n ∈ names, n.isText = true) :
    areOrdered names = true := by
  have hall : names.all isText = true := List.all_eq_true.mpr h
  simp [areOrdered, hall]

/-- Every text is of the kind, and names of the kind can be joined. -/
structure IsTextual (P : Name → Prop) : Prop where
  text : ∀ s : String, P s
  isText : ∀ n, P n → n.isText = true

end Name

section Kinds

variable (P : Name → Prop)

/-- All names that are said are of the kind. -/
def Phrase.AllNames (p : Phrase) : Prop := ∀ n ∈ p.names, P n

/-- All names in the expression are of the kind. -/
inductive Expr.AllNames : Expr → Prop
  | var {x : Name} (name : P x) : AllNames (.var x)
  | app {f : Name} {args : List Expr} (name : P f) (arguments : ∀ a ∈ args, AllNames a) :
      AllNames (.app f args)

structure Binder.AllNames (b : Binder) : Prop where
  name : P b.name
  sort : P b.sort
  deps : ∀ n ∈ b.deps, P n

structure TermDecl.AllNames (t : TermDecl) : Prop where
  name : P t.name
  binders : ∀ b ∈ t.binders, b.AllNames P
  result : ∀ n ∈ t.resultSort :: t.resultDeps, P n
  body : ∀ e ∈ t.formulas, e.AllNames P

structure Assertion.AllNames (a : Assertion) : Prop where
  label : P a.label
  binders : ∀ b ∈ a.binders, b.AllNames P
  hypotheses : ∀ h ∈ a.hypotheses, ∀ n, h.name = some n → P n
  formulas : ∀ e ∈ a.formulas, e.AllNames P

structure Signature.AllNames (sig : Signature) : Prop where
  sorts : ∀ key decl, sig.sorts.get? key = some decl → P key ∧ P decl.name
  terms : ∀ key term, sig.terms.get? key = some term → P key ∧ term.AllNames P
  notations : ∀ key n, sig.notations.get? key = some n → P key ∧ P n.term ∧ P n.token
  delimiters : ∀ n ∈ sig.delimiters.leftMembers ++ sig.delimiters.rightMembers, P n

/-- All names that are looked up, put in order or written are of the kind. The theory's own name is
none of them. -/
structure Theory.AllNames (t : Theory) : Prop where
  signature : t.signature.AllNames P
  assertions : ∀ a ∈ t.assertions, a.AllNames P

end Kinds

variable {P : Name → Prop}

namespace Phrase

@[simp] theorem allNames_ofString (s : String) : (ofString s).AllNames P := nofun

@[simp] theorem allNames_ofName {n : Name} : (ofName n).AllNames P ↔ P n :=
  List.forall_mem_singleton

@[simp] theorem allNames_append {p q : Phrase} :
    (p ++ q).AllNames P ↔ p.AllNames P ∧ q.AllNames P :=
  List.forall_mem_append

end Phrase

theorem Binder.AllNames.names {b : Binder} (h : b.AllNames P) : ∀ n ∈ b.names, P n :=
  List.forall_mem_cons.mpr ⟨h.name, List.forall_mem_cons.mpr ⟨h.sort, h.deps⟩⟩

namespace Expr

variable {sig : Signature} {e : Expr}

theorem allNames_var {x : Name} : (var x).AllNames P ↔ P x := by
  constructor
  · intro h
    cases h with
    | var name => exact name
  · exact .var

theorem allNames_app {f : Name} {args : List Expr} :
    (app f args).AllNames P ↔ P f ∧ ∀ a ∈ args, a.AllNames P := by
  constructor
  · intro h
    cases h with
    | app name arguments => exact ⟨name, arguments⟩
  · intro ⟨name, arguments⟩
    exact .app name arguments

theorem allNames_iff : e.AllNames P ↔ ∀ n ∈ e.vars ++ e.terms, P n := by
  induction e with
  | var x => exact allNames_var.trans List.forall_mem_singleton.symm
  | app f args ih =>
    have hmem (n : Name) : n ∈ (app f args).vars ++ (app f args).terms ↔
        n = f ∨ ∃ a ∈ args, n ∈ a.vars ++ a.terms := by
      simp only [vars, terms, List.mem_append, List.mem_cons, mem_varsAll, mem_termsAll]
      constructor
      · rintro (⟨a, ha, hn⟩ | rfl | ⟨a, ha, hn⟩)
        · exact .inr ⟨a, ha, .inl hn⟩
        · exact .inl rfl
        · exact .inr ⟨a, ha, .inr hn⟩
      · rintro (rfl | ⟨a, ha, hn | hn⟩)
        · exact .inr (.inl rfl)
        · exact .inl ⟨a, ha, hn⟩
        · exact .inr (.inr ⟨a, ha, hn⟩)
    rw [allNames_app]
    constructor
    · intro ⟨name, arguments⟩ n hn
      rcases (hmem n).mp hn with rfl | ⟨a, ha, hn⟩
      · exact name
      · exact (ih a ha).mp (arguments a ha) n hn
    · intro h
      refine ⟨h f ((hmem f).mpr (.inl rfl)), fun a ha => (ih a ha).mpr fun n hn => ?_⟩
      exact h n ((hmem n).mpr (.inr ⟨a, ha, hn⟩))

theorem writtenAll_eq_flatMap (es : List Expr) : writtenAll sig es = es.flatMap (written sig) := by
  induction es with
  | nil => rfl
  | cons e es ih => rw [writtenAll, ih, List.flatMap_cons]

/-- What is written of an application is its name or the token of a notation. -/
theorem AllNames.written (hs : sig.AllNames P) (h : e.AllNames P) : ∀ n ∈ e.written sig, P n := by
  induction h with
  | var name => exact List.forall_mem_singleton.mpr name
  | @app f args name _ ih =>
    have hsymbol : P ((sig.layout f args.length).symbol f) := by
      have hnotated {n : Notation} (hn : sig.writtenAs? f = some n) : P n.token := by
        obtain ⟨key, hkey⟩ := Registry.mem_values_iff.mp (List.mem_of_find?_eq_some hn)
        exact (hs.notations key n hkey).2.2
      cases hl : sig.layout f args.length with
      | constant => exact name
      | named => exact name
      | before n => exact hnotated (Signature.layout_eq_before hl).1
      | between n => exact hnotated (Signature.layout_eq_between hl).1
    rw [Expr.written, writtenAll_eq_flatMap]
    refine List.forall_mem_cons.mpr ⟨hsymbol, fun n hn => ?_⟩
    obtain ⟨a, ha, hn⟩ := List.mem_flatMap.mp hn
    exact ih a ha n hn

theorem AllNames.phrase (hs : sig.AllNames P) (h : e.AllNames P) : (e.phrase sig).AllNames P :=
  h.written hs

theorem AllNames.isWritable (hP : Name.IsTextual P) (hs : sig.AllNames P) (h : e.AllNames P) :
    e.isWritable sig = true :=
  List.all_eq_true.mpr fun n hn => hP.isText n (h.written hs n hn)

end Expr

namespace TermDecl.AllNames

variable {t : TermDecl} (h : t.AllNames P)
include h

theorem of_body {e : Expr} (he : t.body = some e) : e.AllNames P :=
  h.body e (by simp [TermDecl.formulas, he])

theorem names : ∀ n ∈ t.names, P n := by
  intro n hn
  simp only [TermDecl.names, List.append_assoc, List.mem_append, List.mem_flatMap] at hn
  rcases hn with ⟨b, hb, hn⟩ | hn | hn
  · exact (h.binders b hb).names n hn
  · exact h.result n hn
  · cases hbody : t.body with
    | none => simp [hbody] at hn
    | some e => exact Expr.allNames_iff.mp (h.of_body hbody) n (by simpa [hbody] using hn)

theorem written {sig : Signature} (hs : sig.AllNames P) : ∀ n ∈ t.written sig, P n := by
  intro n hn
  simp only [TermDecl.written, List.cons_append, List.append_assoc, List.mem_cons, List.mem_append,
    List.mem_flatMap] at hn
  rcases hn with rfl | rfl | hn | ⟨b, hb, hn⟩ | hn
  · exact h.name
  · exact h.result _ List.mem_cons_self
  · exact h.result n (List.mem_cons_of_mem _ hn)
  · exact (h.binders b hb).names n hn
  · cases hbody : t.body with
    | none => simp [hbody] at hn
    | some e => exact (h.of_body hbody).written hs n (by simpa [hbody] using hn)

end TermDecl.AllNames

namespace Assertion.AllNames

variable {a : Assertion} (h : a.AllNames P)
include h

theorem hypothesisLabels (hP : Name.IsTextual P) : ∀ n ∈ a.hypothesisLabels, P n := by
  have hfrom (i : Nat) (hs : List Hypothesis) (hhs : ∀ x ∈ hs, ∀ n, x.name = some n → P n) :
      ∀ n ∈ Deductive.hypothesisLabels i hs, P n := by
    induction hs generalizing i with
    | nil => nofun
    | cons x hs ih =>
      obtain ⟨hx, hhs⟩ := List.forall_mem_cons.mp hhs
      rw [Deductive.hypothesisLabels]
      refine List.forall_mem_cons.mpr ⟨?_, ih (i + 1) hhs⟩
      cases hname : x.name with
      | none => exact hP.text _
      | some n => exact hx n hname
  exact hfrom 1 a.hypotheses h.hypotheses

theorem names (hP : Name.IsTextual P) : ∀ n ∈ a.names, P n := by
  intro n hn
  simp only [Assertion.names, List.cons_append, List.append_assoc, List.mem_cons, List.mem_append,
    List.mem_flatMap] at hn
  rcases hn with rfl | ⟨b, hb, hn⟩ | hn | ⟨e, he, hn⟩
  · exact h.label
  · exact (h.binders b hb).names n hn
  · exact h.hypothesisLabels hP n hn
  · exact Expr.allNames_iff.mp (h.formulas e he) n (List.mem_append.mpr hn)

theorem written {sig : Signature} (hs : sig.AllNames P) : ∀ n ∈ a.written sig, P n := by
  intro n hn
  simp only [Assertion.written, List.cons_append, List.mem_cons, List.mem_append,
    List.mem_flatMap] at hn
  rcases hn with rfl | ⟨b, hb, hn⟩ | ⟨e, he, hn⟩
  · exact h.label
  · exact (h.binders b hb).names n hn
  · exact (h.formulas e he).written hs n hn

theorem conclusion : a.conclusion.AllNames P :=
  h.formulas a.conclusion (List.mem_append_right _ List.mem_cons_self)

theorem hypothesis : ∀ x ∈ a.hypotheses, x.formula.AllNames P := by
  intro x hx
  exact h.formulas x.formula (List.mem_append_left _ (List.mem_map_of_mem hx))

end Assertion.AllNames

theorem bodiesAreOrdered_of_isText {entries : List (Name × TermDecl)}
    (h : ∀ p ∈ entries, ∀ n ∈ p.2.names, n.isText = true) (earlier : List Name) :
    bodiesAreOrdered earlier entries = true := by
  induction entries generalizing earlier with
  | nil => rfl
  | cons p entries ih =>
    obtain ⟨hp, hentries⟩ := List.forall_mem_cons.mp h
    rw [bodiesAreOrdered, Bool.and_eq_true]
    refine ⟨Name.areOrdered_of_isText fun n hn => ?_, ih hentries _⟩
    have hn := (List.mem_filter.mp hn).1
    apply hp
    cases hbody : p.2.body with
    | none => simp [hbody] at hn
    | some e =>
      have : n ∈ e.terms := by simpa [hbody] using hn
      simp [TermDecl.names, hbody, this]

namespace Signature.AllNames

variable {sig : Signature} (h : sig.AllNames P)
include h

theorem sort {decl : SortDecl} (hdecl : decl ∈ sig.sorts.values) : P decl.name := by
  obtain ⟨key, hkey⟩ := Registry.mem_values_iff.mp hdecl
  exact (h.sorts key decl hkey).2

theorem term {term : TermDecl} (hterm : term ∈ sig.terms.values) : term.AllNames P := by
  obtain ⟨key, hkey⟩ := Registry.mem_values_iff.mp hterm
  exact (h.terms key term hkey).2

theorem keys : ∀ n ∈ sig.sorts.keys ++ sig.terms.keys, P n := by
  intro n hn
  rcases List.mem_append.mp hn with hn | hn
  · obtain ⟨decl, hdecl⟩ := Registry.exists_of_mem_keys hn
    exact (h.sorts n decl hdecl).1
  · obtain ⟨term, hterm⟩ := Registry.exists_of_mem_keys hn
    exact (h.terms n term hterm).1

end Signature.AllNames

namespace Theory.AllNames

variable {t : Theory} (h : t.AllNames P)
include h

theorem labels : ∀ n ∈ t.assertions.map Assertion.label, P n :=
  List.forall_mem_map.mpr fun a ha => (h.assertions a ha).label

/-- What is asked of the names of a theory that is checked. -/
theorem isCheckable (hP : Name.IsTextual P) : t.isCheckable = true := by
  have hlabels := fun n hn => hP.isText n (h.labels n hn)
  have hkeys : ∀ n ∈ t.signature.sorts.keys ++ t.signature.terms.keys, n.isText = true :=
    fun n hn => hP.isText n (h.signature.keys n hn)
  have hterms : ∀ term ∈ t.signature.terms.values, ∀ n ∈ term.names, n.isText = true :=
    fun term hterm n hn => hP.isText n ((h.signature.term hterm).names n hn)
  simp only [Theory.isCheckable, Bool.and_eq_true]
  refine ⟨⟨⟨⟨⟨?_, ?_⟩, ?_⟩, ?_⟩, ?_⟩, ?_⟩
  · refine List.all_eq_true.mpr fun term hterm => List.all_eq_true.mpr fun n hn => ?_
    exact Name.isKey_of_isText (hterms term hterm n hn)
  · refine List.all_eq_true.mpr fun n hn => ?_
    obtain ⟨key, hkey⟩ := Registry.mem_values_iff.mp hn
    exact Name.isKey_of_isText (hP.isText _ (h.signature.notations key n hkey).2.1)
  · refine List.all_eq_true.mpr fun a ha => List.all_eq_true.mpr fun n hn => ?_
    exact Name.isKey_of_isText (hP.isText n ((h.assertions a ha).names hP n hn))
  · exact Name.areOrdered_of_isText (List.forall_mem_append.mpr ⟨hkeys, hlabels⟩)
  · exact bodiesAreOrdered_of_isText (fun p hp => hterms p.2 (List.mem_map_of_mem hp)) []
  · rw [List.all_eq_true.mpr hlabels]
    rfl

theorem joined : ∀ n ∈ t.joined, P n := by
  intro n hn
  simp only [Theory.joined, List.mem_append, List.mem_map, List.mem_flatMap] at hn
  rcases hn with ((hn | ⟨decl, hdecl, rfl⟩) | ⟨term, hterm, hn⟩) | ⟨a, ha, hn⟩
  · exact h.signature.delimiters n (List.mem_append.mpr hn)
  · exact h.signature.sort hdecl
  · exact (h.signature.term hterm).written h.signature n hn
  · exact (h.assertions a ha).written h.signature n hn

theorem isWritable (hP : Name.IsTextual P) : t.isWritable = true :=
  List.all_eq_true.mpr fun n hn => hP.isText n (h.joined n hn)

/-- The names in the text of a theory. -/
theorem written (hP : Name.IsTextual P) : ∀ n ∈ t.written.names, n = t.name ∨ P n := by
  intro n hn
  simp only [Theory.written, List.cons_append, List.mem_cons, List.mem_append,
    List.mem_flatMap] at hn
  rcases hn with rfl | (hn | ⟨notated, ⟨_, _, hnotated⟩, hn⟩) | ⟨a, ha, hn⟩
  · exact .inl rfl
  · exact .inr (h.joined n hn)
  · obtain ⟨key, hkey⟩ := Registry.mem_values_iff.mp (List.mem_filter.mp hnotated).1
    obtain ⟨_, hterm, htoken⟩ := h.signature.notations key notated hkey
    have hnames : ∀ n ∈ [notated.term, notated.token], P n :=
      List.forall_mem_cons.mpr ⟨hterm, List.forall_mem_singleton.mpr htoken⟩
    exact .inr (hnames n (by simpa using hn))
  · exact .inr ((h.assertions a ha).hypothesisLabels hP n hn)

end Theory.AllNames

/-! Texts that are read from a file of declarations. -/

section Reading

variable (texts : ∀ s : String, P s)
include texts

theorem Name.IsWord.of_texts {n : Name} (h : n.IsWord) : P n := by
  obtain ⟨s, rfl, _⟩ := h
  exact texts s

theorem Expr.IsRead.allNames {sig : Signature} (hs : sig.AllNames P) {e : Expr} (h : e.IsRead sig) :
    e.AllNames P := by
  rw [allNames_iff]
  intro n hn
  rcases List.mem_append.mp hn with hn | hn
  · obtain ⟨s, rfl, _⟩ := h.vars n hn
    exact texts s
  · rcases h.terms n hn with ⟨key, term, hterm, rfl⟩ | ⟨token, notated, hkey, rfl⟩
    · exact (hs.terms key term hterm).2.name
    · exact (hs.notations token notated hkey).2.1

theorem Delimiters.members_of_strays {d : Delimiters} (h : d.strayLeft = [] ∧ d.strayRight = []) :
    ∀ n ∈ d.leftMembers ++ d.rightMembers, P n := by
  have hmembers (side : StringSet) : ∀ n ∈ members side [], P n := by
    intro n hn
    obtain ⟨s, _, rfl⟩ := List.mem_map.mp hn
    exact texts s
  rw [leftMembers, rightMembers, h.1, h.2]
  exact List.forall_mem_append.mpr ⟨hmembers d.left, hmembers d.right⟩

theorem Binder.IsSpelled.allNames {b : Binder} (h : b.IsSpelled) : b.AllNames P :=
  ⟨h.name.of_texts texts, h.sort.of_texts texts, fun n hn => (h.deps n hn).of_texts texts⟩

end Reading

namespace Draft

structure AllNames (P : Name → Prop) (d : Draft) : Prop where
  signature : d.signature.AllNames P
  assertions : ∀ a ∈ d.assertions, a.AllNames P
  strays : d.signature.delimiters.strayLeft = [] ∧ d.signature.delimiters.strayRight = []

theorem empty_allNames : empty.AllNames P where
  signature := ⟨nofun, nofun, nofun, nofun⟩
  assertions := nofun
  strays := ⟨rfl, rfl⟩

theorem AllNames.add (texts : ∀ s : String, P s) {d : Draft} {declaration : Declaration}
    (h : d.AllNames P) (hspelled : declaration.IsSpelled) (hread : declaration.IsRead d.signature) :
    (d.add declaration).AllNames P := by
  have hformulas : ∀ e ∈ declaration.formulas, e.AllNames P :=
    fun e he => (hread e he).allNames texts h.signature
  obtain ⟨⟨hsorts, hterms, hnotations, hdelimiters⟩, hassertions, hstrays⟩ := h
  cases declaration with
  | sort decl =>
    have hname : P decl.name := Name.IsWord.of_texts texts hspelled
    exact ⟨⟨forall_insert ⟨hname, hname⟩ hsorts, hterms, hnotations, hdelimiters⟩, hassertions,
      hstrays⟩
  | term decl =>
    have hname : P decl.name := hspelled.name.of_texts texts
    refine ⟨⟨hsorts, forall_insert ⟨hname, ?_⟩ hterms, hnotations, hdelimiters⟩, hassertions,
      hstrays⟩
    refine ⟨hname, fun b hb => (hspelled.binders b hb).allNames texts, ?_, hformulas⟩
    refine List.forall_mem_cons.mpr ⟨hspelled.resultSort.of_texts texts, fun n hn => ?_⟩
    exact (hspelled.resultDeps n hn).of_texts texts
  | notated n =>
    obtain ⟨s, hs, _⟩ := hspelled.token
    have htoken : P n.token := hs ▸ texts s
    refine ⟨⟨hsorts, hterms, forall_insert ?_ hnotations, hdelimiters⟩, hassertions, hstrays⟩
    exact ⟨htoken, hspelled.term.of_texts texts, htoken⟩
  | delimiters more =>
    exact ⟨⟨hsorts, hterms, hnotations, Delimiters.members_of_strays texts hstrays⟩, hassertions,
      hstrays⟩
  | assertion a =>
    obtain ⟨named, arrows, hsplit, hnamed, harrows⟩ := hspelled.hypotheses
    have hhypotheses : ∀ x ∈ a.hypotheses, ∀ n, x.name = some n → P n := by
      intro x hx n hn
      rw [hsplit] at hx
      rcases List.mem_append.mp hx with hx | hx
      · obtain ⟨m, hm, hword⟩ := hnamed x hx
        rw [hm] at hn
        cases hn
        exact hword.of_texts texts
      · rw [harrows x hx] at hn
        cases hn
    have ha : a.AllNames P :=
      ⟨hspelled.label.of_texts texts, fun b hb => (hspelled.binders b hb).allNames texts, hhypotheses,
        hformulas⟩
    exact ⟨⟨hsorts, hterms, hnotations, hdelimiters⟩,
      List.forall_mem_append.mpr ⟨hassertions, List.forall_mem_singleton.mpr ha⟩, hstrays⟩

theorem AllNames.foldl (texts : ∀ s : String, P s) {d : Draft} {ds : List Declaration}
    (h : d.AllNames P) (hspelled : ∀ x ∈ ds, x.IsSpelled) (hreads : d.ReadsInOrder ds) :
    (ds.foldl Draft.add d).AllNames P := by
  induction ds generalizing d with
  | nil => exact h
  | cons x ds ih =>
    obtain ⟨hx, hds⟩ := List.forall_mem_cons.mp hspelled
    exact ih (h.add texts hx hreads.1) hds hreads.2

end Draft

/-- All statements that are read can be written. -/
theorem TheoryParser.run_declarations {n : Nat} {p : TheoryParser} (hs : p.tokens.IsLexical) :
    ∀ x ∈ (run n p).1, x.IsSpelled := by
  induction n generalizing p with
  | zero => exact List.forall_mem_nil _
  | succ n ih =>
    rw [run]
    split
    · exact List.forall_mem_nil _
    · split
      · exact List.forall_mem_nil _
      · rename_i declaration p₁ hstatement
        obtain ⟨hread, _⟩ := statement_eq_ok_iff.mp hstatement
        obtain ⟨hdeclaration, hs₁⟩ := Declaration.statement_yields _ _ _ _ hs hread
        exact List.forall_mem_cons.mpr ⟨hdeclaration, ih hs₁⟩

theorem Theory.parse_declarations (text name : String) :
    ∀ x ∈ (parse text name).1, x.IsSpelled := by
  unfold parse
  cases hs : tokenize text with
  | error e => nofun
  | ok s => exact TheoryParser.run_declarations (tokenize_isLexical hs)

/-- All names of a theory that is read from a file of declarations are texts. -/
theorem Theory.parse_allNames (texts : ∀ s : String, P s) {text name : String} {t : Theory}
    (h : (parse text name).2 = .ok t) : t.AllNames P := by
  have hends := parse_reports text name
  rw [h] at hends
  obtain ⟨hreads, rfl⟩ := hends
  have hd : Draft.AllNames P _ :=
    Draft.empty_allNames.foldl texts (parse_declarations text name) hreads
  exact ⟨hd.signature, hd.assertions⟩

end Deductive
