import Deductive.Proofs.Definitions
import Deductive.Proofs.Stating

/-!
What the checker and the writer rely on in the declarations that have been read, and nothing checks
again. It holds in every state that is reached by reading statements, and says of some things in
what state on the way they were read.
-/
namespace Deductive

open TokenReader

namespace TheoryParser

/-- `q` is reached from `p` by statements that are read one after the other and declare `ds`. -/
inductive Reaches (p : TheoryParser) : List Declaration → TheoryParser → Prop
  | refl : Reaches p [] p
  | step {ds : List Declaration} {q q' : TheoryParser} {declaration : Declaration}
      (reached : Reaches p ds q) (read : statement q = .ok declaration q') :
      Reaches p (ds ++ [declaration]) q'

/-- A statement that is read on the way from `p` to `q`, with what is declared before it. -/
structure Visit (p q : TheoryParser) where
  before : List Declaration
  start : TheoryParser
  declaration : Declaration
  stop : TheoryParser
  after : List Declaration
  reached : p.Reaches before start
  read : statement start = .ok declaration stop
  left : stop.Reaches after q

namespace Reaches

variable {p q : TheoryParser} {ds : List Declaration}

theorem trans {ds' : List Declaration} {q' : TheoryParser} (h : p.Reaches ds q)
    (h' : q.Reaches ds' q') : p.Reaches (ds ++ ds') q' := by
  induction h' with
  | refl => exact (List.append_nil ds).symm ▸ h
  | step _ read ih => exact List.append_assoc .. ▸ ih.step read

/-- Whatever is declared on the way is declared by a statement. -/
theorem visit (h : p.Reaches ds q) {declaration : Declaration} (hd : declaration ∈ ds) :
    ∃ v : Visit p q, v.declaration = declaration := by
  induction h with
  | refl => cases hd
  | @step ds q q' last reached read ih =>
    rcases List.mem_append.mp hd with hd | hd
    · obtain ⟨v, hv⟩ := ih hd
      exact ⟨{ v with after := v.after ++ [last], left := v.left.step read }, hv⟩
    · cases List.mem_singleton.mp hd
      exact ⟨⟨ds, q, declaration, q', [], reached, read, .refl⟩, rfl⟩

/-- What has been declared makes up the draft. -/
theorem draft_eq (h : p.Reaches ds q) : q.draft = ds.foldl Draft.add p.draft := by
  induction h with
  | refl => rfl
  | step _ read ih =>
    rw [(statement_eq_ok_iff.mp read).2, ih, List.foldl_append]
    rfl

theorem isSpelled (h : p.Reaches ds q) (hp : p.draft.IsSpelled) (htokens : p.tokens.IsLexical) :
    q.draft.IsSpelled ∧ q.tokens.IsLexical := by
  induction h with
  | refl => exact ⟨hp, htokens⟩
  | step _ read ih =>
    obtain ⟨hstatement, hdraft⟩ := statement_eq_ok_iff.mp read
    obtain ⟨hd, hs⟩ := Declaration.statement_yields _ _ _ _ ih.2 hstatement
    exact ⟨hdraft ▸ ih.1.add hd, hs⟩

theorem standIn {text : List Char} (h : p.Reaches ds q) (hp : p.tokens.StandIn text) :
    q.tokens.StandIn text := by
  induction h with
  | refl => exact hp
  | step _ read ih =>
    exact ((Declaration.statement_reports _).of_ok ih (statement_eq_ok_iff.mp read).1).2

end Reaches

namespace Visit

variable {p q : TheoryParser}

/-- The formulas of a statement are read with what is declared before it. -/
theorem isRead (v : Visit p q) {text : List Char} (hp : p.tokens.StandIn text) :
    v.declaration.IsRead v.start.draft.signature := by
  obtain ⟨hstatement, _⟩ := statement_eq_ok_iff.mp v.read
  exact ((Declaration.statement_reports _).of_ok (v.reached.standIn hp) hstatement).1

theorem isStated (v : Visit p q) {n : Notation} (hn : v.declaration = .notated n) :
    ∃ used, v.start.tokens = v.stop.tokens.push used ∧ n.IsStatedBy used := by
  obtain ⟨hstatement, _⟩ := statement_eq_ok_iff.mp (hn ▸ v.read)
  obtain ⟨used, hs, hstated⟩ := Declaration.statement_uses _ _ _ hstatement
  cases hstated with
  | notated stated => exact ⟨used, hs, stated⟩

end Visit
end TheoryParser

/-! What can be written, in the words of those who rely on it. -/

theorem Binder.IsSpelled.deps_eq_nil {b : Binder} (h : b.IsSpelled) (hbound : b.bound.holds = true) :
    b.deps = [] := by
  obtain ⟨bound, hvalue, hdeps⟩ := h.bound
  rw [hvalue] at hbound
  exact hdeps hbound

theorem TermDecl.IsSpelled.isDef_of_body {t : TermDecl} {e : Expr} (h : t.IsSpelled)
    (hbody : t.body = some e) : t.isDef.holds = true := by
  obtain ⟨isDef, hvalue, hnone⟩ := h.isDef
  rw [hvalue]
  cases isDef with
  | true => rfl
  | false => cases (hnone rfl).symm.trans hbody

theorem Delimiters.IsSpelled.of_mem {d : Delimiters} {member : Name} (h : d.IsSpelled)
    (hmember : member ∈ d.leftMembers ∨ member ∈ d.rightMembers) :
    ∃ c, member = String.singleton c ∧ Text.isBlank c = false ∧ c ≠ '$' := by
  obtain ⟨hleft, hright⟩ := h.members_eq
  rw [hleft, hright, ← List.mem_append, ← List.map_append] at hmember
  obtain ⟨s, hs, rfl⟩ := List.mem_map.mp hmember
  obtain ⟨c, rfl, hc⟩ := h.members s (List.mem_append.mp hs)
  exact ⟨c, rfl, hc⟩

theorem Assertion.IsSpelled.named_first {a : Assertion} (h : a.IsSpelled) :
    ∃ named anonymous, a.hypotheses = named ++ anonymous ∧
      (∀ h ∈ named, h.name.isSome = true) ∧ ∀ h ∈ anonymous, h.name = none := by
  obtain ⟨named, anonymous, hsplit, hnamed, hanonymous⟩ := h.hypotheses
  refine ⟨named, anonymous, hsplit, fun h hh => ?_, hanonymous⟩
  obtain ⟨x, hx, _⟩ := hnamed h hh
  exact Option.isSome_iff_exists.mpr ⟨x, hx⟩

namespace Draft

/-- The expression is the body of a definition, or stands in an assertion. -/
def Stores (d : Draft) (e : Expr) : Prop :=
  (∃ name term, d.signature.terms.get? name = some term ∧ term.body = some e) ∨
    ∃ a ∈ d.assertions, e ∈ a.formulas

/-- The binder is one of a term or of an assertion. -/
def Binds (d : Draft) (b : Binder) : Prop :=
  (∃ name term, d.signature.terms.get? name = some term ∧ b ∈ term.binders) ∨
    ∃ a ∈ d.assertions, b ∈ a.binders

theorem IsSpelled.of_binds {d : Draft} {b : Binder} (h : d.IsSpelled) (hb : d.Binds b) :
    b.IsSpelled := by
  rcases hb with ⟨name, term, hterm, hb⟩ | ⟨a, ha, hb⟩
  · exact (h.signature.terms name term hterm).2.binders b hb
  · exact (h.assertions a ha).binders b hb

theorem mem_assertions_foldl {ds : List Declaration} {d : Draft} {a : Assertion}
    (h : a ∈ (ds.foldl add d).assertions) : a ∈ d.assertions ∨ .assertion a ∈ ds := by
  induction ds generalizing d with
  | nil => exact .inl h
  | cons declaration ds ih =>
    rcases ih h with h | h
    · cases declaration with
      | assertion a' =>
        rcases List.mem_append.mp h with h | h
        · exact .inl h
        · exact .inr (List.mem_singleton.mp h ▸ List.mem_cons_self)
      | sort _ => exact .inl h
      | term _ => exact .inl h
      | notated _ => exact .inl h
      | delimiters _ => exact .inl h
    · exact .inr (List.mem_cons_of_mem _ h)

/-- What is stored stands in a declaration. -/
theorem Stores.exists_declaration {ds : List Declaration} {e : Expr}
    (h : (ds.foldl add .empty).Stores e) : ∃ declaration ∈ ds, e ∈ declaration.formulas := by
  rcases h with ⟨name, term, hterm, hbody⟩ | ⟨a, ha, he⟩
  · refine ⟨.term term, ((comesFrom ds).terms name term hterm).2, ?_⟩
    exact Option.mem_toList.mpr hbody
  · rcases mem_assertions_foldl ha with ha | ha
    · cases ha
    · exact ⟨.assertion a, ha, he⟩

end Draft

namespace TheoryParser

/-- What holds in a state that is reached from `p`: everything is found under its own name, the highest
level is one that was written so, and every expression was read with what had been declared before. -/
structure Guaranteed (p q : TheoryParser) : Prop where
  sorts : ∀ name decl, q.draft.signature.sorts.get? name = some decl → decl.name = name
  terms : ∀ name term, q.draft.signature.terms.get? name = some term → term.name = name
  notations : ∀ token n, q.draft.signature.notations.get? token = some n → n.token = token
  tokens : ∀ token n, q.draft.signature.notations.get? token = some n → ∃ s : String, token = s ∧
    s.toList ≠ [] ∧ ∀ c ∈ s.toList, Text.isBlank c = false ∧ c ≠ '$'
  precs : ∀ token n, q.draft.signature.notations.get? token = some n →
    0 ≤ n.prec ∧ n.prec ≤ maxPrec ∧ ∃ v : Visit p q, v.declaration = .notated n ∧
      ∃ used, v.start.tokens = v.stop.tokens.push used ∧ n.IsStatedBy used
  delimiters : ∀ member, member ∈ q.draft.signature.delimiters.leftMembers ∨
      member ∈ q.draft.signature.delimiters.rightMembers →
    ∃ c, member = String.singleton c ∧ Text.isBlank c = false ∧ c ≠ '$'
  binders : ∀ b, q.draft.Binds b → b.bound.holds = true → b.deps = []
  bodies : ∀ name term e, q.draft.signature.terms.get? name = some term → term.body = some e →
    term.isDef.holds = true
  hypotheses : ∀ a ∈ q.draft.assertions, ∃ named anonymous, a.hypotheses = named ++ anonymous ∧
    (∀ h ∈ named, h.name.isSome = true) ∧ ∀ h ∈ anonymous, h.name = none
  expressions : ∀ e, q.draft.Stores e → ∃ v : Visit p q, e ∈ v.declaration.formulas ∧
    (∀ x ∈ e.vars, ∃ s : String, x = s ∧ Text.isIdentifier s = true ∧
      v.start.draft.signature.terms.get? s = none ∧
      v.start.draft.signature.notations.get? s = none) ∧
    ∀ f ∈ e.terms, IsDeclaredIn v.before f ∨ IsNotatedIn v.before f

namespace Reaches

variable {text : String} {s : TokenStream} {q : TheoryParser} {ds : List Declaration}

/-- It holds in every state that is reached by reading statements of a text from its start. -/
theorem guaranteed (htokens : tokenize text = .ok s) (h : Reaches ⟨.empty, s⟩ ds q) : Guaranteed ⟨.empty, s⟩ q := by
  have hstand : s.StandIn text.toList := by
    have := tokenize_standIn text fun _ => True
    rwa [htokens] at this
  obtain ⟨hspelled, _⟩ := h.isSpelled Draft.empty_isSpelled (tokenize_isLexical htokens)
  have hfrom : q.draft.ComesFrom ds := h.draft_eq ▸ Draft.comesFrom ds
  exact {
    sorts := fun name decl hdecl => (hspelled.signature.sorts name decl hdecl).1
    terms := fun name term hterm => (hspelled.signature.terms name term hterm).1
    notations := fun token n hn => (hspelled.signature.notations token n hn).1
    tokens := by
      intro token n hn
      obtain ⟨htoken, hn⟩ := hspelled.signature.notations token n hn
      exact htoken ▸ hn.token
    precs := by
      intro token n hn
      obtain ⟨hlow, hhigh⟩ := (hspelled.signature.notations token n hn).2.prec
      obtain ⟨v, hv⟩ := h.visit (hfrom.notations token n hn)
      exact ⟨hlow, hhigh, v, hv, v.isStated hv⟩
    delimiters := fun member => hspelled.signature.delimiters.of_mem
    binders := fun b hb => (hspelled.of_binds hb).deps_eq_nil
    bodies := fun name term e hterm => (hspelled.signature.terms name term hterm).2.isDef_of_body
    hypotheses := fun a ha => (hspelled.assertions a ha).named_first
    expressions := by
      intro e he
      obtain ⟨declaration, hmem, he⟩ := Draft.Stores.exists_declaration (h.draft_eq ▸ he)
      obtain ⟨v, rfl⟩ := h.visit hmem
      have hread : e.IsRead v.start.draft.signature := v.isRead hstand e he
      have hbefore : v.start.draft.ComesFrom v.before :=
        v.reached.draft_eq ▸ Draft.comesFrom v.before
      exact ⟨v, he, hread.vars, fun f hf => (hread.terms f hf).of_comesFrom hbefore⟩ }

end Reaches

/-- A run makes statements one after the other. -/
theorem reaches_of_run {n : Nat} {p : TheoryParser} {d : Draft} {ds : List Declaration}
    (h : run n p = (ds, .ok d)) : ∃ q, p.Reaches ds q ∧ q.draft = d := by
  induction n generalizing p ds with
  | zero =>
    cases h
    exact ⟨p, .refl, rfl⟩
  | succ n ih =>
    rw [run] at h
    split at h
    · cases h
      exact ⟨p, .refl, rfl⟩
    · split at h
      · cases h
      · rename_i declaration p₁ hstatement
        cases hrun : run n p₁ with
        | mk more result =>
          rw [hrun] at h
          cases h
          obtain ⟨q, hmore, hq⟩ := ih hrun
          exact ⟨q, (Reaches.refl.step hstatement).trans hmore, hq⟩

end TheoryParser

/-- A theory that is read from a text is what a reader of statements has in the end. -/
theorem Theory.parse_reaches {text name : String} {ds : List Declaration} {t : Theory}
    (h : parse text name = (ds, .ok t)) : ∃ s q, tokenize text = .ok s ∧
      TheoryParser.Reaches ⟨.empty, s⟩ ds q ∧ q.draft.toTheory name = t := by
  unfold parse at h
  split at h
  · cases h
  · rename_i s htokens
    cases hrun : TheoryParser.run s.pending.length ⟨.empty, s⟩ with
    | mk ds' result =>
      rw [hrun] at h
      dsimp only at h
      cases result with
      | error e => cases h
      | ok d =>
        cases h
        obtain ⟨q, hreaches, rfl⟩ := TheoryParser.reaches_of_run hrun
        exact ⟨s, q, htokens, hreaches, rfl⟩

namespace Negation

def text : String :=
  "provable sort wff; term not (a: wff): wff; prefix not: $~$ prec max; delimiter $~$; " ++
    "theorem twice \x7bx: wff\x7d (h: $ x $): $ ~x $ > $ ~~x $;"

def declarations : List Declaration :=
  [.sort ⟨"wff", { SortModifiers.empty with provable := true }⟩,
    .term ⟨"not", [⟨"a", "wff", false, []⟩], "wff", [], false, none⟩,
    .notated ⟨"not", "~", .prefixed, maxPrec⟩,
    .delimiters { left := .ofList ["~"], right := .ofList ["~"] },
    .assertion ⟨.claimed, "twice", [⟨"x", "wff", true, []⟩],
      [⟨some "h", .var "x"⟩, ⟨none, .app "not" [.var "x"]⟩],
      .app "not" [.app "not" [.var "x"]]⟩]

theorem negation_guaranteed : ∃ s q, tokenize text = .ok s ∧
    TheoryParser.Reaches ⟨.empty, s⟩ declarations q ∧ TheoryParser.Guaranteed ⟨.empty, s⟩ q := by
  have hparse : Theory.parse text "negation" =
      (declarations, .ok ((declarations.foldl Draft.add .empty).toTheory "negation")) :=
    Prod.ext (by decide +kernel) (eq_ok_of_toOption (by decide +kernel))
  obtain ⟨s, q, htokens, hreaches, _⟩ := Theory.parse_reaches hparse
  exact ⟨s, q, htokens, hreaches, TheoryParser.Reaches.guaranteed htokens hreaches⟩

end Negation
end Deductive
