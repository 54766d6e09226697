import Deductive.Proofs.Reported

/-!
What the body of a definition is made of. Every term in it has been declared before the definition,
or some notation has been declared before it that is said to stand for the term.
-/
namespace Deductive

namespace Draft

/-- The entries come from declarations, and terms are found under their own names. -/
structure ComesFrom (d : Draft) (ds : List Declaration) : Prop where
  terms : ∀ key term, d.signature.terms.get? key = some term → term.name = key ∧ .term term ∈ ds
  notations : ∀ token n, d.signature.notations.get? token = some n → .notated n ∈ ds

theorem ComesFrom.add {d : Draft} {ds : List Declaration} (h : d.ComesFrom ds)
    (declaration : Declaration) : (d.add declaration).ComesFrom (ds ++ [declaration]) := by
  have hterms : ∀ key term, d.signature.terms.get? key = some term →
      term.name = key ∧ .term term ∈ ds ++ [declaration] := by
    intro key term hterm
    obtain ⟨hname, hmem⟩ := h.terms key term hterm
    exact ⟨hname, List.mem_append_left _ hmem⟩
  have hnotations : ∀ token n, d.signature.notations.get? token = some n →
      .notated n ∈ ds ++ [declaration] :=
    fun token n hn => List.mem_append_left _ (h.notations token n hn)
  cases declaration with
  | term decl => exact ⟨forall_insert ⟨rfl, List.mem_concat_self⟩ hterms, hnotations⟩
  | notated n => exact ⟨hterms, forall_insert List.mem_concat_self hnotations⟩
  | sort decl => exact ⟨hterms, hnotations⟩
  | delimiters more => exact ⟨hterms, hnotations⟩
  | assertion a => exact ⟨hterms, hnotations⟩

/-- What is in a draft has been declared. -/
theorem ComesFrom.foldl {d : Draft} {ds : List Declaration} (h : d.ComesFrom ds)
    (more : List Declaration) : (more.foldl Draft.add d).ComesFrom (ds ++ more) := by
  induction more generalizing d ds with
  | nil => simpa using h
  | cons declaration more ih =>
    have := ih (h.add declaration)
    rwa [List.append_assoc] at this

theorem comesFrom (ds : List Declaration) : (ds.foldl Draft.add .empty).ComesFrom ds := by
  have hempty : ComesFrom .empty [] := ⟨nofun, nofun⟩
  exact hempty.foldl ds

end Draft

/-- Among the declarations there is a term with the name. -/
def IsDeclaredIn (ds : List Declaration) (f : Name) : Prop := ∃ term, .term term ∈ ds ∧ term.name = f

/-- Among the declarations there is a notation for terms with the name. -/
def IsNotatedIn (ds : List Declaration) (f : Name) : Prop := ∃ n, .notated n ∈ ds ∧ n.term = f

theorem Signature.Names.of_comesFrom {d : Draft} {ds : List Declaration} (h : d.ComesFrom ds)
    {f : Name} (hf : d.signature.Names f) : IsDeclaredIn ds f ∨ IsNotatedIn ds f := by
  rcases hf with ⟨key, term, hterm, hname⟩ | ⟨token, n, hn, hname⟩
  · exact .inl ⟨term, (h.terms key term hterm).2, hname⟩
  · exact .inr ⟨n, h.notations token n hn, hname⟩

/-- The definitions of a theory are among the declarations of its text, and the terms in a body are
declared before the definition, but for those that a notation before it anticipates. -/
theorem Theory.bodies_use_earlier {text name : String} {ds : List Declaration} {t : Theory}
    (h : parse text name = (ds, .ok t)) :
    (∀ f term, t.signature.terms.get? f = some term → term.name = f ∧ .term term ∈ ds) ∧
      ∀ before term after body, ds = before ++ .term term :: after → term.body = some body →
        ∀ f ∈ body.terms, IsDeclaredIn before f ∨ IsNotatedIn before f := by
  have hends := parse_reports text name
  rw [h] at hends
  obtain ⟨hreads, ht⟩ := hends
  obtain rfl : t = (ds.foldl Draft.add .empty).toTheory name := ht
  constructor
  · exact (Draft.comesFrom ds).terms
  · rintro before term after body rfl hbody f hf
    have hformula : body.IsRead (before.foldl Draft.add .empty).signature := by
      apply hreads.of_append
      simp [Declaration.formulas, TermDecl.formulas, hbody]
    exact (hformula.terms f hf).of_comesFrom (Draft.comesFrom before)

namespace Definitions

def wff : Declaration := .sort ⟨"wff", { SortModifiers.empty with provable := true }⟩

def formula (x : Name) : Binder := ⟨x, "wff", false, []⟩

def theory (name : Name) (ds : List Declaration) : Theory :=
  (ds.foldl Draft.add .empty).toTheory name

def identity : String :=
  "provable sort wff; term im (a b: wff): wff; infixr im: $->$ prec 25;" ++
    "def id (a: wff): wff = $ a -> a $;"

def arrow : List Declaration :=
  [wff, .term ⟨"im", [formula "a", formula "b"], "wff", [], false, none⟩,
    .notated ⟨"im", "->", .rightAssoc, 25⟩]

def reflexive : TermDecl :=
  ⟨"id", [formula "a"], "wff", [], true, some (.app "im" [.var "a", .var "a"])⟩

theorem identity_uses_earlier :
    Theory.parse identity "identity" =
        (arrow ++ [.term reflexive], .ok (theory "identity" (arrow ++ [.term reflexive]))) ∧
      ∀ f ∈ [Name.text "im"], IsDeclaredIn arrow f ∨ IsNotatedIn arrow f := by
  have hparse : Theory.parse identity "identity" =
      (arrow ++ [.term reflexive], .ok (theory "identity" (arrow ++ [.term reflexive]))) :=
    Prod.ext (by decide +kernel) (eq_ok_of_toOption (by decide +kernel))
  exact ⟨hparse, (Theory.bodies_use_earlier hparse).2 arrow reflexive [] _ rfl rfl⟩

/-- A notation for a term that is only declared by the definition after it. -/
def circular : String :=
  "provable sort wff; prefix not: $~$ prec 41; def not (a: wff): wff = $ ~ a $;"

def tilde : List Declaration := [wff, .notated ⟨"not", "~", .prefixed, 41⟩]

def itself : TermDecl :=
  ⟨"not", [formula "a"], "wff", [], true, some (.app "not" [.var "a"])⟩

theorem circular_uses_itself :
    Theory.parse circular "circular" =
        (tilde ++ [.term itself], .ok (theory "circular" (tilde ++ [.term itself]))) ∧
      (∃ body, itself.body = some body ∧ itself.name ∈ body.terms) ∧
      ¬ IsDeclaredIn tilde itself.name := by
  refine ⟨Prod.ext (by decide +kernel) (eq_ok_of_toOption (by decide +kernel)),
    ⟨_, rfl, List.mem_cons_self⟩, ?_⟩
  intro ⟨term, hterm, _⟩
  simp [tilde, wff] at hterm

end Definitions

end Deductive
