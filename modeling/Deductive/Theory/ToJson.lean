import Deductive.Json
import Deductive.Theory

/-!
Theories as JSON. Every object says in its field `type` what it stands for.
-/
namespace Deductive

namespace Json

/-- An object that says what it stands for. -/
def typed (type : String) (fields : List (JsonString × Json)) : Json :=
  .object (("type", .string type) :: fields)

def names (ns : List Name) : Json := .array (ns.map Name.toJson)

end Json

def SortDecl.toJson (s : SortDecl) : Json :=
  .typed "sort" [("name", s.name.toJson), ("modifiers", .strings s.modifiers.keywords)]

mutual

def Expr.toJson : Expr → Json
  | .var x => .typed "var" [("name", x.toJson)]
  | .app term args => .typed "app" [("term", term.toJson), ("args", .array (Expr.toJsonAll args))]

def Expr.toJsonAll : List Expr → List Json
  | [] => []
  | e :: es => e.toJson :: Expr.toJsonAll es

end

def Binder.toJson (b : Binder) : Json :=
  .typed "binder"
    [("name", b.name.toJson), ("sort", b.sort.toJson), ("bound", b.bound.toJson),
      ("deps", .names b.deps)]

def TermDecl.toJson (t : TermDecl) : Json :=
  .typed "term"
    [("name", t.name.toJson), ("binders", .array (t.binders.map Binder.toJson)),
      ("result_sort", t.resultSort.toJson), ("result_deps", .names t.resultDeps),
      ("is_def", t.isDef.toJson), ("body", (t.body.map Expr.toJson).getD .null)]

def Notation.toJson (n : Notation) : Json :=
  .typed "notation"
    [("term", n.term.toJson), ("token", n.token.toJson), ("fixity", .string n.fixity.keyword),
      ("prec", .string n.precKeyword)]

/-- The members of a side behind one another. -/
def Delimiters.joined (members : List Name) : JsonString :=
  members.foldl (fun s n => s ++ n.toJsonString) ""

def Delimiters.toJson (d : Delimiters) : Json :=
  .object
    [("left", .string (joined d.leftMembers)), ("right", .string (joined d.rightMembers))]

/-- The entries of a registry as fields. -/
def Registry.toJson {α : Type} (entry : α → Json) (r : Registry Name α) : Json :=
  .object (r.entries.map fun (name, a) => (name.toJsonString, entry a))

def Signature.toJson (sig : Signature) : Json :=
  .typed "signature"
    [("sorts", sig.sorts.toJson SortDecl.toJson), ("terms", sig.terms.toJson TermDecl.toJson),
      ("notations", sig.notations.toJson Notation.toJson),
      ("delimiters", sig.delimiters.toJson)]

def Hypothesis.toJson (h : Hypothesis) : Json :=
  .typed "hypothesis" [("name", (h.name.map Name.toJson).getD .null), ("formula", h.formula.toJson)]

def Assertion.toJson (a : Assertion) : Json :=
  .typed "assertion"
    [("kind", .string a.kind.keyword), ("label", a.label.toJson),
      ("binders", .array (a.binders.map Binder.toJson)),
      ("hypotheses", .array (a.hypotheses.map Hypothesis.toJson)),
      ("conclusion", a.conclusion.toJson)]

def Theory.toJson (t : Theory) : Json :=
  .typed "theory"
    [("name", t.name.toJson), ("signature", t.signature.toJson),
      ("assertions", .array (t.assertions.map Assertion.toJson))]

end Deductive
