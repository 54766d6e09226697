import Deductive.Declaration.Reader

/-!
Reading declaration files.

    modifier* sort NAME ;
    term NAME binder* : type (> type)* ;
    def NAME binder* : type (= MATH)? ;
    (axiom | theorem) NAME binder* : type (> type)* ;
    (prefix | infixl | infixr) NAME : MATH prec (NUMBER | max) ;
    delimiter MATH MATH? ;

Statements are read one after the other and change what has been declared. Math strings are read with
what is declared at that point.
-/
namespace Deductive

open TokenReader

/-- What has been declared, and the tokens that are still to be read. -/
structure TheoryParser where
  draft : Draft
  tokens : TokenStream
  deriving DecidableEq, Repr

/-- Steps that read tokens and change what has been declared. A failure undoes none of them. -/
abbrev StatementReader := EStateM ParseError TheoryParser

namespace TheoryParser

/-- A reader of tokens declares nothing, neither when it fails. -/
instance readsTokens : MonadLift TokenReader StatementReader where
  monadLift r := fun p =>
    match r p.tokens with
    | .ok a tokens => .ok a { p with tokens }
    | .error e tokens => .error e { p with tokens }

/-- What math strings are read with. -/
def signature : StatementReader Signature := fun p => .ok p.draft.signature p

def change (f : Draft → Draft) : StatementReader Unit := fun p =>
  .ok () { p with draft := f p.draft }

def sortStatement : StatementReader Declaration := do
  let modifiers ← Declaration.modifiers
  let _ ← expectKeyword "sort"
  let name ← expectWord "sort name"
  let _ ← expectMark ";"
  if (← signature).sorts.contains name.text then fail name.position (.sortDeclared name.text)
  else
    let decl : SortDecl := ⟨name.text, modifiers⟩
    change (·.insertSort decl)
    pure (.sort decl)

/-- A term constructor under a name that no other has. -/
def declareTerm (name : Token) (decl : TermDecl) : StatementReader Declaration := do
  if (← signature).terms.contains name.text then fail name.position (.termDeclared name.text)
  else
    change (·.insertTerm decl)
    pure (.term decl)

def termStatement : StatementReader Declaration := do
  let _ ← advance
  let name ← expectWord "term name"
  let binders ← Declaration.sortedBinders (← Declaration.binderEntries (← signature))
  let _ ← expectMark ":"
  let arrow ← Declaration.arrowType (← signature)
  let arguments ← Declaration.arrowBinders 1 arrow.arguments
  let (range, deps) ← Declaration.sortOf .termTypeMath arrow.result
  let _ ← expectMark ";"
  declareTerm name ⟨name.text, binders ++ arguments, range, deps, false, none⟩

/-- The body is read before the definition is declared, so that it uses earlier terms only. -/
def definitionStatement : StatementReader Declaration := do
  let _ ← advance
  let name ← expectWord "definition name"
  let binders ← Declaration.sortedBinders (← Declaration.binderEntries (← signature))
  let _ ← expectMark ":"
  let type ← Declaration.typeSpec (← signature)
  let (range, deps) ← Declaration.sortOf .definitionTypeMath type
  let body ← Declaration.definitionBody (← signature)
  let _ ← expectMark ";"
  declareTerm name ⟨name.text, binders, range, deps, true, body⟩

def assertionStatement (kind : AssertionKind) : StatementReader Declaration := do
  let _ ← advance
  let label ← expectWord "assertion label"
  let entries ← Declaration.binderEntries (← signature)
  let _ ← expectMark ":"
  let arrow ← Declaration.arrowType (← signature)
  let hypotheses ← Declaration.arrowHypotheses kind label.text arrow.arguments
  let conclusion ← Declaration.statementOf kind label.text arrow.result
  let _ ← expectMark ";"
  let assertion : Assertion := ⟨kind, label.text, Declaration.entryBinders entries,
    Declaration.entryHypotheses entries ++ hypotheses, conclusion⟩
  change (·.append assertion)
  pure (.assertion assertion)

def notationStatement (fixity : Fixity) : StatementReader Declaration := do
  let _ ← advance
  let term ← expectWord "term name"
  let _ ← expectMark ":"
  let math ← expectMath
  let token := Text.strip math.text
  if token.isEmpty || token.toList.any Text.isBlank then fail math.position .notationToken
  else
    let _ ← expectKeyword "prec"
    let level ← peek
    let written ← Declaration.precedence
    let _ ← expectMark ";"
    if (← signature).notations.contains token then fail math.position (.notationDeclared token)
    else
      let prec ← Declaration.levelOf level.position written
      let n : Notation := ⟨term.text, token, fixity, prec⟩
      change (·.insertNotation n)
      pure (.notated n)

/-- One string is for both sides. -/
def delimiterStatement : StatementReader Declaration := do
  let _ ← advance
  let left ← expectMath
  let right ← if (← peek).kind = .math then expectMath else pure left
  let _ ← expectMark ";"
  let more : Delimiters :=
    { left := Delimiters.charsOf left.text, right := Delimiters.charsOf right.text }
  change (·.addLeft more.left)
  change (·.addRight more.right)
  pure (.delimiters more)

/-- Statements that are known and not read. -/
def unsupported : List String := ["notation", "coercion", "input", "output"]

def statement : StatementReader Declaration := do
  let t ← peek
  if !t.isWord then fail t.position (.expected "a statement" t.found)
  else if t.text = "sort" || (SortModifiers.ofKeyword? t.text).isSome then sortStatement
  else if t.text = "term" then termStatement
  else if t.text = "def" then definitionStatement
  else if t.text = "delimiter" then delimiterStatement
  else match AssertionKind.ofKeyword? t.text, Fixity.ofKeyword? t.text with
    | some kind, _ => assertionStatement kind
    | none, some fixity => notationStatement fixity
    | none, none =>
      if unsupported.contains t.text then fail t.position (.unsupportedStatement t.text)
      else fail t.position (.unknownStatement t.text)

/-- At most `n` statements up to the end of the text, and what has been declared by then or the
first error. -/
def run : Nat → TheoryParser → List Declaration × Except ParseError Draft
  | 0, p => ([], .ok p.draft)
  | n + 1, p =>
    if p.tokens.isAtEnd then ([], .ok p.draft)
    else match statement p with
      | .error e _ => ([], .error e)
      | .ok declaration p =>
        let (declarations, result) := run n p
        (declaration :: declarations, result)

end TheoryParser

/-- The declarations of a text up to its first error, and the theory under the name given. -/
def Theory.parse (text name : String) : List Declaration × Except ParseError Theory :=
  match tokenize text with
  | .error e => ([], .error e)
  | .ok s =>
    let (declarations, result) := TheoryParser.run s.pending.length ⟨.empty, s⟩
    (declarations, result.map (·.toTheory name))

end Deductive
