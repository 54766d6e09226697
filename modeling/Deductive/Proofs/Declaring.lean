import Deductive.Declaration.Parser
import Deductive.Proofs.Results

/-!
What a statement declares depends on the signature and the tokens only, and nothing is declared before
all of it has been read. So a statement is one reader of tokens that finds the declaration, and one
addition to the draft after it; where the reader fails, there is no addition.
-/
namespace Deductive

open TokenReader

/-! The statements as readers of tokens. -/

namespace Declaration

def sortStatement (sig : Signature) : TokenReader Declaration := do
  let modifiers ← modifiers
  let _ ← expectKeyword "sort"
  let name ← expectWord "sort name"
  let _ ← expectMark ";"
  if sig.sorts.contains name.text then fail name.position (.sortDeclared name.text)
  else pure (.sort ⟨name.text, modifiers⟩)

/-- A term constructor under a name that no other has. -/
def newTerm (sig : Signature) (name : Token) (decl : TermDecl) : TokenReader Declaration :=
  if sig.terms.contains name.text then fail name.position (.termDeclared name.text)
  else pure (.term decl)

def termStatement (sig : Signature) : TokenReader Declaration := do
  let _ ← advance
  let name ← expectWord "term name"
  let binders ← sortedBinders (← binderEntries sig)
  let _ ← expectMark ":"
  let arrow ← arrowType sig
  let arguments ← arrowBinders 1 arrow.arguments
  let (range, deps) ← sortOf .termTypeMath arrow.result
  let _ ← expectMark ";"
  newTerm sig name ⟨name.text, binders ++ arguments, range, deps, false, none⟩

def definitionStatement (sig : Signature) : TokenReader Declaration := do
  let _ ← advance
  let name ← expectWord "definition name"
  let binders ← sortedBinders (← binderEntries sig)
  let _ ← expectMark ":"
  let (range, deps) ← sortOf .definitionTypeMath (← typeSpec sig)
  let body ← definitionBody sig
  let _ ← expectMark ";"
  newTerm sig name ⟨name.text, binders, range, deps, true, body⟩

def assertionStatement (sig : Signature) (kind : AssertionKind) : TokenReader Declaration := do
  let _ ← advance
  let label ← expectWord "assertion label"
  let entries ← binderEntries sig
  let _ ← expectMark ":"
  let arrow ← arrowType sig
  let hypotheses ← arrowHypotheses kind label.text arrow.arguments
  let conclusion ← statementOf kind label.text arrow.result
  let _ ← expectMark ";"
  pure (.assertion ⟨kind, label.text, entryBinders entries,
    entryHypotheses entries ++ hypotheses, conclusion⟩)

def notationStatement (sig : Signature) (fixity : Fixity) : TokenReader Declaration := do
  let _ ← advance
  let term ← expectWord "term name"
  let _ ← expectMark ":"
  let math ← expectMath
  let token := Text.strip math.text
  if token.isEmpty || token.toList.any Text.isBlank then fail math.position .notationToken
  else
    let _ ← expectKeyword "prec"
    let level ← peek
    let written ← precedence
    let _ ← expectMark ";"
    if sig.notations.contains token then fail math.position (.notationDeclared token)
    else
      let prec ← levelOf level.position written
      pure (.notated ⟨term.text, token, fixity, prec⟩)

def delimiterStatement : TokenReader Declaration := do
  let _ ← advance
  let left ← expectMath
  let right ← if (← peek).kind = .math then expectMath else pure left
  let _ ← expectMark ";"
  pure (.delimiters
    { left := Delimiters.charsOf left.text, right := Delimiters.charsOf right.text })

/-- One statement, read with what is declared before it. -/
def statement (sig : Signature) : TokenReader Declaration := do
  let t ← peek
  if !t.isWord then fail t.position (.expected "a statement" t.found)
  else if t.text = "sort" || (SortModifiers.ofKeyword? t.text).isSome then sortStatement sig
  else if t.text = "term" then termStatement sig
  else if t.text = "def" then definitionStatement sig
  else if t.text = "delimiter" then delimiterStatement
  else match AssertionKind.ofKeyword? t.text, Fixity.ofKeyword? t.text with
    | some kind, _ => assertionStatement sig kind
    | none, some fixity => notationStatement sig fixity
    | none, none =>
      if TheoryParser.unsupported.contains t.text then fail t.position (.unsupportedStatement t.text)
      else fail t.position (.unknownStatement t.text)

end Declaration

namespace TheoryParser

/-- With `d` declared, the statement reads what the reader of tokens does, and then adds it to `d`. -/
def Declares (d : Draft) (x : StatementReader Declaration) (r : TokenReader Declaration) : Prop :=
  ∀ s, x ⟨d, s⟩ = match r s with
    | .ok declaration s' => .ok declaration ⟨d.add declaration, s'⟩
    | .error e s' => .error e ⟨d, s'⟩

namespace Declares

variable {α : Type} {d : Draft} {x : StatementReader Declaration} {r : TokenReader Declaration}

/-- Nothing is declared while a part is read. -/
theorem bind {part : TokenReader α} {k : α → StatementReader Declaration}
    {k' : α → TokenReader Declaration} (hk : ∀ a, Declares d (k a) (k' a)) :
    Declares d (liftM part >>= k) (part >>= k') := by
  intro s
  cases hpart : part s with
  | ok a s' =>
    have hlift : (liftM part : StatementReader α) ⟨d, s⟩ = .ok a ⟨d, s'⟩ := by
      simp only [liftM, MonadLiftT.monadLift, MonadLift.monadLift, hpart]
    rw [reader_bind_of_ok hlift, reader_bind_of_ok hpart]
    exact hk a s'
  | error e s' =>
    have hlift : (liftM part : StatementReader α) ⟨d, s⟩ = .error e ⟨d, s'⟩ := by
      simp only [liftM, MonadLiftT.monadLift, MonadLift.monadLift, hpart]
    rw [reader_bind_eq_error hlift, reader_bind_eq_error hpart]

theorem signature {k : Signature → StatementReader Declaration} (hk : Declares d (k d.signature) r) :
    Declares d (TheoryParser.signature >>= k) r :=
  hk

theorem fail {position : Position} {cause : ParseCause} :
    Declares d (liftM (TokenReader.fail position cause : TokenReader Declaration))
      (TokenReader.fail position cause) :=
  fun _ => rfl

/-- The draft is changed when the tokens have been read. -/
theorem finish {declaration : Declaration}
    (h : ∀ s, x ⟨d, s⟩ = .ok declaration ⟨d.add declaration, s⟩) :
    Declares d x (pure declaration) :=
  h

theorem ite {c : Prop} [Decidable c] {x' : StatementReader Declaration}
    {r' : TokenReader Declaration} (h : Declares d x r) (h' : Declares d x' r') :
    Declares d (if c then x else x') (if c then r else r') := by
  split
  · exact h
  · exact h'

end Declares

variable {d : Draft}

theorem sortStatement_declares :
    Declares d sortStatement (Declaration.sortStatement d.signature) :=
  .bind fun _ => .bind fun _ => .bind fun _ => .bind fun _ =>
    .signature (.ite .fail (.finish fun _ => rfl))

theorem declareTerm_declares {name : Token} {decl : TermDecl} :
    Declares d (declareTerm name decl) (Declaration.newTerm d.signature name decl) :=
  .signature (.ite .fail (.finish fun _ => rfl))

theorem termStatement_declares :
    Declares d termStatement (Declaration.termStatement d.signature) := by
  refine .bind fun _ => .bind fun name => .signature (.bind fun entries => .bind fun binders => ?_)
  refine .bind fun _ => .signature (.bind fun arrow => .bind fun arguments => .bind fun result => ?_)
  exact .bind fun _ => declareTerm_declares

theorem definitionStatement_declares :
    Declares d definitionStatement (Declaration.definitionStatement d.signature) := by
  refine .bind fun _ => .bind fun name => .signature (.bind fun entries => .bind fun binders => ?_)
  refine .bind fun _ => .signature (.bind fun type => .bind fun result => ?_)
  exact .signature (.bind fun body => .bind fun _ => declareTerm_declares)

theorem assertionStatement_declares {kind : AssertionKind} :
    Declares d (assertionStatement kind) (Declaration.assertionStatement d.signature kind) := by
  refine .bind fun _ => .bind fun label => .signature (.bind fun entries => .bind fun _ => ?_)
  refine .signature (.bind fun arrow => .bind fun hypotheses => .bind fun conclusion => ?_)
  exact .bind fun _ => .finish fun _ => rfl

theorem notationStatement_declares {fixity : Fixity} :
    Declares d (notationStatement fixity) (Declaration.notationStatement d.signature fixity) := by
  refine .bind fun _ => .bind fun term => .bind fun _ => .bind fun math => .ite .fail ?_
  refine .bind fun _ => .bind fun level => .bind fun written => .bind fun _ => .signature ?_
  exact .ite .fail (.bind fun prec => .finish fun _ => rfl)

/-- Both sides are changed after the semicolon. -/
theorem delimiterStatement_declares :
    Declares d delimiterStatement Declaration.delimiterStatement := by
  refine .bind fun _ => .bind fun left => .bind fun next => .ite (.bind fun right => ?_) ?_
  · exact .bind fun _ => .finish fun _ => rfl
  · exact .bind fun _ => .finish fun _ => rfl

theorem statement_declares : Declares d statement (Declaration.statement d.signature) := by
  refine .bind fun t => .ite .fail (.ite sortStatement_declares (.ite termStatement_declares ?_))
  refine .ite definitionStatement_declares (.ite delimiterStatement_declares ?_)
  generalize AssertionKind.ofKeyword? t.text = kind
  generalize Fixity.ofKeyword? t.text = fixity
  cases kind with
  | some kind => exact assertionStatement_declares
  | none =>
    cases fixity with
    | some fixity => exact notationStatement_declares
    | none => exact .ite .fail .fail

/-- A statement that is read is added to the draft as a whole. -/
theorem statement_eq_ok_iff {p p' : TheoryParser} {declaration : Declaration} :
    statement p = .ok declaration p' ↔
      Declaration.statement p.draft.signature p.tokens = .ok declaration p'.tokens ∧
        p'.draft = p.draft.add declaration := by
  obtain ⟨draft, tokens⟩ := p
  rw [statement_declares tokens]
  split
  · rename_i hread
    rw [hread]
    constructor
    · intro h
      cases h
      exact ⟨rfl, rfl⟩
    · intro ⟨htokens, hdraft⟩
      cases htokens
      exact congrArg _ (congrArg (TheoryParser.mk · _) hdraft.symm)
  · rename_i hread
    rw [hread]
    exact ⟨nofun, fun h => nomatch h.1⟩

/-- A statement that fails leaves the draft as it was. -/
theorem statement_eq_error_iff {p p' : TheoryParser} {e : ParseError} :
    statement p = .error e p' ↔
      Declaration.statement p.draft.signature p.tokens = .error e p'.tokens ∧
        p'.draft = p.draft := by
  obtain ⟨draft, tokens⟩ := p
  rw [statement_declares tokens]
  split
  · rename_i hread
    rw [hread]
    exact ⟨nofun, fun h => nomatch h.1⟩
  · rename_i hread
    rw [hread]
    constructor
    · intro h
      cases h
      exact ⟨rfl, rfl⟩
    · intro ⟨htokens, hdraft⟩
      cases htokens
      exact congrArg _ (congrArg (TheoryParser.mk · _) hdraft.symm)

end TheoryParser
end Deductive
