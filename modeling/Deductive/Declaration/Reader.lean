import Deductive.Declaration
import Deductive.Formula.Reader
import Deductive.Token.Reader

/-!
The parts of declarations: types, groups of binders, sort modifiers, precedences. A binder is a group
of names with a type in parentheses, or in braces for bound variables; a type is a sort with the
variables that it depends on, or a math string. These readers go through the tokens only; they
declare nothing, and read math strings with the signature that they are given.
-/
namespace Deductive

open TokenReader

/-- A sort with dependencies, or a formula. -/
inductive TypeContent where
  | sort (name : SortName) (deps : List Name)
  | formula (e : Expr)
  deriving DecidableEq, Repr

structure TypeSpec where
  content : TypeContent
  position : Position
  deriving DecidableEq, Repr

/-- Types with arrows between them: arguments and a result. -/
structure ArrowType where
  arguments : List TypeSpec
  result : TypeSpec
  deriving DecidableEq, Repr

/-- The arrow type with one more argument in front. -/
def ArrowType.ofList (first : TypeSpec) : List TypeSpec → ArrowType
  | [] => ⟨[], first⟩
  | t :: ts => let rest := ofList t ts; ⟨first :: rest.arguments, rest.result⟩

/-- One name of a group of binders. -/
structure BinderEntry where
  name : String
  bound : Bool
  type : TypeSpec
  deriving DecidableEq, Repr

namespace Declaration

/-- The formula of a math string, which begins after the dollar sign. -/
def formula (sig : Signature) (t : Token) : TokenReader Expr := fun s =>
  match parseMath t.text sig (t.position.right 1) with
  | .ok e => .ok e s
  | .error err => .error err s

def typeSpec (sig : Signature) : TokenReader TypeSpec := do
  let t ← peek
  if t.kind = .math then
    let _ ← advance
    let e ← formula sig t
    pure ⟨.formula e, t.position⟩
  else
    let name ← expectWord "sort name"
    let deps ← words
    pure ⟨.sort name.text (deps.map fun t => t.text), name.position⟩

/-- The types after a colon, with `>` between them. -/
def arrowType (sig : Signature) : TokenReader ArrowType := do
  let first ← typeSpec sig
  let more ← manyWhile (·.isMark ">") (do
    let _ ← advance
    typeSpec sig)
  pure (ArrowType.ofList first more)

/-- A group in parentheses, or in braces for bound variables. -/
def binderGroup (sig : Signature) : TokenReader (List BinderEntry) := do
  let opening ← advance
  let bound := opening.text == "\x7b"
  let first ← expectWord "binder name"
  let more ← words
  let _ ← expectMark ":"
  let type ← typeSpec sig
  let _ ← expectMark (if bound then "\x7d" else ")")
  let entries := (first :: more).map fun t => ⟨t.text, bound, type⟩
  match type.content with
  | .formula _ => if bound then fail type.position .boundMathType else pure entries
  | .sort _ deps =>
    if bound && !deps.isEmpty then fail type.position .boundDependencies else pure entries

def binderEntries (sig : Signature) : TokenReader (List BinderEntry) := do
  let groups ← manyWhile (fun t => t.isMark "(" || t.isMark "\x7b") (binderGroup sig)
  pure groups.flatten

/-- The sort of a type that must not be a formula. -/
def sortOf (cause : ParseCause) (t : TypeSpec) : TokenReader (SortName × List Name) :=
  match t.content with
  | .formula _ => fail t.position cause
  | .sort name deps => pure (name, deps)

/-- Binders that range over sorts. -/
def sortedBinders : List BinderEntry → TokenReader (List Binder)
  | [] => pure []
  | b :: bs => do
    let (range, deps) ← sortOf .termBinderMath b.type
    let more ← sortedBinders bs
    pure (⟨b.name, range, b.bound, deps⟩ :: more)

/-- Arguments before an arrow are binders without names of their own; `n` is the number of the
first. -/
def arrowBinders (n : Nat) : List TypeSpec → TokenReader (List Binder)
  | [] => pure []
  | t :: ts => do
    let (range, deps) ← sortOf .termTypeMath t
    let more ← arrowBinders (n + 1) ts
    pure (⟨s!"_{n}", range, false, deps⟩ :: more)

/-- The modifiers before `sort`, at most `n` of them, added to `m`. -/
def modifierRun : Nat → SortModifiers → TokenReader SortModifiers
  | 0, m => pure m
  | n + 1, m => do
    let t ← peek
    match if t.isWord then SortModifiers.ofKeyword? t.text else none with
    | none => pure m
    | some modifier =>
      let _ ← advance
      if m.union modifier = m then fail t.position (.repeatedModifier t.text)
      else modifierRun n (m.union modifier)

/-- After all modifiers the next one repeats one of them, so there are no more to read. -/
def modifiers : TokenReader SortModifiers := modifierRun (SortModifiers.table.length + 1) .empty

/-- The body of a definition, if it has one. -/
def definitionBody (sig : Signature) : TokenReader (Option Expr) := do
  if (← peek).isMark "=" then
    let _ ← advance
    let math ← expectMath
    let body ← formula sig math
    pure (some body)
  else
    pure none

/-- The entries that range over sorts. -/
def entryBinders (entries : List BinderEntry) : List Binder :=
  entries.filterMap fun b =>
    match b.type.content with
    | .sort range deps => some ⟨b.name, range, b.bound, deps⟩
    | .formula _ => none

/-- The entries that are named hypotheses. -/
def entryHypotheses (entries : List BinderEntry) : List Hypothesis :=
  entries.filterMap fun b =>
    match b.type.content with
    | .sort _ _ => none
    | .formula e => some ⟨some b.name, e⟩

/-- The formula of a type that must not be a sort. -/
def statementOf (kind : AssertionKind) (label : String) (t : TypeSpec) : TokenReader Expr :=
  match t.content with
  | .formula e => pure e
  | .sort name _ => fail t.position (.statementSort kind.title label name)

/-- Formulas before an arrow are hypotheses without names. -/
def arrowHypotheses (kind : AssertionKind) (label : String) :
    List TypeSpec → TokenReader (List Hypothesis)
  | [] => pure []
  | t :: ts => do
    let e ← statementOf kind label t
    let more ← arrowHypotheses kind label ts
    pure (⟨none, e⟩ :: more)

/-- The number that a token of digits spells. -/
def decimalOf (t : Token) : TokenReader Nat :=
  let digits := t.text.toList.map fun c => c.toNat - '0'.toNat
  if Text.maxDigits < digits.length then fail t.position (.precTooLong digits.length)
  else pure (Text.ofDigits digits)

/-- A precedence as it is written; `max` is none of the numbers. -/
def precedence : TokenReader (Option Nat) := do
  let t ← advance
  if t.kind = .number then
    let n ← decimalOf t
    pure (some n)
  else if t.isKeyword "max" then pure none
  else fail t.position (.expected "a precedence" t.found)

/-- Every written number has to be below the highest level. -/
def levelOf (position : Position) : Option Nat → TokenReader Int
  | none => pure maxPrec
  | some n => if maxPrec ≤ n then fail position (.precOutOfRange n) else pure n

end Declaration
end Deductive
