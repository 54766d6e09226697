import Deductive.Formula.Token
import Deductive.ParseError
import Deductive.Text.Identifier

/-!
Reading formulas. An operand at a level is a primary, followed by infix tokens that bind at least
as tightly as the level, each with an operand on its right. A name of a term constructor is an
application; any other identifier is a variable, declared or not.
-/
namespace Deductive

/-- A reader that fails leaves the tokens where it stopped. -/
abbrev MathReader := EStateM ParseError (List MathToken)

/-- The signature that a math string is written in, and the places of its first character and of
its end. -/
structure MathContext where
  signature : Signature
  start : Position
  stop : Position

namespace MathContext

variable (ctx : MathContext)

def fail {α : Type} (position : Position) (cause : ParseCause) : MathReader α :=
  fun ts => .error ⟨position, cause⟩ ts

def next : MathReader MathToken
  | [] => .error ⟨ctx.stop, .unexpectedEnd⟩ []
  | t :: ts => .ok t ts

/-- The notation of a token that may go on an operand at the level. -/
def infixAt? (level : Int) (t : MathToken) : Option Notation :=
  (ctx.signature.notations.get? t.text).filter fun n => n.fixity.isInfix && level ≤ n.prec

/-- So many operands at the highest level. -/
def arguments (operand : Int → MathReader Expr) : Nat → MathReader (List Expr)
  | 0 => pure []
  | n + 1 => do
    let e ← operand maxPrec
    let es ← arguments operand n
    pure (e :: es)

/-- An operand in parentheses, of which the first is read. -/
def parenthesized (operand : Int → MathReader Expr) : MathReader Expr := do
  let inner ← operand 0
  let close ← ctx.next
  if close.text = ")" then pure inner
  else fail close.position (.expected "')'" (.text close.text))

/-- The operand of a token with a notation of its own. -/
def prefixed (operand : Int → MathReader Expr) (level : Int) (t : MathToken) (n : Notation) :
    MathReader Expr := do
  if n.fixity.isInfix then fail t.position (.noLeftOperand t.text)
  else if n.prec < level then fail t.position (.prefixInParentheses t.text n.precKeyword)
  else
    let arg ← operand n.prec
    pure (.app n.term [arg])

/-- The application of a term constructor that is written with its name. -/
def application (operand : Int → MathReader Expr) (level : Int) (t : MathToken) (term : TermDecl) :
    MathReader Expr := do
  if term.isConstant then pure (.app term.name [])
  else if maxPrec ≤ level then fail t.position (.applicationInParentheses term.name)
  else
    let args ← arguments operand term.arity
    pure (.app term.name args)

/-- An operand that does not begin with another operand. -/
def primary (operand : Int → MathReader Expr) (level : Int) : MathReader Expr := do
  let t ← ctx.next
  if t.text = "(" then ctx.parenthesized operand
  else if t.text = ")" then fail t.position .closingParenthesis
  else match ctx.signature.notations.get? t.text with
    | some n => prefixed operand level t n
    | none =>
      match ctx.signature.terms.get? t.text with
      | some term => application operand level t term
      | none =>
        if Text.isIdentifier t.text then pure (.var t.text)
        else fail t.position (.unknownToken t.text)

/-- The infix tokens after `lhs`, at most `n` of them, folded to the left. -/
def climb (operand : Int → MathReader Expr) (level : Int) : Nat → Expr → MathReader Expr
  | 0, lhs => pure lhs
  | n + 1, lhs => fun ts =>
    match ts with
    | [] => .ok lhs []
    | t :: rest =>
      match ctx.infixAt? level t with
      | none => .ok lhs (t :: rest)
      | some op => (do
          let rhs ← operand op.rightLevel
          climb operand level n (.app op.term [lhs, rhs])) rest

/-- Each infix token is one of the tokens that are left, so there are no more of them. -/
def infixes (operand : Int → MathReader Expr) (level : Int) (lhs : Expr) : MathReader Expr :=
  fun ts => ctx.climb operand level ts.length lhs ts

/-- An operand with at most `n` operands around one another. -/
def operand : Nat → Int → MathReader Expr
  | 0, _ => fail ctx.start .mathTooDeep
  | n + 1, level => do
    let lhs ← ctx.primary (operand n) level
    ctx.infixes (operand n) level lhs

/-- All tokens as one operand. -/
def whole : MathReader Expr := do
  let e ← ctx.operand nestingLimit 0
  fun ts =>
    match ts with
    | [] => .ok e []
    | t :: rest => .error ⟨t.position, .leftoverToken t.text⟩ (t :: rest)

end MathContext

/-- The expression that a math string spells, of which the first character stands at `start`. The
string ends in the line in which it starts, as far as the place of its end is concerned. -/
def parseMath (text : String) (sig : Signature) (start : Position) : Except ParseError Expr :=
  match tokenizeMath text sig.delimiters start with
  | [] => .error ⟨start, .emptyMath⟩
  | t :: ts =>
    match MathContext.whole ⟨sig, start, start.right text.length⟩ (t :: ts) with
    | .ok e _ => .ok e
    | .error err _ => .error err

end Deductive
