import Deductive.Formula.Token
import Deductive.Phrase

/-!
Writing formulas in the notations of a signature, with the parentheses that reading needs.
-/
namespace Deductive

/-- How an application is written. -/
inductive Layout where
  | constant
  | between (n : Notation)
  | before (n : Notation)
  | named
  deriving DecidableEq, Repr

/-- A notation is used where its term has as many arguments as the notation takes. -/
def Signature.layout (sig : Signature) (term : Name) (arguments : Nat) : Layout :=
  if arguments = 0 then .constant
  else match sig.writtenAs? term with
    | none => .named
    | some n =>
      if n.fixity.arity = arguments then
        if n.fixity.isInfix then .between n else .before n
      else .named

namespace Layout

/-- The level at which the argument at a place is written, counted from zero. -/
def argumentLevel : Layout → Nat → Int
  | between n, 0 => n.leftLevel
  | between n, _ => n.rightLevel
  | before n, _ => n.rightLevel
  | _, _ => maxPrec

/-- The level of the whole; at a higher one it needs parentheses. -/
def level : Layout → Int
  | between n => n.prec
  | before n => n.prec
  | _ => maxPrec - 1

/-- The token that stands for a term. -/
def symbol (term : Name) : Layout → Name
  | between n => n.token
  | before n => n.token
  | _ => term

/-- The tokens of an application from those of its arguments. -/
def assemble (symbol : String) : Layout → List (List String) → List String
  | between _, [l, r] => l ++ symbol :: r
  | _, args => symbol :: args.flatten

end Layout

def parenthesize (tokens : List String) : List String := "(" :: tokens ++ [")"]

mutual

/-- The tokens of an expression that stands at a level. -/
def Expr.tokens (sig : Signature) (level : Int) : Expr → List String
  | .var x => [toString x]
  | .app term args =>
    let layout := sig.layout term args.length
    let tokens := layout.assemble (toString (layout.symbol term)) (Expr.tokensAll sig layout 0 args)
    if layout = .constant then tokens
    else if layout.level < level then parenthesize tokens
    else tokens

/-- The tokens of each argument of an application, the first being the one at place `i`. -/
def Expr.tokensAll (sig : Signature) (layout : Layout) (i : Nat) : List Expr → List (List String)
  | [] => []
  | e :: es => e.tokens sig (layout.argumentLevel i) :: Expr.tokensAll sig layout (i + 1) es

end

mutual

/-- The names that are written of an expression. -/
def Expr.written (sig : Signature) : Expr → List Name
  | .var x => [x]
  | .app term args => (sig.layout term args.length).symbol term :: Expr.writtenAll sig args

def Expr.writtenAll (sig : Signature) : List Expr → List Name
  | [] => []
  | e :: es => e.written sig ++ Expr.writtenAll sig es

end

namespace Expr

variable (sig : Signature) (e : Expr)

/-- All that is written of an expression is text. -/
def isWritable : Bool := (e.written sig).all Name.isText

/-- An expression as it is written in the notations of the signature. -/
def format : String := joinMath (e.tokens sig 0) sig.delimiters

def phrase : Phrase := ⟨e.format sig, e.written sig⟩

end Expr

end Deductive
