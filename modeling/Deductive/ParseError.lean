import Deductive.Name
import Deductive.Position
import Deductive.Text.Integer

/-!
What can be wrong with a text, and how it is said.
-/
namespace Deductive

/-- What stands where something else was expected. -/
inductive Found where
  | endOfInput
  | mathString
  | text (value : String)
  deriving DecidableEq, Repr

def Found.describe : Found → String
  | endOfInput => "end of input"
  | mathString => "math string"
  | text value => s!"'{value}'"

inductive ParseCause where
  -- tokens
  | unterminatedMath
  | strayCharacter (c : Char)
  | expected (what : String) (found : Found)
  -- formulas
  | emptyMath
  | unexpectedEnd
  | leftoverToken (token : String)
  | closingParenthesis
  | noLeftOperand (token : String)
  | prefixInParentheses (token prec : String)
  | applicationInParentheses (term : Name)
  | unknownToken (token : String)
  | mathTooDeep
  -- declarations
  | unsupportedStatement (word : String)
  | unknownStatement (word : String)
  | repeatedModifier (word : String)
  | sortDeclared (name : String)
  | termDeclared (name : String)
  | notationDeclared (token : String)
  | boundMathType
  | boundDependencies
  | termBinderMath
  | termTypeMath
  | definitionTypeMath
  | statementSort (title label : String) (sort : Name)
  | notationToken
  | precOutOfRange (prec : Nat)
  | precTooLong (digits : Nat)
  -- proofs
  | duplicateProof (label : String)
  | nestingLimit (limit : Int)
  | holeAsProof
  | unclosedProof
  | proofTooDeep
  deriving DecidableEq, Repr

def ParseCause.message : ParseCause → String
  | unterminatedMath => "Unterminated math string"
  | strayCharacter c => "Unexpected character " ++ Text.quoted (String.singleton c)
  | expected what found => s!"Expected {what}, got {found.describe}"
  | emptyMath => "Empty math string"
  | unexpectedEnd => "Unexpected end of math string"
  | leftoverToken token => s!"Unexpected token '{token}'"
  | closingParenthesis => "Unexpected ')'"
  | noLeftOperand token => s!"Infix operator '{token}' has no left operand"
  | prefixInParentheses token prec => s!"Prefix '{token}' (prec {prec}) needs parentheses here"
  | applicationInParentheses term => s!"Application of '{term}' needs parentheses here"
  | unknownToken token => s!"Unknown token '{token}'"
  | mathTooDeep => "Math string is too deeply nested"
  | unsupportedStatement word => s!"Unsupported statement '{word}'"
  | unknownStatement word => s!"Unknown statement '{word}'"
  | repeatedModifier word => s!"Repeated sort modifier '{word}'"
  | sortDeclared name => s!"Sort '{name}' is already declared"
  | termDeclared name => s!"Term '{name}' is already declared"
  | notationDeclared token => s!"Notation '{token}' is already declared"
  | boundMathType => "A bound variable cannot have a math type"
  | boundDependencies => "A bound variable cannot have dependencies"
  | termBinderMath => "A term binder needs a sort, not a math string"
  | termTypeMath => "A term type needs a sort, not a math string"
  | definitionTypeMath => "A definition type needs a sort, not a math string"
  | statementSort title label sort =>
    s!"{title} '{label}' needs math strings after ':', got sort '{sort}'"
  | notationToken => "A notation token must be a single non-empty word"
  | precOutOfRange prec => s!"Precedence {prec} is out of range"
  | precTooLong digits => (Text.IntegerError.tooLong digits).message
  | duplicateProof label => s!"Duplicate proof of '{label}'"
  | nestingLimit limit => s!"Proof nesting exceeds the limit of {limit}"
  | holeAsProof => "'_' can only stand for an expression argument"
  | unclosedProof => "Unclosed '(' in proof"
  | proofTooDeep => "Proof is too deeply nested"

structure ParseError where
  position : Position
  cause : ParseCause
  deriving DecidableEq, Repr

def ParseError.message (e : ParseError) : String := e.position.located e.cause.message

end Deductive
