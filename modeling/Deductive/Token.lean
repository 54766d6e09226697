import Deductive.ParseError

/-!
Tokens of declaration files and proof files. A text is cut into gaps, which are white space and
comments, and lexemes, which are the tokens; a comment runs from two hyphens to the end of its
line, and a math string between dollar signs is one token.
-/
namespace Deductive

inductive TokenKind where
  | word
  | number
  | math
  | mark
  | finish
  deriving DecidableEq, Repr, Inhabited

/-- The text of a math string is what stands between the dollar signs. -/
structure Token where
  kind : TokenKind
  text : String
  position : Position
  deriving DecidableEq, Repr, Inhabited

namespace Token

def isMark (t : Token) (text : String) : Bool := t.kind = .mark && t.text = text

def isWord (t : Token) : Bool := t.kind = .word

def isKeyword (t : Token) (text : String) : Bool := t.kind = .word && t.text = text

def found (t : Token) : Found :=
  match t.kind with
  | .finish => .endOfInput
  | .math => .mathString
  | _ => .text t.text

def describe (t : Token) : String := t.found.describe

end Token

/-- White space between tokens. -/
def isGapChar (c : Char) : Bool := c = ' ' || c = '\t' || c = '\r' || c = '\n'

def isLetter (c : Char) : Bool := ('A' ≤ c && c ≤ 'Z') || ('a' ≤ c && c ≤ 'z') || c = '_'

def isDigit (c : Char) : Bool := '0' ≤ c && c ≤ '9'

def isWordChar (c : Char) : Bool := isLetter c || isDigit c

def isMarkChar (c : Char) : Bool := "()\x7b\x7d:;>=".toList.contains c

/-- What is cut off the front of a text: its characters, and the token that they are, if any. -/
structure Piece where
  token : Option (TokenKind × String)
  chars : List Char

/-- The gap or lexeme that `c :: cs` begins with. -/
def piece? (c : Char) (cs : List Char) : Option Piece :=
  if isGapChar c then some ⟨none, c :: cs.takeWhile isGapChar⟩
  else if c = '-' ∧ cs.head? = some '-' then some ⟨none, c :: cs.takeWhile (· ≠ '\n')⟩
  else if c = '$' then
    let inner := cs.takeWhile (· ≠ '$')
    if inner.length < cs.length then
      some ⟨some (.math, String.ofList inner), c :: inner ++ ['$']⟩
    else
      none
  else if isLetter c then
    let lexeme := c :: cs.takeWhile isWordChar
    some ⟨some (.word, String.ofList lexeme), lexeme⟩
  else if isDigit c then
    let lexeme := c :: cs.takeWhile isDigit
    some ⟨some (.number, String.ofList lexeme), lexeme⟩
  else if isMarkChar c then some ⟨some (.mark, String.singleton c), [c]⟩
  else none

theorem piece?_pos {c : Char} {cs : List Char} {p : Piece} (h : piece? c cs = some p) :
    0 < p.chars.length := by
  unfold piece? at h
  split at h
  · cases h; simp
  · split at h
    · cases h; simp
    · split at h
      · simp only at h
        split at h
        · cases h; simp
        · simp at h
      · split at h
        · cases h; simp
        · split at h
          · cases h; simp
          · split at h
            · cases h; simp
            · simp at h

/-- Why a text cannot be cut at a character. -/
def cutCause (c : Char) : ParseCause :=
  if c = '$' then .unterminatedMath else .strayCharacter c

/-- The tokens of a text that starts at `p`, and the place of its end. -/
def lex (p : Position) : List Char → Except ParseError (List Token × Position)
  | [] => .ok ([], p)
  | c :: cs =>
    match h : piece? c cs with
    | none => .error ⟨p, cutCause c⟩
    | some piece =>
      have := piece?_pos h
      match lex (p.advance piece.chars) ((c :: cs).drop piece.chars.length) with
      | .error e => .error e
      | .ok (ts, stop) =>
        match piece.token with
        | none => .ok (ts, stop)
        | some (kind, text) => .ok (⟨kind, text, p⟩ :: ts, stop)
  termination_by cs => cs.length
  decreasing_by
    simp only [List.length_drop, List.length_cons]
    omega

/-- Tokens that are still to be read, and the place of the end of the text. -/
structure TokenStream where
  pending : List Token
  stop : Position
  deriving DecidableEq, Repr, Inhabited

namespace TokenStream

def finish (s : TokenStream) : Token := ⟨.finish, "", s.stop⟩

/-- The next token. The end of the text is one that is never used up. -/
def peek (s : TokenStream) : Token := s.pending.headD s.finish

/-- All tokens that are left, with the end of the text as the last one. -/
def toList (s : TokenStream) : List Token := s.pending ++ [s.finish]

def isAtEnd (s : TokenStream) : Bool := s.pending.isEmpty

end TokenStream

def tokenize (text : String) : Except ParseError TokenStream :=
  (lex .start text.toList).map fun (ts, stop) => ⟨ts, stop⟩

end Deductive
