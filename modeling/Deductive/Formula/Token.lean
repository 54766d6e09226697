import Deductive.Position
import Deductive.Signature
import Deductive.Text.Classes

/-!
Tokens of math strings: a delimiter is a token on its own, and white space and delimiters end the
words between them. Joined again with the spaces that they need, the tokens stay the same.
-/
namespace Deductive

structure MathToken where
  text : String
  position : Position
  deriving DecidableEq, Repr, Inhabited

/-- Neither white space nor a delimiter. -/
def Delimiters.isInner (d : Delimiters) (c : Char) : Bool := !Text.isBlank c && !d.separates c

/-- The tokens of a math string of which the first character stands at `p`. -/
def mathTokens (d : Delimiters) (p : Position) : List Char → List MathToken
  | [] => []
  | c :: cs =>
    if Text.isBlank c then mathTokens d (p.next c) cs
    else if d.separates c then ⟨String.singleton c, p⟩ :: mathTokens d (p.next c) cs
    else
      let word := c :: cs.takeWhile d.isInner
      ⟨String.ofList word, p⟩ :: mathTokens d (p.advance word) (cs.dropWhile d.isInner)
  termination_by cs => cs.length
  decreasing_by
    · simp
    · simp
    · exact Nat.lt_succ_of_le (List.dropWhile_sublist _).length_le

def tokenizeMath (text : String) (d : Delimiters) (start : Position) : List MathToken :=
  mathTokens d start text.toList

namespace Delimiters

/-- The characters of a text that are no white space. -/
def charsOf (text : String) : StringSet :=
  .ofList ((text.toList.filter fun c => !Text.isBlank c).map String.singleton)

/-- No space is written after an opening or two-sided delimiter, but after a closing parenthesis. -/
def gluesAfter (d : Delimiters) (token : String) : Bool :=
  d.left.contains token && token ≠ ")"

/-- No space is written before a closing delimiter. -/
def gluesBefore (d : Delimiters) (token : String) : Bool :=
  (d.right.contains token && !d.left.contains token) ||
    (token = ")" && (d.left.contains token || d.right.contains token))

end Delimiters

/-- What is written after the token `last`. -/
def joinAfter (d : Delimiters) (last : String) : List String → List Char
  | [] => []
  | t :: ts =>
    (if d.gluesAfter last || d.gluesBefore t then [] else [' ']) ++ t.toList ++ joinAfter d t ts

/-- The tokens with the spaces that keep them apart. -/
def joinMath (tokens : List String) (d : Delimiters) : String :=
  match tokens with
  | [] => ""
  | t :: ts => String.ofList (t.toList ++ joinAfter d t ts)

end Deductive
