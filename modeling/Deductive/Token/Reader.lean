import Deductive.Token

/-!
Reading one token after the other. A reader that fails leaves the tokens where it stopped.
-/
namespace Deductive

abbrev TokenReader := EStateM ParseError TokenStream

namespace TokenReader

def peek : TokenReader Token := fun s => .ok s.peek s

def advance : TokenReader Token := fun s => .ok s.peek { s with pending := s.pending.tail }

def fail {α : Type} (position : Position) (cause : ParseCause) : TokenReader α :=
  fun s => .error ⟨position, cause⟩ s

/-- A token that passes the test; `what` says in the error what was expected. -/
def expect (test : Token → Bool) (what : String) : TokenReader Token := do
  let t ← advance
  if test t then pure t else fail t.position (.expected what t.found)

def expectMark (text : String) : TokenReader Token :=
  expect (·.isMark text) s!"'{text}'"

def expectWord (what : String) : TokenReader Token :=
  expect Token.isWord what

def expectKeyword (word : String) : TokenReader Token :=
  expect (·.isKeyword word) s!"'{word}'"

def expectMath : TokenReader Token :=
  expect (·.kind = .math) "math string"

/-- The words at the front. -/
def words : TokenReader (List Token) := fun s =>
  .ok (s.pending.takeWhile Token.isWord) { s with pending := s.pending.dropWhile Token.isWord }

/-- One item after the other as long as the next token passes the test. -/
def whileNext {α : Type} (test : Token → Bool) (item : TokenReader α) : Nat → TokenReader (List α)
  | 0 => pure []
  | n + 1 => do
    if test (← peek) then
      let a ← item
      let as ← whileNext test item n
      pure (a :: as)
    else
      pure []

/-- Items that each use up a token are no more than the tokens that are left; one more item may
still fail at the end of the text. -/
def manyWhile {α : Type} (test : Token → Bool) (item : TokenReader α) : TokenReader (List α) :=
  fun s => whileNext test item (s.pending.length + 1) s

end TokenReader
end Deductive
