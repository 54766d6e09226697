import Deductive.Json
import Deductive.Text.Quoted
import Deductive.Text.Integer

/-!
Reading JSON text. Beside the numbers of JSON it knows `NaN`, `Infinity` and `-Infinity`.
-/
namespace Deductive.Json

inductive SyntaxCause where
  | byteOrderMark
  | value
  | fieldName
  | colon
  | comma
  | unterminatedString
  | controlCharacter
  | escape
  | unicodeEscape
  | extraData
  | integerTooLong (digits : Nat)
  deriving DecidableEq, Repr

def SyntaxCause.message : SyntaxCause → String
  | byteOrderMark => "Unexpected UTF-8 BOM (decode using utf-8-sig)"
  | value => "Expecting value"
  | fieldName => "Expecting property name enclosed in double quotes"
  | colon => "Expecting ':' delimiter"
  | comma => "Expecting ',' delimiter"
  | unterminatedString => "Unterminated string starting at"
  | controlCharacter => "Invalid control character at"
  | escape => "Invalid \\escape"
  | unicodeEscape => "Invalid \\uXXXX escape"
  | extraData => "Extra data"
  | integerTooLong digits => (Text.IntegerError.tooLong digits).message

/-- What is wrong, and the text from there on. -/
structure Stop where
  cause : SyntaxCause
  rest : List Char

abbrev Step (α : Type) := Except Stop (α × List Char)

def isSpace (c : Char) : Bool := c = ' ' || c = '\t' || c = '\n' || c = '\r'

def skipSpace (cs : List Char) : List Char := cs.dropWhile isSpace

def simpleEscape? : Char → Option Char
  | '"' => some '"'
  | '\\' => some '\\'
  | '/' => some '/'
  | 'b' => some '\x08'
  | 'f' => some '\x0c'
  | 'n' => some '\n'
  | 'r' => some '\r'
  | 't' => some '\t'
  | _ => none

/-- The number of four hexadecimal digits. -/
def unit? (a b c d : Char) : Option Nat := do
  let a ← Text.hexValue? a
  let b ← Text.hexValue? b
  let c ← Text.hexValue? c
  let d ← Text.hexValue? d
  pure (((a * 16 + b) * 16 + c) * 16 + d)

/-- The code points and surrogates up to the closing quote; `start` is the text from the opening
quote on. -/
def stringUnits (start : List Char) : List Char → Step (List Nat)
  | [] => .error ⟨.unterminatedString, start⟩
  | '"' :: rest => .ok ([], rest)
  | '\\' :: 'u' :: a :: b :: c :: d :: next :: rest =>
    match unit? a b c d with
    | none => .error ⟨.unicodeEscape, 'u' :: a :: b :: c :: d :: next :: rest⟩
    | some n => (stringUnits start (next :: rest)).map fun (units, rest) => (n :: units, rest)
  | '\\' :: c :: rest =>
    match simpleEscape? c with
    | some e => (stringUnits start rest).map fun (units, rest) => (e.toNat :: units, rest)
    | none =>
      if c = 'u' then .error ⟨.unicodeEscape, c :: rest⟩
      else .error ⟨.escape, '\\' :: c :: rest⟩
  | ['\\'] => .error ⟨.unterminatedString, start⟩
  | c :: rest =>
    if c < ' ' then .error ⟨.controlCharacter, c :: rest⟩
    else (stringUnits start rest).map fun (units, rest) => (c.toNat :: units, rest)

def isHighSurrogate (n : Nat) : Bool := 0xD800 ≤ n && n < 0xDC00

def isLowSurrogate (n : Nat) : Bool := 0xDC00 ≤ n && n < 0xE000

/-- Two surrogates that follow each other make one code point, others stay. -/
def joinSurrogates : List Nat → List Nat
  | [] => []
  | [n] => [n]
  | n :: m :: rest =>
    if isHighSurrogate n && isLowSurrogate m then
      (0x10000 + (n - 0xD800) * 0x400 + (m - 0xDC00)) :: joinSurrogates rest
    else n :: joinSurrogates (m :: rest)

/-- A string of which the opening quote is read. -/
def readString (cs : List Char) : Step JsonString :=
  (stringUnits ('"' :: cs) cs).map fun (units, rest) =>
    (JsonString.ofPoints (joinSurrogates units), rest)

def isDigit (c : Char) : Bool := '0' ≤ c && c ≤ '9'

def digitsOf (cs : List Char) : List Nat := cs.map fun c => c.toNat - '0'.toNat

/-- The digits before a point: a zero alone, or digits that do not begin with a zero. -/
def wholeDigits : List Char → Option (List Char × List Char)
  | '0' :: rest => some (['0'], rest)
  | c :: rest => if isDigit c then some ((c :: rest).span isDigit) else none
  | [] => none

/-- The digits after a point, if there are a point and digits. -/
def fractionDigits : List Char → List Char × List Char
  | '.' :: rest =>
    let (digits, rest') := rest.span isDigit
    if digits.isEmpty then ([], '.' :: rest) else (digits, rest')
  | cs => ([], cs)

/-- The exponent, if there are its letter and digits. -/
def exponent? (cs : List Char) : Option (Int × List Char) :=
  match cs with
  | c :: rest =>
    if c = 'e' ∨ c = 'E' then
      let (negative, body) := Text.splitSign rest
      let (digits, rest') := body.span isDigit
      if digits.isEmpty then none
      else some (Text.applySign negative (Text.ofDigits (digitsOf digits)), rest')
    else none
  | [] => none

/-- The binary fraction nearest to a decimal one, or infinity. -/
def ofDecimal (d : Decimal) : Json :=
  match d.nearest with
  | some f => .fraction d.negative f
  | none => .infinity d.negative

/-- A number; without a fraction and an exponent it is whole. -/
def readNumber (cs : List Char) : Step Json :=
  let (negative, body) := match cs with
    | '-' :: rest => (true, rest)
    | rest => (false, rest)
  match wholeDigits body with
  | none => .error ⟨.value, cs⟩
  | some (whole, rest) =>
    let (after, rest) := fractionDigits rest
    let mantissa := Text.ofDigits (digitsOf (whole ++ after))
    match exponent? rest with
    | none =>
      if after.isEmpty then
        if Text.maxDigits < whole.length then .error ⟨.integerTooLong whole.length, cs⟩
        else .ok (.int (Text.applySign negative mantissa), rest)
      else .ok (ofDecimal ⟨negative, mantissa, -after.length⟩, rest)
    | some (e, rest) => .ok (ofDecimal ⟨negative, mantissa, e - after.length⟩, rest)

/-- The words that stand for values. -/
def words : List (List Char × Json) :=
  [("null".toList, null), ("true".toList, bool true), ("false".toList, bool false),
    ("NaN".toList, nan), ("Infinity".toList, infinity false),
    ("-Infinity".toList, infinity true)]

def readWord? (cs : List Char) : Option (Json × List Char) :=
  words.findSome? fun (word, v) =>
    if word.isPrefixOf cs then some (v, cs.drop word.length) else none

mutual

/-- A value at the front of a text. Every second call reads a character, so `n` need be no more
than twice the length of the text and two. -/
def readValue : Nat → List Char → Step Json
  | 0, cs => .error ⟨.value, cs⟩
  | n + 1, cs =>
    match cs with
    | '"' :: rest => (readString rest).map fun (s, rest) => (string s, rest)
    | '[' :: rest =>
      match skipSpace rest with
      | ']' :: rest => .ok (array [], rest)
      | rest => (readItems n rest).map fun (items, rest) => (array items, rest)
    | '\x7b' :: rest =>
      match skipSpace rest with
      | '\x7d' :: rest => .ok (object [], rest)
      | rest => (readFields n rest).map fun (fields, rest) => (ofFields fields, rest)
    | cs =>
      match readWord? cs with
      | some r => .ok r
      | none => readNumber cs

/-- The items up to the closing bracket. -/
def readItems : Nat → List Char → Step (List Json)
  | 0, cs => .error ⟨.value, cs⟩
  | n + 1, cs =>
    match readValue n cs with
    | .error e => .error e
    | .ok (v, rest) =>
      match skipSpace rest with
      | ']' :: rest => .ok ([v], rest)
      | ',' :: rest => (readItems n (skipSpace rest)).map fun (vs, rest) => (v :: vs, rest)
      | rest => .error ⟨.comma, rest⟩

/-- The fields up to the closing brace. -/
def readFields : Nat → List Char → Step (List (JsonString × Json))
  | 0, cs => .error ⟨.fieldName, cs⟩
  | n + 1, cs =>
    match cs with
    | '"' :: rest =>
      match readString rest with
      | .error e => .error e
      | .ok (name, rest) =>
        match skipSpace rest with
        | ':' :: rest =>
          match readValue n (skipSpace rest) with
          | .error e => .error e
          | .ok (v, rest) =>
            match skipSpace rest with
            | '\x7d' :: rest => .ok ([(name, v)], rest)
            | ',' :: rest =>
              (readFields n (skipSpace rest)).map fun (fs, rest) => ((name, v) :: fs, rest)
            | rest => .error ⟨.comma, rest⟩
        | rest => .error ⟨.colon, rest⟩
    | rest => .error ⟨.fieldName, rest⟩

end

/-- A fault of a JSON text, with the number of characters before it and its line and column. -/
structure SyntaxError where
  cause : SyntaxCause
  offset : Nat
  line : Nat
  column : Nat
  deriving DecidableEq, Repr

def SyntaxError.message (e : SyntaxError) : String :=
  match e.cause with
  | .integerTooLong _ => e.cause.message
  | cause => s!"{cause.message}: line {e.line} column {e.column} (char {e.offset})"

/-- The place of a fault in its text. -/
def Stop.locate (text : List Char) (s : Stop) : SyntaxError :=
  let before := text.take (text.length - s.rest.length)
  { cause := s.cause
    offset := before.length
    line := before.count '\n' + 1
    column := (before.reverse.takeWhile (· ≠ '\n')).length + 1 }

/-- The value of a text, with white space around it. -/
def readText (cs : List Char) : Except Stop Json :=
  match cs with
  | '\ufeff' :: _ => .error ⟨.byteOrderMark, cs⟩
  | _ =>
    match readValue (2 * cs.length + 2) (skipSpace cs) with
    | .error e => .error e
    | .ok (v, rest) =>
      match skipSpace rest with
      | [] => .ok v
      | rest => .error ⟨.extraData, rest⟩

def parse (text : String) : Except SyntaxError Json :=
  (readText text.toList).mapError (Stop.locate text.toList)

end Deductive.Json
