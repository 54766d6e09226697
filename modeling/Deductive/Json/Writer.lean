import Deductive.Decimal.Shortest
import Deductive.Json
import Deductive.Text.Quoted

/-!
JSON text in ASCII: on one line, or with every item on a line of its own.
-/
namespace Deductive.Json

/-- The escape of one unit of sixteen bits. -/
def unitEscape (n : Nat) : List Char := '\\' :: 'u' :: Text.hexDigits 4 n

/-- A character outside the first plane is written as two surrogates. -/
def codeEscape (n : Nat) : List Char :=
  if n < 0x10000 then unitEscape n
  else unitEscape (0xD800 + (n - 0x10000) / 0x400) ++ unitEscape (0xDC00 + (n - 0x10000) % 0x400)

/-- A code point, which may be a surrogate. -/
def escapePoint (n : Nat) : List Char :=
  if n = '"'.toNat then ['\\', '"']
  else if n = '\\'.toNat then ['\\', '\\']
  else if n = '\n'.toNat then ['\\', 'n']
  else if n = '\r'.toNat then ['\\', 'r']
  else if n = '\t'.toNat then ['\\', 't']
  else if n = '\x08'.toNat then ['\\', 'b']
  else if n = '\x0c'.toNat then ['\\', 'f']
  else if ' '.toNat ≤ n ∧ n ≤ '~'.toNat then [Char.ofNat n]
  else codeEscape n

def writeString (s : JsonString) : String :=
  String.ofList ('"' :: s.points.flatMap escapePoint ++ ['"'])

/-- What stands around and between the items of an array or an object: a line break and `indent`
spaces for every level, or nothing but a space after commas. -/
structure Style where
  indent : Option Nat
  deriving DecidableEq, Repr

namespace Style

def oneLine : Style := ⟨none⟩

def indented (n : Nat) : Style := ⟨some n⟩

/-- The break before the first item and after the last one, at a level. -/
def edge (st : Style) (level : Nat) : String :=
  match st.indent with
  | none => ""
  | some n => "\n" ++ "".pushn ' ' (n * level)

/-- What stands between two items. -/
def separator (st : Style) (level : Nat) : String :=
  match st.indent with
  | none => ", "
  | some _ => "," ++ st.edge level

/-- Items between brackets. Without items, the brackets stay together. -/
def bracket (st : Style) (level : Nat) (opening closing : String) (items : List String) : String :=
  if items.isEmpty then opening ++ closing
  else opening ++ st.edge (level + 1) ++ (st.separator (level + 1)).intercalate items ++
    st.edge level ++ closing

end Style

mutual

/-- The text of a value at a level of nesting. -/
def writeAt (st : Style) (level : Nat) : Json → String
  | null => "null"
  | bool true => "true"
  | bool false => "false"
  | int n => toString n
  | fraction false f => f.text
  | fraction true f => "-" ++ f.text
  | infinity false => "Infinity"
  | infinity true => "-Infinity"
  | nan => "NaN"
  | string s => writeString s
  | array items => st.bracket level "[" "]" (writeItems st (level + 1) items)
  | object fields => st.bracket level "\x7b" "\x7d" (writeFields st (level + 1) fields)

def writeItems (st : Style) (level : Nat) : List Json → List String
  | [] => []
  | v :: vs => writeAt st level v :: writeItems st level vs

def writeFields (st : Style) (level : Nat) : List (JsonString × Json) → List String
  | [] => []
  | (name, v) :: fs => (writeString name ++ ": " ++ writeAt st level v) :: writeFields st level fs

end

def write (st : Style) (v : Json) : String := writeAt st 0 v

end Deductive.Json
