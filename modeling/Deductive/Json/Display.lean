import Deductive.Decimal.Shortest
import Deductive.Json
import Deductive.Text.Quoted

/-!
JSON values as messages show them.
-/
namespace Deductive

namespace JsonString

/-- All code points are characters. -/
def isEncodable : JsonString → Bool
  | text _ => true
  | ragged ps => ps.all fun n => decide n.isValidChar

/-- The string as the error output shows it: what is no character is escaped. -/
def escaped : JsonString → String
  | text s => s
  | ragged ps =>
    String.ofList (ps.flatMap fun n => if n.isValidChar then [Char.ofNat n] else Text.codeEscape n)

/-- The string in quotes; what is no character is escaped. -/
def quoted : JsonString → String
  | text s => Text.quoted s
  | ragged ps =>
    let mark := Text.quoteMark (ragged ps).escaped.toList
    String.ofList (mark :: ps.flatMap (Text.quotedPoint mark) ++ [mark])

end JsonString

namespace Json

/-- How messages call a kind of value. -/
def kindName : Json → String
  | null => "NoneType"
  | bool _ => "bool"
  | int _ => "int"
  | fraction _ _ => "float"
  | infinity _ => "float"
  | nan => "float"
  | string _ => "str"
  | array _ => "list"
  | object _ => "dict"

mutual

/-- A value with its strings in quotes. -/
def display : Json → String
  | null => "None"
  | bool true => "True"
  | bool false => "False"
  | int n => toString n
  | fraction false f => f.text
  | fraction true f => "-" ++ f.text
  | infinity false => "inf"
  | infinity true => "-inf"
  | nan => "nan"
  | string s => s.quoted
  | array items => "[" ++ ", ".intercalate (displayAll items) ++ "]"
  | object fields => "\x7b" ++ ", ".intercalate (displayFields fields) ++ "\x7d"

def displayAll : List Json → List String
  | [] => []
  | v :: vs => display v :: displayAll vs

def displayFields : List (JsonString × Json) → List String
  | [] => []
  | (name, v) :: fs => (name.quoted ++ ": " ++ display v) :: displayFields fs

end

/-- A string as it is, any other value as `display` shows it. -/
def toJsonString : Json → JsonString
  | string s => s
  | v => v.display

end Json
end Deductive
