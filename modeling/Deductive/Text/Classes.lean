/-!
Classes of characters, given by the code points they hold: white space, and the digits of every
script.
-/
namespace Deductive.Text

/-- A run of code points, both ends included. -/
abbrev Span := Nat × Nat

def Span.contains (s : Span) (c : Char) : Bool :=
  s.1 ≤ c.toNat && c.toNat ≤ s.2

def inSpans (spans : List Span) (c : Char) : Bool :=
  spans.any (Span.contains · c)

/-- White space: the controls from tab to carriage return, the four information separators, and
the Unicode characters of the property `White_Space`. -/
def blanks : List Span :=
  [(9, 13), (28, 32), (133, 133), (160, 160), (5760, 5760), (8192, 8202), (8232, 8233),
    (8239, 8239), (8287, 8287), (12288, 12288)]

def isBlank (c : Char) : Bool := inSpans blanks c

/-- `cs` without the characters of the class at both of its ends. -/
def trim (skip : Char → Bool) (cs : List Char) : List Char :=
  ((cs.dropWhile skip).reverse.dropWhile skip).reverse

def strip (s : String) : String := String.ofList (trim isBlank s.toList)

/-! Digits. -/

/-- The zeros of the scripts; the nine digits after a zero follow it. -/
def digitZeros : List Nat :=
  [48, 1632, 1776, 1984, 2406, 2534, 2662, 2790, 2918, 3046, 3174, 3302, 3430, 3558, 3664, 3792,
    3872, 4160, 4240, 6112, 6160, 6470, 6608, 6784, 6800, 6992, 7088, 7232, 7248, 42528, 43216,
    43264, 43472, 43504, 43600, 44016, 65296, 66720, 68912, 69734, 69872, 69942, 70096, 70384,
    70736, 70864, 71248, 71360, 71472, 71904, 72016, 72784, 73040, 73120, 92768, 92864, 93008,
    120782, 120792, 120802, 120812, 120822, 123200, 123632, 125264, 130032]

/-- Digits outside positional notation: superscripts, subscripts, circled digits. -/
def ornamentalDigits : List Span :=
  [(178, 179), (185, 185), (4969, 4977), (6618, 6618), (8304, 8304), (8308, 8313), (8320, 8329),
    (9312, 9320), (9332, 9340), (9352, 9360), (9450, 9450), (9461, 9469), (9471, 9471),
    (10102, 10110), (10112, 10120), (10122, 10130), (68160, 68163), (69216, 69224),
    (69714, 69722), (127232, 127242)]

def digitValue? (c : Char) : Option Nat :=
  (digitZeros.find? fun base => base ≤ c.toNat && c.toNat ≤ base + 9).map (c.toNat - ·)

def isDigitSign (c : Char) : Bool :=
  (digitValue? c).isSome || inSpans ornamentalDigits c

end Deductive.Text
