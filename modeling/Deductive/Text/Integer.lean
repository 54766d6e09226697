import Deductive.Text.Classes
import Deductive.Text.Quoted

/-!
Integers as a text gives them: white space around, a sign, and decimal digits of any script with
single underscores between them.
-/
namespace Deductive.Text

inductive IntegerError where
  | malformed (text : String)
  | tooLong (digits : Nat)
  deriving DecidableEq, Repr

/-- More digits than these are refused. -/
def maxDigits : Nat := 4300

/-- The characters of a quoted text that a message shows at most. -/
def shownLength : Nat := 200

/-- A text in quotes is no integer. -/
def malformedInteger (shown : String) : String :=
  "invalid literal for int() with base 10: " ++ String.ofList (shown.toList.take shownLength)

def IntegerError.message : IntegerError → String
  | .malformed text => malformedInteger (quoted text)
  | .tooLong digits =>
    s!"Exceeds the limit ({maxDigits} digits) for integer string conversion: " ++
      s!"value has {digits} digits; use sys.set_int_max_str_digits() to increase the limit"

/-- White space around an integer; the information separators do not count here. -/
def isIntegerBlank (c : Char) : Bool :=
  isBlank c && !(28 ≤ c.toNat && c.toNat ≤ 31)

mutual

/-- A digit, then what `moreDigits` reads. -/
def someDigits : List Char → Option (List Nat × List Char)
  | [] => none
  | c :: cs => (digitValue? c).bind fun d => (moreDigits cs).map fun (ds, rest) => (d :: ds, rest)

/-- The digits at the front, and what follows them. An underscore must have a digit after it. -/
def moreDigits : List Char → Option (List Nat × List Char)
  | [] => some ([], [])
  | c :: cs =>
    if c = '_' then someDigits cs
    else match digitValue? c with
      | some d => (moreDigits cs).map fun (ds, rest) => (d :: ds, rest)
      | none => some ([], c :: cs)

end

def ofDigits (ds : List Nat) : Nat := ds.foldl (10 * · + ·) 0

/-- The sign at the front, true for a minus, and what follows it. -/
def splitSign : List Char → Bool × List Char
  | '-' :: cs => (true, cs)
  | '+' :: cs => (false, cs)
  | cs => (false, cs)

def applySign (negative : Bool) (n : Nat) : Int :=
  if negative then -(n : Int) else n

def readInteger (s : String) : Except IntegerError Int :=
  let (negative, body) := splitSign (s.toList.dropWhile isIntegerBlank)
  match someDigits body with
  | none => .error (.malformed s)
  | some (ds, rest) =>
    if maxDigits < ds.length then .error (.tooLong ds.length)
    else if rest.all isIntegerBlank then .ok (applySign negative (ofDigits ds))
    else .error (.malformed s)

end Deductive.Text
