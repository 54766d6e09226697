import Deductive.Decimal

/-!
The shortest decimal text of a binary fraction: the fewest digits that read back as it, and of
those the nearest.
-/
namespace Deductive

/-- Digits with a point in front of the first one, times `10 ^ scale`. -/
structure DigitString where
  digits : List Char
  scale : Int
  deriving DecidableEq, Repr, Inhabited

/-- How digits are written: with a point as long as `low < scale ≤ high`, and otherwise with an
exponent of at least `exponentWidth` digits. -/
structure DecimalLayout where
  low : Int
  high : Int
  exponentWidth : Nat
  deriving DecidableEq, Repr

namespace BinaryFraction

/-- More digits than these are never needed. -/
def maxShortest : Nat := 17

/-- The least `p` such that the number is below `10 ^ p`. -/
def scaleOf (num den : Nat) : Int :=
  if den ≤ num then (Nat.toDigits 10 (num / den)).length
  else 1 - (Nat.toDigits 10 ((den - 1) / num)).length

/-- The quotient over `10 ^ k`. -/
def shift (num den : Nat) (k : Int) : Nat × Nat :=
  if 0 ≤ k then (num, den * Nat.pow 10 k.toNat) else (num * Nat.pow 10 (-k).toNat, den)

/-- Of the two multiples of `10 ^ k` around the number the nearest that reads back as it, of two
that are equally near the even one. -/
def onGrid? (f : BinaryFraction) (k : Int) : Option Nat :=
  let (num, den) := shift f.quotient.1 f.quotient.2 k
  let below := num / den
  let nearestFirst :=
    if roundDiv num den = below then [below, below + 1] else [below + 1, below]
  nearestFirst.find? fun n => (⟨false, n, k⟩ : Decimal).nearest = some f

def dropZeros (digits : List Char) : List Char := (digits.reverse.dropWhile (· = '0')).reverse

/-- The digits of a number above zero. -/
def shortest (f : BinaryFraction) : DigitString :=
  let p := scaleOf f.quotient.1 f.quotient.2
  let found := (List.range maxShortest).findSome? fun (i : Nat) =>
    let k := p - (i + 1 : Nat)
    (f.onGrid? k).map fun n => (Nat.toDigits 10 n, k)
  match found with
  | some (digits, k) => ⟨dropZeros digits, k + digits.length⟩
  | none => ⟨['0'], 1⟩

end BinaryFraction

namespace DecimalLayout

/-- An exponent with its sign. -/
def writeExponent (layout : DecimalLayout) (e : Int) : List Char :=
  let digits := Nat.toDigits 10 e.natAbs
  'e' :: (if e < 0 then '-' else '+') ::
    List.replicate (layout.exponentWidth - digits.length) '0' ++ digits

/-- Digits with a point between them, and an exponent. -/
def writeScaled (layout : DecimalLayout) (d : DigitString) : List Char :=
  let point := if d.digits.length ≤ 1 then [] else '.' :: d.digits.drop 1
  d.digits.take 1 ++ point ++ layout.writeExponent (d.scale - 1)

/-- Digits with a point, and at least one digit on both of its sides. -/
def writePoint (d : DigitString) : List Char :=
  if d.scale ≤ 0 then '0' :: '.' :: List.replicate (-d.scale).toNat '0' ++ d.digits
  else
    let whole := d.digits.take d.scale.toNat
    let fraction := d.digits.drop d.scale.toNat
    whole ++ List.replicate (d.scale.toNat - whole.length) '0' ++
      '.' :: (if fraction.isEmpty then ['0'] else fraction)

def write (layout : DecimalLayout) (d : DigitString) : List Char :=
  if layout.low < d.scale ∧ d.scale ≤ layout.high then writePoint d else layout.writeScaled d

end DecimalLayout

namespace BinaryFraction

/-- Numbers are written with a point from a ten-thousandth up to sixteen digits. -/
def layout : DecimalLayout := ⟨-4, 16, 2⟩

/-- The number in its shortest text. -/
def text (f : BinaryFraction) : String :=
  if f.mantissa = 0 then "0.0" else String.ofList (layout.write f.shortest)

end BinaryFraction
end Deductive
