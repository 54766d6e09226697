/-!
Decimal numbers, and the binary fractions of 53 bits that stand for them.
-/
namespace Deductive

/-- The number `mantissa * 10 ^ exponent` with a sign. -/
structure Decimal where
  negative : Bool
  mantissa : Nat
  exponent : Int
  deriving DecidableEq, Repr, Inhabited

/-- The number `mantissa * 2 ^ exponent`. -/
structure BinaryFraction where
  mantissa : Nat
  exponent : Int
  deriving DecidableEq, Repr, Inhabited

namespace BinaryFraction

def precision : Nat := 53

def minExponent : Int := -1074

def maxExponent : Int := 971

/-- The quotient rounded to the nearest whole number, a half to the even one. -/
def roundDiv (num den : Nat) : Nat :=
  let q := num / den
  let r := num % den
  if den < 2 * r ∨ (2 * r = den ∧ q % 2 = 1) then q + 1 else q

/-- The power of two of the last place of a fraction of 53 bits next to `num / den`. -/
def placeOf (num den : Nat) : Int :=
  let e : Int := (num.log2 : Int) - (den.log2 : Int) - precision
  let scaled :=
    if 0 ≤ e then num / (den * Nat.pow 2 e.toNat) else num * Nat.pow 2 (-e).toNat / den
  max minExponent (if Nat.pow 2 precision ≤ scaled then e + 1 else e)

/-- The fraction nearest to `num / den`; none is near enough to a number that is too great. -/
def nearest (num den : Nat) : Option BinaryFraction :=
  if num = 0 then some ⟨0, 0⟩
  else
    let e := placeOf num den
    let m :=
      if 0 ≤ e then roundDiv num (den * Nat.pow 2 e.toNat)
      else roundDiv (num * Nat.pow 2 (-e).toNat) den
    let f : BinaryFraction :=
      if m = Nat.pow 2 precision then ⟨Nat.pow 2 (precision - 1), e + 1⟩ else ⟨m, e⟩
    if maxExponent < f.exponent then none else some f

/-- The number as a quotient. -/
def quotient (f : BinaryFraction) : Nat × Nat :=
  if 0 ≤ f.exponent then (f.mantissa * Nat.pow 2 f.exponent.toNat, 1)
  else (f.mantissa, Nat.pow 2 (-f.exponent).toNat)

/-- The whole part. -/
def floor (f : BinaryFraction) : Nat := f.quotient.1 / f.quotient.2

end BinaryFraction

namespace Decimal

/-- Exponents beyond this are settled without the powers of ten. -/
def exponentRange : Int := 5000

/-- The binary fraction nearest to the number without its sign. -/
def nearest (d : Decimal) : Option BinaryFraction :=
  if d.mantissa = 0 then some ⟨0, 0⟩
  else
    let magnitude := d.exponent + (Nat.toDigits 10 d.mantissa).length
    if exponentRange < magnitude then none
    else if magnitude < -exponentRange then some ⟨0, 0⟩
    else if 0 ≤ d.exponent then BinaryFraction.nearest (d.mantissa * Nat.pow 10 d.exponent.toNat) 1
    else BinaryFraction.nearest d.mantissa (Nat.pow 10 (-d.exponent).toNat)

end Decimal
end Deductive
