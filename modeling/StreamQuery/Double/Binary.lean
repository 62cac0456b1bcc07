import StreamQuery.Double.Basic

/-! # Doubles as binary numbers

A finite double is a whole number times a power of two. This module takes a
double apart into that form and finds the double nearest to a fraction, both
in exact arithmetic on natural numbers.
-/

namespace StreamQuery.Double

/-- The magnitude of a finite double: `mantissa * 2 ^ exponent`. -/
structure Binary where
  mantissa : Nat
  exponent : Int
deriving DecidableEq, Repr

namespace Binary

/-- The power of two of the last place of the smallest doubles. -/
def leastExponent : Int := -1074

def ofDouble (x : Double) : Binary :=
  let fraction : Nat := x.magnitude % hiddenBit
  let biased : Nat := x.magnitude / hiddenBit
  if biased = 0 then ⟨fraction, leastExponent⟩
  else ⟨hiddenBit + fraction, (biased : Int) - 1075⟩

/-- The double of a mantissa of at most 53 bits. What is past the largest
double is infinite. -/
def toDouble (b : Binary) : Double :=
  if b.mantissa < hiddenBit then ofMagnitude b.mantissa
  else
    let biased := (b.exponent + 1075).toNat
    if 2047 ≤ biased then infinity
    else ofMagnitude (biased * hiddenBit + (b.mantissa - hiddenBit))

/-- Whether the next double below is nearer than the next one above: so for a
power of two, the smallest exponent apart. -/
def atBoundary (b : Binary) : Bool :=
  b.mantissa == hiddenBit && b.exponent != leastExponent

end Binary

def scaled (n : Nat) (e : Int) : Nat × Nat :=
  (n * Nat.pow 2 e.toNat, Nat.pow 2 (-e).toNat)

/-- The quotient rounded to the nearest whole number, a half to the even one. -/
def roundDiv (num den : Nat) : Nat :=
  let quotient := num / den
  let rest := num % den
  if den < 2 * rest ∨ (den = 2 * rest ∧ quotient % 2 = 1) then quotient + 1 else quotient

/-- The exponent at which `num / den` has a mantissa of 53 bits, or the least
exponent if that is greater. -/
def exponentOf (num den : Nat) : Int :=
  let guess : Int := (num.log2 : Int) - den.log2 - 52
  let (n, d) := scaled num (-guess)
  let fitted := if n < hiddenBit * (d * den) then guess - 1 else guess
  max fitted Binary.leastExponent

/-- The double nearest to `num / den`, a half to the even mantissa. -/
def nearest (num den : Nat) : Double :=
  if num = 0 then zero
  else
    let exponent := exponentOf num den
    let (n, d) := scaled num (-exponent)
    let mantissa := roundDiv n (d * den)
    if mantissa < 2 * hiddenBit then Binary.toDouble ⟨mantissa, exponent⟩
    else Binary.toDouble ⟨mantissa / 2, exponent + 1⟩

def ofInt (i : Int) : Double :=
  if i < 0 then (nearest i.natAbs 1).neg else nearest i.natAbs 1

end StreamQuery.Double
