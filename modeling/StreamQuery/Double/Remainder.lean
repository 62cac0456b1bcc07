import StreamQuery.Double.Binary

/-! # Remainder of doubles

The remainder of a division whose quotient is cut toward zero is itself a
double, so it is found without rounding: both operands are written over one
power of two and their mantissas divided.
-/

namespace StreamQuery.Double

def Binary.remainder (a b : Binary) : Double :=
  let low := min a.exponent b.exponent
  let left := a.mantissa * Nat.pow 2 (a.exponent - low).toNat
  let right := b.mantissa * Nat.pow 2 (b.exponent - low).toNat
  let (num, den) := scaled (left % right) low
  nearest num den

/-- The remainder has the sign of the dividend; there is none for an infinite
dividend or a zero divisor. -/
def remainder (x y : Double) : Double :=
  if x.isNaN || y.isNaN || x.isInf || y.isZero then nan
  else if y.isInf then x
  else
    let magnitude := (Binary.ofDouble x).remainder (Binary.ofDouble y)
    if x.isNegative then magnitude.neg else magnitude

end StreamQuery.Double
