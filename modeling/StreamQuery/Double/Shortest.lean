import StreamQuery.Double.Binary

/-! # Shortest decimal text of a double

Of all decimals that read back as a given double the one with the fewest
digits is chosen, of two such the nearer one, and of two equally near ones the
greater. The digits are found on the decimal grids of 1 to 17 places, where
the value lies between two neighbouring points.
-/

namespace StreamQuery.Double

/-- The decimal `coefficient * 10 ^ exponent`. -/
structure Decimal where
  coefficient : Nat
  exponent : Int
deriving DecidableEq, Repr

def digitsOf (n : Nat) : List Char := Nat.toDigits 10 n

/-- The power of ten of the first digit of `num / den`. -/
def leadingPlace (num den : Nat) : Int :=
  if den ≤ num then ((digitsOf (num / den)).length : Int) - 1
  else
    let places := (digitsOf (den / num)).length
    if den ≤ num * Nat.pow 10 (places - 1) then 1 - (places : Int) else -(places : Int)

/-- The reals that read back as one double, as fractions over `den`. -/
structure Interval where
  low : Nat
  value : Nat
  high : Nat
  den : Nat
  closed : Bool

namespace Interval

/-- The ends lie half way to the neighbouring doubles, and belong to the
interval when the mantissa is even. -/
def ofBinary (b : Binary) : Interval :=
  let (unit, den) := scaled 1 (b.exponent - 2)
  let middle := 4 * b.mantissa
  { low := (middle - if b.atBoundary then 1 else 2) * unit
    value := middle * unit
    high := (middle + 2) * unit
    den := den
    closed := b.mantissa % 2 == 0 }

/-- Whether the interval holds the fraction `num / den`. -/
def holds (i : Interval) (num den : Nat) : Bool :=
  let low := i.low * den
  let high := i.high * den
  let point := num * i.den
  if i.closed then low ≤ point && point ≤ high else low < point && point < high

/-- The grid point next to the value, if one is in the interval: of the two
neighbours the nearer, of equally near ones the greater. -/
def onGrid (i : Interval) (place : Int) : Option Decimal :=
  let step := Nat.pow 10 place.toNat
  let scale := Nat.pow 10 (-place).toNat
  let value := i.value * scale
  let cell := step * i.den
  let below := value / cell
  let above := below + 1
  let lowerHolds := i.holds (below * step) scale
  let upperHolds := i.holds (above * step) scale
  if upperHolds && (!lowerHolds || cell ≤ 2 * (value % cell)) then some ⟨above, place⟩
  else if lowerHolds then some ⟨below, place⟩
  else none

end Interval

def shortest (b : Binary) : Decimal :=
  let i := Interval.ofBinary b
  let first := leadingPlace i.value i.den
  ((List.range 17).findSome? fun (places : Nat) => i.onGrid (first - places)).getD ⟨b.mantissa, 0⟩

/-- How numbers are laid out: which powers of ten of the first digit are
written positionally. -/
structure Layout where
  leastPlace : Int
  greatestPlace : Int

/-- Literals are positional from `0.0001` up to sixteen whole digits. -/
def literalLayout : Layout := ⟨-4, 15⟩

def trimmed (digits : List Char) : List Char :=
  (digits.reverse.dropWhile (· == '0')).reverse

/-- Digits with a point: at least one digit stands on either side of it. -/
def positional (digits : List Char) (place : Int) : List Char :=
  if place < 0 then
    ['0', '.'] ++ List.replicate (-place - 1).toNat '0' ++ digits
  else
    let whole := place.toNat + 1
    let fraction := digits.drop whole
    digits.take whole ++ List.replicate (whole - digits.length) '0' ++ ['.'] ++
      (if fraction.isEmpty then ['0'] else fraction)

/-- Digits with a power of ten; a lone digit has no point. -/
def exponential (digits : List Char) (place : Int) : List Char :=
  let mantissa := match digits with
    | first :: second :: rest => first :: '.' :: second :: rest
    | few => few
  let power := digitsOf place.natAbs
  mantissa ++ 'e' :: (if place < 0 then '-' :: power else power)

def Layout.write (layout : Layout) (b : Binary) : List Char :=
  if b.mantissa = 0 then ['0', '.', '0']
  else
    let decimal := shortest b
    let digits := digitsOf decimal.coefficient
    let place := (digits.length : Int) - 1 + decimal.exponent
    if layout.leastPlace ≤ place ∧ place ≤ layout.greatestPlace then
      positional (trimmed digits) place
    else exponential (trimmed digits) place

def text (x : Double) : String :=
  if x.isNaN then "NaN"
  else
    let digits :=
      if x.isInf then ['i', 'n', 'f'] else literalLayout.write (Binary.ofDouble x)
    String.ofList (if x.isNegative then '-' :: digits else digits)

end StreamQuery.Double
