import StreamQuery.Double.Binary

/-! # Reading a double from text

A number is an optional sign, then digits with an optional point and an
optional power of ten, or one of the words for infinity and not-a-number in
any case. The result is the nearest double; what is too large is infinite.
-/

namespace StreamQuery.Double

def digitsValue (start : Nat) (digits : List Char) : Nat :=
  digits.foldl (fun n c => 10 * n + (c.toNat - 48)) start

def readSign : List Char → Bool × List Char
  | '-' :: rest => (true, rest)
  | '+' :: rest => (false, rest)
  | rest => (false, rest)

/-- A power of ten after its mark, or none at the end of the text. -/
def readPower? : List Char → Option Int
  | [] => some 0
  | mark :: rest =>
    if mark == 'e' || mark == 'E' then
      let (negative, digits) := readSign rest
      if digits.isEmpty || !digits.all Char.isDigit then none
      else
        let power : Int := digitsValue 0 digits
        some (if negative then -power else power)
    else none

/-- The double nearest to `coefficient * 10 ^ power`. Powers far outside the
range of doubles are decided by the number of digits alone. -/
def ofDecimal (coefficient : Nat) (power : Int) : Double :=
  let magnitude : Int := (Nat.toDigits 10 coefficient).length + power
  if coefficient = 0 ∨ magnitude < -330 then zero
  else if 310 < magnitude then infinity
  else nearest (coefficient * Nat.pow 10 power.toNat) (Nat.pow 10 (-power).toNat)

/-- Digits, an optional point with more digits, an optional power of ten. -/
def readMagnitude? (cs : List Char) : Option Double := do
  let whole := cs.takeWhile Char.isDigit
  let rest := cs.dropWhile Char.isDigit
  let (fraction, rest) := match rest with
    | '.' :: tail => (tail.takeWhile Char.isDigit, tail.dropWhile Char.isDigit)
    | tail => ([], tail)
  if whole.isEmpty && fraction.isEmpty then none
  else
    let power ← readPower? rest
    some (ofDecimal (digitsValue (digitsValue 0 whole) fraction) (power - fraction.length))

def read? (s : String) : Option Double :=
  let (negative, cs) := readSign s.toList
  let word := String.ofList (cs.map Char.toLower)
  let magnitude? :=
    if word == "inf" || word == "infinity" then some infinity
    else if word == "nan" then some nan
    else readMagnitude? cs
  magnitude?.map fun x => if negative then x.neg else x

end StreamQuery.Double
