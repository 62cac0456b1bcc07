import StreamQuery.Double.Reader

/-! # Numbers as they are written

A numeral keeps the digits of a number, so that a whole number can be told
from one with a point or a power of ten, and minus zero from zero. As a double
it is the nearest one to the exact value of the digits.
-/

namespace StreamQuery

structure Numeral where
  negative : Bool
  /-- Digits before the point. -/
  whole : List Char
  /-- Digits after the point, if there is one. -/
  fraction : Option (List Char)
  power : Option Int
deriving DecidableEq, Repr

namespace Numeral

def ofInt (i : Int) : Numeral := ⟨i < 0, Nat.toDigits 10 i.natAbs, none, none⟩

def text (n : Numeral) : String :=
  let sign := if n.negative then "-" else ""
  let fraction := match n.fraction with
    | none => ""
    | some digits => "." ++ String.ofList digits
  let power := match n.power with
    | none => ""
    | some p => "e" ++ toString p
  sign ++ String.ofList n.whole ++ fraction ++ power

/-- The whole number that is written; minus zero is none. -/
def toInt? (n : Numeral) : Option Int :=
  if n.fraction.isSome || n.power.isSome then none
  else
    let magnitude := Double.digitsValue 0 n.whole
    if !n.negative then some magnitude
    else if magnitude = 0 then none
    else some (-magnitude)

/-- The double nearest to what is written, if it is finite. -/
def toDouble? (n : Numeral) : Option Double :=
  let fraction := n.fraction.getD []
  let coefficient := Double.digitsValue (Double.digitsValue 0 n.whole) fraction
  let x := Double.ofDecimal coefficient (n.power.getD 0 - fraction.length)
  if x.isInf then none else some (if n.negative then x.neg else x)

/-- Reads a numeral at the head of a text. It has no zero in front, and digits
on both sides of a point. -/
def read? (cs : List Char) : Option (Numeral × List Char) := do
  let (negative, cs) := match cs with
    | '-' :: rest => (true, rest)
    | rest => (false, rest)
  let whole := cs.takeWhile Char.isDigit
  if whole.isEmpty || (whole.length > 1 && whole.head? == some '0') then none
  else
    let (fraction, rest) ← match cs.dropWhile Char.isDigit with
      | '.' :: tail =>
        let digits := tail.takeWhile Char.isDigit
        if digits.isEmpty then none else some (some digits, tail.dropWhile Char.isDigit)
      | tail => some (none, tail)
    let (power, rest) ← match rest with
      | mark :: tail =>
        if mark == 'e' || mark == 'E' then
          let (negative, tail) := Double.readSign tail
          let digits := tail.takeWhile Char.isDigit
          let power : Int := Double.digitsValue 0 digits
          if digits.isEmpty then none
          else some (some (if negative then -power else power), tail.dropWhile Char.isDigit)
        else some (none, rest)
      | [] => some (none, [])
    some (⟨negative, whole, fraction, power⟩, rest)

end Numeral

end StreamQuery
