/-! # Digits of any base up to sixteen -/

namespace StreamQuery.Digit

/-- The value of a digit, letters for those past nine. -/
def value? (c : Char) : Option Nat :=
  if c.isDigit then some (c.toNat - 48)
  else if 'a' ≤ c ∧ c ≤ 'f' then some (c.toNat - 87)
  else if 'A' ≤ c ∧ c ≤ 'F' then some (c.toNat - 55)
  else none

def valueIn? (base : Nat) (c : Char) : Option Nat := (value? c).filter (· < base)

def hex? (digits : List Char) : Option Nat :=
  digits.foldlM (fun n c => (valueIn? 16 c).map (16 * n + ·)) 0

end StreamQuery.Digit
