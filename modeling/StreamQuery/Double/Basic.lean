/-! # Doubles

A double is its 64 bits: a sign, 11 bits of exponent and 52 of fraction. As
bits two doubles are equal or not like any other data; as numbers both zeros
are equal, and what is not a number differs from everything.
-/

namespace StreamQuery

structure Double where
  bits : UInt64
deriving DecidableEq, Repr, Inhabited

namespace Double

def signBit : Nat := 0x8000000000000000

/-- The weight of the bit in front of the fraction, which is set but not stored. -/
def hiddenBit : Nat := 0x10000000000000

/-- Whether the sign bit is set, as it is in `-0.0`. -/
def isNegative (x : Double) : Bool := signBit ≤ x.bits.toNat

/-- The bits without the sign. They grow with the magnitude. -/
def magnitude (x : Double) : Nat := x.bits.toNat % signBit

/-- The magnitude of infinity; what is greater is not a number. -/
def infinite : Nat := 2047 * hiddenBit

def isNaN (x : Double) : Bool := infinite < x.magnitude

def isInf (x : Double) : Bool := x.magnitude == infinite

def isFinite (x : Double) : Bool := x.magnitude < infinite

def isZero (x : Double) : Bool := x.magnitude == 0

/-- The number without a sign that has a magnitude. -/
def ofMagnitude (magnitude : Nat) : Double := ⟨UInt64.ofNat magnitude⟩

def zero : Double := ofMagnitude 0

def infinity : Double := ofMagnitude infinite

def nan : Double := ofMagnitude (infinite + hiddenBit / 2)

def neg (x : Double) : Double := ⟨x.bits ^^^ UInt64.ofNat signBit⟩

/-- A whole number that orders doubles: its absolute value is the magnitude. -/
def rank (x : Double) : Int := if x.isNegative then -(x.magnitude : Int) else x.magnitude

/-- Equality as numbers. -/
def same (x y : Double) : Bool := !x.isNaN && !y.isNaN && x.rank == y.rank

def order? (x y : Double) : Option Ordering :=
  if x.isNaN || y.isNaN then none else some (compare x.rank y.rank)

def toFloat (x : Double) : Float := Float.ofBits x.bits

def ofFloat (x : Float) : Double := ⟨x.toBits⟩

end Double

end StreamQuery
