import StreamQuery.Double.Shortest
import StreamQuery.ValueType

/-! # Values

The literals of closures and the values of captured variables. Whole numbers
of every width are 64-bit words. A text literal is quoted, and a quote inside
it is written twice.
-/

namespace StreamQuery

inductive Value where
  | null
  | bool (b : Bool)
  | int (i : Int64)
  | double (x : Double)
  | text (s : String)
deriving DecidableEq, Repr, Inhabited

namespace Value

/-- The type of a literal; whole numbers are of type `int`. -/
def type : Value → ValueType
  | null => .null
  | bool _ => .bool
  | int _ => .int
  | double _ => .double
  | text _ => .text

/-- Equality with doubles compared as numbers. -/
def same : Value → Value → Bool
  | double x, double y => x.same y
  | a, b => decide (a = b)

def asBool : Value → Option Bool
  | bool b => some b
  | _ => none

def asInt : Value → Option Int64
  | int i => some i
  | _ => none

def asText : Value → Option String
  | text s => some s
  | _ => none

def quoteMark : Char := Char.ofNat 39

/-- Characters of a text, each quote written twice. -/
def doubled : List Char → List Char
  | [] => []
  | c :: rest => if c = quoteMark then c :: c :: doubled rest else c :: doubled rest

def quoted (s : String) : String :=
  String.ofList (quoteMark :: doubled s.toList ++ [quoteMark])

def literal : Value → String
  | null => "NULL"
  | bool true => "TRUE"
  | bool false => "FALSE"
  | int i => toString i.toInt
  | double x => Double.text x
  | text s => quoted s

end Value

end StreamQuery
